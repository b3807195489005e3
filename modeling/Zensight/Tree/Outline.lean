import Zensight.Tree.Node

/-!
# Numbered trees

Two nodes of a tree may look alike, spans included, so a node is named by its
number: its place in the listing of the tree in which every node comes before
its parts and earlier parts before later ones. The listing is `Node.preorder`;
`Node.outline` gives each entry the numbers of its parts.
-/

namespace Zensight

/-- The number of a node in the listing of its tree. -/
abbrev NodeId := Nat

mutual

/-- The nodes of a tree, each before its parts. -/
def Node.preorder : Node → List Node
  | .mk form span parts => .mk form span parts :: parts.preorder

def Parts.preorder : Parts → List Node
  | .nil => []
  | .cons _ node rest => node.preorder ++ rest.preorder

end

/-- One line of an outline: a node with the numbers of its parts in place of
the parts. -/
structure Entry where
  form : Form
  span : Span
  parts : List (Role × NodeId)
  deriving Repr, Inhabited

namespace Entry

/-- The numbers of the parts that play a role. -/
def all (e : Entry) (role : Role) : List NodeId :=
  e.parts.filterMap fun (r, id) => if r = role then some id else none

/-- The number of the first part that plays a role. -/
def get? (e : Entry) (role : Role) : Option NodeId := (e.all role).head?

end Entry

/-- Numbers the parts of a node, the first one `id`. -/
def Parts.numbered (id : NodeId) : Parts → List (Role × NodeId)
  | .nil => []
  | .cons role node rest => (role, id) :: rest.numbered (id + node.size)

mutual

/-- The entries of a tree whose root has the number `id`. -/
def Node.entriesFrom (id : NodeId) : Node → List Entry
  | .mk form span parts =>
    ⟨form, span, parts.numbered (id + 1)⟩ :: parts.entriesFrom (id + 1)

def Parts.entriesFrom (id : NodeId) : Parts → List Entry
  | .nil => []
  | .cons _ node rest => node.entriesFrom id ++ rest.entriesFrom (id + node.size)

end

/-- The outline of a tree: its entries by their numbers. -/
def Node.outline (root : Node) : Array Entry := (root.entriesFrom 0).toArray

mutual

/-- The number of the innermost node at a place, in a node that has the number
`id` and contains the place. Of several parts that contain it the first is
taken. -/
def Node.idAtFrom (line column : Int) (id : NodeId) : Node → NodeId
  | .mk _ _ parts => (parts.idAtFrom line column (id + 1)).getD id

def Parts.idAtFrom (line column : Int) (id : NodeId) : Parts → Option NodeId
  | .nil => none
  | .cons _ node rest =>
    if node.span.contains line column then some (node.idAtFrom line column id)
    else rest.idAtFrom line column (id + node.size)

end

mutual

/-- The innermost node at a place, in a node that contains it. -/
def Node.innermost (line column : Int) : Node → Node
  | .mk form span parts => (parts.innermost? line column).getD (.mk form span parts)

def Parts.innermost? (line column : Int) : Parts → Option Node
  | .nil => none
  | .cons _ node rest =>
    if node.span.contains line column then some (node.innermost line column)
    else rest.innermost? line column

end

/-- Does the node count as being at the place? A file covers every place, also
the blanks after its end. -/
def Node.covers (root : Node) (line column : Int) : Bool :=
  root.form == .file || root.span.contains line column

/-- The innermost node at a place. -/
def Node.at? (root : Node) (line column : Int) : Option Node :=
  if root.covers line column then some (root.innermost line column) else none

/-- The number of the innermost node at a place, counted from the root. -/
def Node.idAt? (root : Node) (line column : Int) : Option NodeId :=
  if root.covers line column then some (root.idAtFrom line column 0) else none

end Zensight
