import Zensight.Yaml.Lexeme

/-!
# YAML

The first document of a text as a tree of nodes. A node is a scalar, a list, a
mapping or a reference to another node. Lists and mappings stand in brackets or
are blocks of indented lines. What follows the first document is looked at only
as far as it takes to see that the document has ended.
-/

namespace Zensight

/-- A node of a document. -/
inductive Yaml where
  /-- A scalar keeps its text. The tag is empty for a plain scalar that has none,
  whose kind is seen from the text. -/
  | scalar (tag text : Text)
  | list (items : List Yaml)
  | mapping (entries : List (Yaml × Yaml))
  /-- A node that has been given a name before. There is none if the reference
  stands within the node it refers to. -/
  | reference (name : Text) (node : Option Yaml)
  deriving Repr, Inhabited

namespace Yaml

/-! ### Tags -/

/-- What the tags of the language itself begin with. -/
def commonBase : Text := txt "tag:yaml.org,2002:"

/-- The tag of a text. -/
def textTag : Text := txt "!!str"

/-- The tag of a key whose value is merged into the mapping. -/
def mergeTag : Text := txt "!!merge"

/-- The short form of a tag. -/
def shortTag (t : Text) : Text :=
  if t.startsWith commonBase then txt "!!" ++ t.drop commonBase.length else t

/-- The text of the key whose value is merged into the mapping. -/
def mergeKey : Text := txt "<<"

/-- A scalar with the tag that was written, if there was one. A scalar that is
not plain is a text unless its tag says otherwise. -/
def ofScalar (written : Text) (plain : Bool) (text : Text) : Yaml :=
  if written ≠ [] && written ≠ txt "!" then scalar (shortTag written) text
  else if !plain then scalar textTag text
  else if text = mergeKey then scalar mergeTag text
  else scalar [] text

/-- The scalar that stands where a node is missing. -/
def nothing : Yaml := scalar [] []

/-- Does the value of this key belong into the mapping itself? -/
def isMerge : Yaml → Bool
  | scalar tag text => text == mergeKey && tag == mergeTag
  | _ => false

/-- Are two keys the same, as far as that can be seen? Of lists and mappings no
two may be keys. -/
def sameKey : Yaml → Yaml → Bool
  | scalar _ s, scalar _ t => s == t
  | list _, list _ => true
  | mapping _, mapping _ => true
  | reference a _, reference b _ => a == b
  | _, _ => false

/-! ### Building the tree -/

/-- What a name refers to: a node, or one that is not finished yet, known by the
number of the lexeme it began with. -/
inductive Anchor where
  | unfinished (number : Nat)
  | finished (node : Yaml)
  deriving Repr

/-- A document of which a part has been built. -/
structure Builder where
  scanner : Scanner
  anchors : List (Text × Anchor) := []
  /-- What the handles of tags stand for. -/
  handles : List (Text × Text) := []

/-- Something that is built from lexemes. -/
abbrev Build := StateT Builder Option

namespace Build

def scanning {α : Type} (r : Scan α) : Build α := fun b =>
  (r b.scanner).map fun (a, scanner) => (a, { b with scanner })

def peek : Build Lexeme := scanning .peek

def drop : Build Unit := scanning .drop

/-- Takes the next lexeme away and looks at the one behind it. -/
def dropPeek : Build Lexeme := do
  drop
  peek

/-- Takes the next lexeme away, which has to be this one. -/
def expect (l : Lexeme) : Build Unit := do
  if (← peek) = l then drop else failure

/-- The node behind a name. -/
def resolve (name : Text) : Build Yaml := do
  match (← get).anchors.find? (·.1 == name) with
  | none => failure
  | some (_, .unfinished _) => return .reference name none
  | some (_, .finished node) => return .reference name (some node)

/-- Gives a name to something. -/
def define (name : Text) (a : Anchor) : Build Unit :=
  if name = [] then pure ()
  else modify fun b => { b with anchors := (name, a) :: b.anchors.filter (·.1 != name) }

/-- Builds a node that may hold references to itself. Its name stands for the
finished node unless it was given to another one meanwhile. -/
def named (name : Text) (build : Build Yaml) : Build Yaml := do
  let number := (← get).scanner.taken
  define name (.unfinished number)
  let node ← build
  if let some (_, .unfinished n) := (← get).anchors.find? (·.1 == name) then
    if n = number then define name (.finished node)
  return node

/-- The full text of a tag. -/
def tagText (t : Reading.WrittenTag) : Build Text := do
  if t.handle = [] then return t.suffix
  match (← get).handles.find? (·.1 == t.handle) with
  | some (_, base) => return base ++ t.suffix
  | none => failure

/-- The name and the tag before a node, in either order; empty if missing. -/
def properties : Build (Text × Text) := do
  match ← peek with
  | .anchor name =>
    match ← dropPeek with
    | .tag t =>
      drop
      return (name, ← tagText t)
    | _ => return (name, [])
  | .tag t =>
    let tag ← tagText t
    match ← dropPeek with
    | .anchor name =>
      drop
      return (name, tag)
    | _ => return ([], tag)
  | _ => return ([], [])

/-- A single scalar with its properties. -/
def leaf (name tag : Text) (plain : Bool) (text : Text) : Build Yaml := do
  let node := Yaml.ofScalar tag plain text
  define name (.finished node)
  return node

mutual

/-- A node. In a block it may be a block itself; as the value of a key it may be
a list whose items are indented no deeper than the key. -/
def node (inBlock isValue : Bool) : Nat → Build Yaml
  | 0 => failure
  | fuel + 1 => do
    if let .reference name ← peek then
      drop
      return ← resolve name
    let (name, tag) ← properties
    match ← peek with
    | .blockItem =>
      if isValue then named name (return .list (← bareItems fuel))
      else missing name tag
    | .scalar plain text =>
      drop
      leaf name tag plain text
    | .flowListStart => named name do drop; return .list (← flowItems true fuel)
    | .flowMappingStart => named name do drop; return .mapping (← flowFields true fuel)
    | .blockListStart =>
      if inBlock then named name do drop; return .list (← blockItems fuel)
      else missing name tag
    | .blockMappingStart =>
      if inBlock then named name do drop; return .mapping (← blockFields fuel)
      else missing name tag
    | _ => missing name tag

/-- A node of which there is no more than its name or tag. -/
def missing (name tag : Text) : Build Yaml :=
  if name = [] && tag = [] then failure else leaf name tag true []

/-- The items of a block. -/
def blockItems : Nat → Build (List Yaml)
  | 0 => failure
  | fuel + 1 => do
    match ← peek with
    | .blockItem =>
      let l ← dropPeek
      let x ←
        if l = .blockItem || l = .blockEnd then pure nothing else node true false fuel
      return x :: (← blockItems fuel)
    | .blockEnd =>
      drop
      return []
    | _ => failure

/-- The items of a list that is indented no deeper than its key. -/
def bareItems : Nat → Build (List Yaml)
  | 0 => failure
  | fuel + 1 => do
    match ← peek with
    | .blockItem =>
      let l ← dropPeek
      let x ←
        if l = .blockItem || l = .key || l = .value || l = .blockEnd then pure nothing
        else node true false fuel
      return x :: (← bareItems fuel)
    | _ => return []

/-- The entries of a block. -/
def blockFields : Nat → Build (List (Yaml × Yaml))
  | 0 => failure
  | fuel + 1 => do
    let k ← match ← peek with
      | .key => blockPart (← dropPeek) fuel
      | .blockEnd =>
        drop
        return []
      | _ => failure
    let v ← match ← peek with
      | .value => blockPart (← dropPeek) fuel
      | _ => pure nothing
    return (k, v) :: (← blockFields fuel)

/-- A key or value in a block, which begins with the lexeme `l` if it is there. -/
def blockPart (l : Lexeme) : Nat → Build Yaml
  | 0 => failure
  | fuel + 1 =>
    if l = .key || l = .value || l = .blockEnd then pure nothing else node true true fuel

/-- The items of a list in brackets. -/
def flowItems (first : Bool) : Nat → Build (List Yaml)
  | 0 => failure
  | fuel + 1 => do
    let l ← peek
    if l = .flowListEnd then
      drop
      return []
    let l ←
      if first then pure l
      else if l = .flowItem then dropPeek
      else failure
    match l with
    | .flowListEnd =>
      drop
      return []
    | .key =>
      drop
      let entry ← flowPair fuel
      return .mapping [entry] :: (← flowItems false fuel)
    | _ =>
      let x ← node false false fuel
      return x :: (← flowItems false fuel)

/-- A list item that is a single entry of a mapping. A key that is missing takes
the lexeme in its place away. -/
def flowPair : Nat → Build (Yaml × Yaml)
  | 0 => failure
  | fuel + 1 => do
    let l ← peek
    let k ←
      if l = .value || l = .flowItem || l = .flowListEnd then do
        drop
        pure nothing
      else node false false fuel
    let v ← flowValue .flowListEnd fuel
    return (k, v)

/-- The value of an entry in brackets that end with the lexeme `close`. -/
def flowValue (close : Lexeme) : Nat → Build Yaml
  | 0 => failure
  | fuel + 1 => do
    if (← peek) = .value then
      let l ← dropPeek
      if l = .flowItem || l = close then return nothing
      node false false fuel
    else return nothing

/-- The entries of a mapping in brackets. -/
def flowFields (first : Bool) : Nat → Build (List (Yaml × Yaml))
  | 0 => failure
  | fuel + 1 => do
    let l ← peek
    if l = .flowMappingEnd then
      drop
      return []
    let l ←
      if first then pure l
      else if l = .flowItem then dropPeek
      else failure
    match l with
    | .flowMappingEnd =>
      drop
      return []
    | .key =>
      let l ← dropPeek
      let k ←
        if l = .value || l = .flowItem || l = .flowMappingEnd then pure nothing
        else node false false fuel
      let v ← flowValue .flowMappingEnd fuel
      return (k, v) :: (← flowFields false fuel)
    | _ =>
      let k ← node false false fuel
      _ ← peek
      return (k, nothing) :: (← flowFields false fuel)

end

/-- Notes what a handle stands for. No handle may be given twice. -/
def defineHandle (handle base : Text) : Build Unit := do
  if ((← get).handles.find? (·.1 == handle)).isSome then failure
  modify fun b => { b with handles := (handle, base) :: b.handles }

/-- The directives before a document. There is at most one that gives a version,
and that has to be 1.1. -/
def directives (versioned : Bool) : Nat → Build Unit
  | 0 => failure
  | fuel + 1 => do
    match ← peek with
    | .directive (.version major minor) =>
      if versioned || major ≠ 1 || minor ≠ 1 then failure
      drop
      directives true fuel
    | .directive (.tag handle base) =>
      defineHandle handle base
      drop
      directives versioned fuel
    | _ => return

/-- The handles that need not be given. -/
def commonHandles : List (Text × Text) := [(txt "!", txt "!"), (txt "!!", commonBase)]

/-- Is the document empty if this follows its first mark? -/
def endsDocument : Lexeme → Bool
  | .directive _ | .documentStart | .documentEnd | .streamEnd => true
  | _ => false

/-- The first document, if there is one. -/
def document (fuel : Nat) : Build (Option Yaml) := do
  expect .streamStart
  let l ← peek
  if l = .streamEnd then return none
  directives false fuel
  modify fun b => { b with handles := b.handles ++ commonHandles }
  let marked := endsDocument l && l ≠ .documentEnd
  if marked then expect .documentStart
  let root ←
    if marked && endsDocument (← peek) then pure nothing else node true false fuel
  _ ← peek
  return some root

end Build

/-- The first document of a text, if there is one. No text gives more than a few
lexemes for each of its bytes, so the fuel is enough. -/
def parse (s : Text) : Option (Option Yaml) :=
  let start : Builder := { scanner := { cursor := .ofText s } }
  (Build.document (16 * s.length + 64) start).map (·.1)

end Yaml

end Zensight
