import Zensight.Types.Members
import Zensight.Types.Rank

/-!
# Listed classes

A hierarchy given by a finite list of classes instead of scripts.
-/

namespace Zensight

/-- A class with the names of those it extends. -/
structure ListedClass where
  name : Text
  supers : List Text
  members : List Symbol
  deriving Repr, Inhabited

/-- A list of classes that refer to each other by name. -/
abbrev ClassTable := List ListedClass

namespace ClassTable

/-- The class of this name. One that is not listed has no declaration. -/
def classNamed (table : ClassTable) (name : Text) : ClassType :=
  { name, decl := (table.findIdx? (·.name == name)).map .listed }

/-- What the listed classes say. -/
def hierarchy (table : ClassTable) : Hierarchy where
  size := (table.flatMap (·.supers)).length
  declaredMembers
    | .listed i => match table[i]? with
      | some c => c.members
      | none => []
    | .declared _ => []
  declaredSupers
    | .listed i => match table[i]? with
      | some c => c.supers.map table.classNamed
      | none => []
    | .declared _ => []

/-- The context in which a type has its own members and a symbol its stated
type. -/
def context (table : ClassTable) : Context Id where
  membersOf t := (t.ownMembers? table.hierarchy).getD []
  typeOf s := s.statedType?.getD .any

end ClassTable

end Zensight
