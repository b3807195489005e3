import Zensight.Types.Symbol

/-!
# Class hierarchies

What the declarations of classes say, as far as types need it: the members a
class declares and the classes it extends. A hierarchy may have cycles and may
reach one class on several ways; `lineage` lists a class and everything it
extends, each name once.
-/

namespace Zensight

/-- The declarations of classes. -/
structure Hierarchy where
  /-- A bound on the number of names that classes extend. -/
  size : Nat
  /-- The members a class declares itself, in order. -/
  declaredMembers : ClassRef → List Symbol
  /-- The classes a class extends directly. -/
  declaredSupers : ClassRef → List ClassType

namespace Hierarchy

/-- The members of a class itself; none without a declaration. -/
def members (h : Hierarchy) (c : ClassType) : List Symbol :=
  match c.decl with
  | some r => h.declaredMembers r
  | none => []

/-- The classes a class extends directly; none without a declaration. -/
def supers (h : Hierarchy) (c : ClassType) : List ClassType :=
  match c.decl with
  | some r => h.declaredSupers r
  | none => []

/-- Is there a class with this name among those? -/
def hasName (cs : List ClassType) (name : Text) : Bool := cs.any (·.name == name)

/-- Adds a class and the classes it extends to those already seen, depth first.
A name already seen is not visited again. -/
def extendLineage (h : Hierarchy) : Nat → List ClassType → ClassType → List ClassType
  | 0, seen, _ => seen
  | fuel + 1, seen, c =>
    if hasName seen c.name then seen
    else (h.supers c).foldl (h.extendLineage fuel) (seen ++ [c])

/-- A class and the classes it extends, directly or not, each name once and in
the order of a depth-first visit. Each level of the visit below the first is at
a new name that some class extends, so the number of those bounds its depth. -/
def lineage (h : Hierarchy) (c : ClassType) : List ClassType :=
  h.extendLineage (h.size + 1) [] c

/-- Is a class of this name among those that `c` extends, directly or not? -/
def inherits (h : Hierarchy) (c : ClassType) (name : Text) : Bool :=
  hasName (h.lineage c) name

/-- The members of a class followed by those of the classes it extends. -/
def inheritedMembers (h : Hierarchy) (c : ClassType) : List Symbol :=
  (h.lineage c).flatMap h.members

end Hierarchy

end Zensight
