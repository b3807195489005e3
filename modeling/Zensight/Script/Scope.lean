import Zensight.Types.Symbol

/-!
# Scopes

A scope keeps what it declares in order. A name found in it is its first
declaration; later ones of the same name stay in the list, where overloads are
gathered.
-/

namespace Zensight

/-- The number of a scope of a script. -/
abbrev ScopeId := Nat

structure Scope where
  /-- Its own number. -/
  id : ScopeId
  /-- The scope around it; the scope of a whole script has none. -/
  parent : Option ScopeId
  /-- The node that opened it. -/
  owner : NodeId
  symbols : List Declaration := []
  /-- The place in the list of each name's first declaration. -/
  index : List (Text × Nat) := []
  deriving Repr, Inhabited

namespace Scope

/-- Does the scope declare the name? -/
def declares (s : Scope) (name : Text) : Bool := (s.index.lookup name).isSome

/-- Adds a declaration. -/
def define (s : Scope) (d : Declaration) : Scope :=
  { s with
    symbols := s.symbols ++ [d]
    index :=
      if s.declares d.name then s.index else s.index ++ [(d.name, s.symbols.length)] }

/-- The first declaration of a name. -/
def lookup (s : Scope) (name : Text) : Option Declaration :=
  (s.index.lookup name).bind fun i => s.symbols[i]?

/-- All declarations of a name, in order. -/
def named (s : Scope) (name : Text) : List Declaration :=
  s.symbols.filter (·.name == name)

end Scope

end Zensight
