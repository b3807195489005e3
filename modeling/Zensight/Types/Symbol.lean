import Zensight.Types.Operator
import Zensight.Types.Ty

/-!
# Symbols

A symbol is something with a name and a type. Either its type is stated with
it, as for the members of builtin types, or it is declared by a node of a
script and the type has to be found from there.
-/

namespace Zensight

inductive SymbolKind where
  | var | param | importing | zenClass | constructor | function | operator | expand
  deriving DecidableEq, Repr, Inhabited

namespace SymbolKind

/-- The kinds in order. -/
def all : List SymbolKind := [
  var, param, importing, zenClass, constructor, function, operator, expand]

/-- The kind at place `n` of the order, counted from 0. -/
def ofOrdinal? (n : Int) : Option SymbolKind :=
  if n < 0 then none else all[n.toNat]?

def name : SymbolKind → Text
  | var => txt "variable"
  | param => txt "parameter"
  | importing => txt "import"
  | zenClass => txt "class"
  | constructor => txt "constructor"
  | function => txt "function"
  | operator => txt "operator"
  | expand => txt "expand"

/-- The name at place `n`, which may lie outside the order. -/
def nameAt (n : Int) : Text :=
  match ofOrdinal? n with
  | some k => k.name
  | none => txt "unknown"

/-- Can a symbol of this kind be called? -/
def isExecutable : SymbolKind → Bool
  | constructor | function | operator | expand => true
  | _ => false

end SymbolKind

/-- The modifiers of a declaration, one bit each. -/
structure Modifiers where
  bits : UInt64
  deriving DecidableEq, Repr, Inhabited

namespace Modifiers

def none : Modifiers := ⟨0⟩

def global : Modifiers := ⟨1⟩

def static : Modifiers := ⟨2⟩

def var : Modifiers := ⟨4⟩

def val : Modifiers := ⟨8⟩

/-- The modifiers whose bits, as a signed number, are `n`. -/
def ofInt (n : Int) : Modifiers := ⟨UInt64.ofInt n⟩

/-- Are all the modifiers of `k` among those of `m`? -/
def has (m k : Modifiers) : Bool := m.bits &&& k.bits == k.bits

/-- The known modifiers by name. -/
def text (m : Modifiers) : Text :=
  let named := [(global, "global"), (static, "static"), (var, "var"), (val, "val")]
  Text.join (txt " ") ((named.filter fun (k, _) => m.has k).map fun (_, s) => txt s)

end Modifiers

/-- A symbol with its type. -/
structure Stated where
  name : Text
  kind : SymbolKind
  modifiers : Modifiers := .none
  type : Option Ty
  operator : Option Operator := none
  deriving Repr, Inhabited

/-- What a declaration is besides its name. The numbers are those of nodes of
the same script. -/
inductive Declaration.Detail where
  /-- A variable, a parameter, an import, or `this` in a class. -/
  | plain
  /-- A function or a constructor, with the number of arguments it needs. -/
  | executable (required : Nat)
  | operator (op : Operator) (required : Nat)
  /-- A function that adds to the type its target stands for. -/
  | expand (target : NodeId) (required : Nat)
  /-- `this` in such a function. -/
  | receiver (target : NodeId)
  /-- A class with its qualified name. -/
  | zenClass (qualified : Text)
  deriving DecidableEq, Repr, Inhabited

/-- A symbol declared by a node of a script. -/
structure Declaration where
  name : Text
  kind : SymbolKind
  modifiers : Modifiers := .none
  node : NodeId
  detail : Declaration.Detail := .plain
  deriving DecidableEq, Repr, Inhabited

inductive Symbol where
  | stated (s : Stated)
  | declared (script : ScriptId) (d : Declaration)
  deriving Repr, Inhabited

namespace Symbol

def name : Symbol → Text
  | stated s => s.name
  | declared _ d => d.name

def kind : Symbol → SymbolKind
  | stated s => s.kind
  | declared _ d => d.kind

def modifiers : Symbol → Modifiers
  | stated s => s.modifiers
  | declared _ d => d.modifiers

/-- The operator that an operator function implements. -/
def operator? : Symbol → Option Operator
  | stated s => s.operator
  | declared _ d => match d.detail with
    | .operator op _ => some op
    | _ => none

/-- The number of arguments that a declared executable needs: all its
parameters but those at the end that have a value to fall back on. -/
def required? : Symbol → Option Nat
  | stated _ => none
  | declared _ d => match d.detail with
    | .executable n | .operator _ n | .expand _ n => some n
    | _ => none

/-- The type that goes with a stated symbol, if it has one. -/
def statedType? : Symbol → Option Ty
  | stated s => s.type
  | declared _ _ => none

/-- A field of a builtin type. -/
def field (name : Text) (type : Option Ty) (modifiers : Modifiers) : Symbol :=
  stated { name, kind := .var, modifiers, type }

/-- A function of a builtin type. -/
def method (name : Text) (result : Ty) (params : List Ty) : Symbol :=
  stated { name, kind := .function, type := some (.function params result) }

/-- An operator of a builtin type. -/
def operation (op : Operator) (result : Ty) (params : List Ty) : Symbol :=
  stated {
    name := op.name, kind := .operator, type := some (.function params result),
    operator := some op }

end Symbol

end Zensight
