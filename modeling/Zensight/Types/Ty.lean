import Zensight.Tree.Outline

/-!
# Types

The closed set of types. Two types are equal if they are built alike, classes
being known by their qualified names; functions and map entries are compared by
how they are written.
-/

namespace Zensight

/-- A type that is built from no other. A number outside the order makes a type
of its own that is written like `any`. -/
inductive Basic where
  | any | void | bool | byte | short | int | long | float | double | string | intRange
  | other (number : Int)
  deriving DecidableEq, Repr, Inhabited

namespace Basic

/-- The basic types in order. -/
def all : List Basic := [
  any, void, bool, byte, short, int, long, float, double, string, intRange]

/-- The basic type at place `n` of the order, counted from 0. -/
def ofOrdinal (n : Int) : Basic :=
  if n < 0 then other n else all[n.toNat]?.getD (other n)

def name : Basic → Text
  | any | other _ => txt "any"
  | void => txt "void"
  | bool => txt "bool"
  | byte => txt "byte"
  | short => txt "short"
  | int => txt "int"
  | long => txt "long"
  | float => txt "float"
  | double => txt "double"
  | string => txt "string"
  | intRange => txt "IntRange"

/-- Is it one of the six types of numbers? -/
def isNumeric : Basic → Bool
  | byte | short | int | long | float | double => true
  | _ => false

end Basic

/-- Names a script among those an environment has seen. -/
abbrev ScriptId := Nat

/-- A node of a script an environment has seen. -/
structure NodeRef where
  script : ScriptId
  node : NodeId
  deriving DecidableEq, Repr, Inhabited

/-- Where a class is declared: by a place in a list of classes, or by a node of
a script. -/
inductive ClassRef where
  | listed (index : Nat)
  | declared (decl : NodeRef)
  deriving DecidableEq, Repr, Inhabited

/-- A class by its qualified name, with its declaration if there is one. -/
structure ClassType where
  name : Text
  decl : Option ClassRef := none
  deriving DecidableEq, Repr, Inhabited

namespace ClassType

/-- The last segment of the qualified name. -/
def simpleName (c : ClassType) : Text :=
  (c.name.reverse.takeWhile (· != byte '.')).reverse

end ClassType

inductive Ty where
  | basic (b : Basic)
  | array (element : Ty)
  | list (element : Ty)
  | map (key value : Ty)
  | mapEntry (key value : Ty)
  | function (params : List Ty) (result : Ty)
  | intersection (constituents : List Ty)
  | classType (c : ClassType)
  deriving Repr, Inhabited

namespace Ty

/-- The type of everything unknown. -/
abbrev any : Ty := basic .any

abbrev int : Ty := basic .int

abbrev bool : Ty := basic .bool

abbrev string : Ty := basic .string

abbrev void : Ty := basic .void

def isAny : Ty → Bool
  | basic .any => true
  | _ => false

mutual

/-- A type as it is written, and then the text `s`. -/
def textThen : Ty → Text → Text
  | basic b, s => b.name ++ s
  | array e, s => e.textThen (txt "[]" ++ s)
  | list e, s => txt "[" ++ e.textThen (txt "]" ++ s)
  | map k v, s => v.textThen (txt "[" ++ k.textThen (txt "]" ++ s))
  | mapEntry k v, s =>
    txt "Map.Entry<" ++ k.textThen (txt "," ++ v.textThen (txt ">" ++ s))
  | function ps r, s => txt "function(" ++ textsThen (txt ",") ps (txt ")" ++ r.textThen s)
  | intersection cs, s => textsThen (txt " & ") cs s
  | classType c, s => c.name ++ s

/-- Types as they are written with `sep` between neighbours, and then the text
`s`. -/
def textsThen (sep : Text) : List Ty → Text → Text
  | [], s => s
  | [t], s => t.textThen s
  | t :: ts, s => t.textThen (sep ++ textsThen sep ts s)

end

/-- A type as it is written. -/
def text (t : Ty) : Text := t.textThen []

mutual

/-- What comes behind a type does not change how it is written. -/
theorem textThen_append : (t : Ty) → (a b : Text) → t.textThen (a ++ b) = t.textThen a ++ b
  | basic _, _, _ => by simp [textThen]
  | array e, a, b => by simp only [textThen, ← List.append_assoc, textThen_append e]
  | list e, a, b => by
    rw [textThen, textThen, ← List.append_assoc (txt "]"), textThen_append e, List.append_assoc]
  | map k v, a, b => by
    rw [textThen, textThen, ← List.append_assoc (txt "]"), textThen_append k,
      ← List.append_assoc (txt "["), textThen_append v]
  | mapEntry k v, a, b => by
    rw [textThen, textThen, ← List.append_assoc (txt ">"), textThen_append v,
      ← List.append_assoc (txt ","), textThen_append k, List.append_assoc]
  | function ps r, a, b => by
    rw [textThen, textThen, textThen_append r, ← List.append_assoc (txt ")"),
      textsThen_append, List.append_assoc]
  | intersection cs, a, b => by rw [textThen, textThen, textsThen_append]
  | classType _, _, _ => by simp [textThen]

theorem textsThen_append (sep : Text) :
    (ts : List Ty) → (a b : Text) → textsThen sep ts (a ++ b) = textsThen sep ts a ++ b
  | [], _, _ => by simp [textsThen]
  | [t], a, b => by rw [textsThen, textsThen, textThen_append t]
  | t :: u :: ts, a, b => by
    have h : t.textThen (sep ++ textsThen sep (u :: ts) (a ++ b))
        = t.textThen (sep ++ textsThen sep (u :: ts) a) ++ b := by
      rw [textsThen_append sep (u :: ts), ← List.append_assoc, textThen_append t]
    simpa only [textsThen] using h

end

theorem textThen_eq (t : Ty) (s : Text) : t.textThen s = t.text ++ s := by
  have h := textThen_append t [] s
  rwa [List.nil_append] at h

/-- Types in a row are written each by itself and joined. -/
theorem textsThen_eq (sep : Text) :
    (ts : List Ty) → (s : Text) → textsThen sep ts s = Text.join sep (ts.map text) ++ s
  | [], _ => by simp [textsThen, Text.join]
  | [t], s => by simp [textsThen, Text.join, textThen_eq]
  | t :: u :: ts, s => by
    simp [textsThen, Text.join, textThen_eq, textsThen_eq sep (u :: ts)]

mutual

/-- Do two types count as the same? -/
def equal : Ty → Ty → Bool
  | basic a, basic b => a == b
  | array a, array b => a.equal b
  | list a, list b => a.equal b
  | map k v, map l w => k.equal l && v.equal w
  | mapEntry k v, mapEntry l w => (mapEntry k v).text == (mapEntry l w).text
  | function ps r, function qs s => (function ps r).text == (function qs s).text
  | intersection cs, intersection ds => equalAll cs ds
  | classType c, classType d => c.name == d.name
  | _, _ => false

/-- Do two lists of types count as the same, element by element? -/
def equalAll : List Ty → List Ty → Bool
  | [], [] => true
  | t :: ts, u :: us => t.equal u && equalAll ts us
  | _, _ => false

end

/-- The result of a function type; of any other type `any`. -/
def resultType : Ty → Ty
  | function _ r => r
  | _ => any

end Ty

end Zensight
