import Zensight.Types.Hierarchy

/-!
# Members of types

The builtin members of basic types and collections, and the merging of the
member lists of an intersection: of the members that would be the same to a
caller, the first wins.
-/

namespace Zensight

open Zensight.Symbol (field method operation)

namespace Basic

/-- Members of a type of numbers. Only `int` makes ranges. -/
def numericMembers (b : Basic) : List Symbol :=
  let t := Ty.basic b
  [operation .add t [t], operation .sub t [t], operation .mul t [t], operation .div t [t],
    operation .mod t [t], operation .neg t [], operation .compare .int [t],
    operation .equals .bool [t]]
  ++ (if b = .int then [operation .range (.basic .intRange) [.int]] else [])

def boolMembers : List Symbol := [
  operation .not .bool [], operation .and .bool [.bool], operation .or .bool [.bool],
  operation .xor .bool [.bool], operation .equals .bool [.bool]]

def stringMembers : List Symbol := [
  operation .add .string [.any], operation .concat .string [.any],
  operation .compare .int [.string], operation .equals .bool [.string],
  operation .has .bool [.string], operation .indexGet .string [.int],
  field (txt "length") (some .int) .val,
  method (txt "toUpperCase") .string [], method (txt "toLowerCase") .string [],
  method (txt "trim") .string [], method (txt "contains") .bool [.string],
  method (txt "startsWith") .bool [.string], method (txt "endsWith") .bool [.string],
  method (txt "split") (.array .string) [.string],
  method (txt "replace") .string [.string, .string],
  method (txt "substring") .string [.int, .int]]

def intRangeMembers : List Symbol := [
  operation .iterator (.list .int) [],
  field (txt "from") (some .int) .val, field (txt "to") (some .int) .val]

/-- The members of a basic type. -/
def members (b : Basic) : List Symbol :=
  if b.isNumeric then b.numericMembers
  else match b with
    | bool => boolMembers
    | string => stringMembers
    | intRange => intRangeMembers
    | _ => []

end Basic

namespace Ty

/-- Members of an array of `e`. -/
def arrayMembers (e : Ty) : List Symbol := [
  operation .indexGet e [.int], operation .indexSet .void [.int, e],
  operation .iterator (.list e) [], operation .add (.array e) [e],
  operation .has .bool [e], field (txt "length") (some .int) .val]

/-- Members of a list of `e`. -/
def listMembers (e : Ty) : List Symbol := [
  operation .indexGet e [.int], operation .indexSet .void [.int, e],
  operation .iterator (.list e) [], operation .has .bool [e],
  field (txt "length") (some .int) .val,
  method (txt "add") .void [e], method (txt "remove") .void [.int]]

/-- Members of a map from `k` to `v`. A loop runs over the map itself. -/
def mapMembers (k v : Ty) : List Symbol := [
  operation .indexGet v [k], operation .indexSet .void [k, v],
  operation .memberGet v [.string], operation .iterator (.map k v) [],
  operation .has .bool [k], field (txt "length") (some .int) .val,
  field (txt "keys") (some (.array k)) .val, field (txt "values") (some (.array v)) .val,
  field (txt "entrySet") (some (.array (.mapEntry k v))) .val]

/-- Members of an entry of such a map. -/
def mapEntryMembers (k v : Ty) : List Symbol := [
  field (txt "key") (some k) .val, field (txt "value") (some v) .val]

/-- The members that come with a type that is neither a class nor an
intersection. -/
def builtinMembers : Ty → List Symbol
  | basic b => b.members
  | array e => arrayMembers e
  | list e => listMembers e
  | map k v => mapMembers k v
  | mapEntry k v => mapEntryMembers k v
  | function _ _ | intersection _ | classType _ => []

end Ty

namespace Symbol

/-- What a symbol must not share with another in a merged list: a field has its
name, an executable its name and the types of its parameters. `type` is the
type of the symbol and only looked at for executables. -/
def conflictKey (s : Symbol) (type : Ty) : Text :=
  if s.kind.isExecutable then
    match type with
    | .function params _ =>
      s.name ++ txt "(" ++ Text.join (txt ",") (params.map Ty.text) ++ txt ")"
    | _ => s.name
  else s.name

/-- Keeps the first symbol of each key, in order. -/
def firstOfEachKey (seen : List Text) : List (Text × Symbol) → List Symbol
  | [] => []
  | (key, s) :: rest =>
    if seen.contains key then firstOfEachKey seen rest
    else s :: firstOfEachKey (key :: seen) rest

/-- Joins lists of members; of those with one conflict key the first wins. -/
def merge (typeOf : Symbol → Ty) (groups : List (List Symbol)) : List Symbol :=
  firstOfEachKey [] (groups.flatten.map fun s => (s.conflictKey (typeOf s), s))

end Symbol

namespace Ty

mutual

/-- The members a type has by itself: those builtin, those a class declares, or
those of the constituents merged. A function type is no carrier of members. -/
def ownMembers? (h : Hierarchy) (t : Ty) : Option (List Symbol) :=
  match t with
  | function _ _ => none
  | classType c => some (h.members c)
  | intersection cs =>
    some (Symbol.merge (fun s => s.statedType?.getD .any) (ownMemberGroups h cs))
  | t => some t.builtinMembers

def ownMemberGroups (h : Hierarchy) (ts : List Ty) : List (List Symbol) :=
  match ts with
  | [] => []
  | t :: ts => (t.ownMembers? h).toList ++ ownMemberGroups h ts

end

end Ty

end Zensight
