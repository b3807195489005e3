import Zensight.Text

/-!
# Bytes written by letters

Three bytes are written as four letters of six bits each. At the end, one or two
bytes are filled up with equals signs. Line breaks do not count.
-/

namespace Zensight.Text

/-- The six bits of a letter. -/
def sextet? (c : UInt8) : Option Nat :=
  if isUpper c then some (c.toNat - 'A'.toNat)
  else if isLower c then some (c.toNat - 'a'.toNat + 26)
  else if isDigit c then some (c.toNat - '0'.toNat + 52)
  else if c = byte '+' then some 62
  else if c = byte '/' then some 63
  else none

/-- The bytes that letters stand for. -/
def sextets? : Text → Option Text
  | [] => some []
  | [_] | [_, _] | [_, _, _] => none
  | a :: b :: c :: d :: rest => do
    let a ← sextet? a
    let b ← sextet? b
    let first := UInt8.ofNat (a * 4 + b / 16)
    if c = byte '=' then if d = byte '=' && rest = [] then return [first] else none
    let c ← sextet? c
    let second := UInt8.ofNat (b % 16 * 16 + c / 4)
    if d = byte '=' then if rest = [] then return [first, second] else none
    let d ← sextet? d
    return first :: second :: UInt8.ofNat (c % 4 * 64 + d) :: (← sextets? rest)

/-- The bytes that a text stands for. -/
def ofBase64? (s : Text) : Option Text :=
  sextets? (s.filter fun c => c != byte '\n' && c != byte '\r')

end Zensight.Text
