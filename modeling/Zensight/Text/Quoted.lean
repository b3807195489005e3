import Zensight.Text
import Zensight.Text.Printable

/-!
# Quoted text

Messages quote texts that come from outside between double quotes. Printable
code points stand for themselves, the common control codes have short escapes,
and everything else, bytes that are no UTF-8 included, is written by number.
-/

namespace Zensight.Text

/-- Does the byte continue a code point? -/
def isContinuation (c : UInt8) : Bool := 0x80 ≤ c && c ≤ 0xbf

/-- The six bits that a continuing byte adds. -/
def continuationBits (c : UInt8) : Nat := c.toNat - 0x80

/-- The code point at the start of a text and its length in bytes, if the text
starts with valid UTF-8. -/
def codePoint? : Text → Option (Nat × Nat)
  | [] => none
  | a :: s =>
    if a < 0x80 then some (a.toNat, 1)
    else if 0xc2 ≤ a && a ≤ 0xdf then
      match s with
      | b :: _ =>
        if isContinuation b then
          some ((a.toNat - 0xc0) * 64 + continuationBits b, 2)
        else none
      | _ => none
    else if 0xe0 ≤ a && a ≤ 0xef then
      match s with
      | b :: c :: _ =>
        if isContinuation b && isContinuation c && (a != 0xe0 || 0xa0 ≤ b)
            && (a != 0xed || b ≤ 0x9f) then
          some (((a.toNat - 0xe0) * 64 + continuationBits b) * 64 + continuationBits c, 3)
        else none
      | _ => none
    else if 0xf0 ≤ a && a ≤ 0xf4 then
      match s with
      | b :: c :: d :: _ =>
        if isContinuation b && isContinuation c && isContinuation d
            && (a != 0xf0 || 0x90 ≤ b) && (a != 0xf4 || b ≤ 0x8f) then
          some ((((a.toNat - 0xf0) * 64 + continuationBits b) * 64 + continuationBits c) * 64
            + continuationBits d, 4)
        else none
      | _ => none
    else none

/-- The last `width` hexadecimal digits of a number. -/
def hex (width n : Nat) : Text :=
  match width with
  | 0 => []
  | width + 1 => hex width (n / 16) ++ [(Nat.digitChar (n % 16)).toUInt8]

/-- A code point between the quotes `mark`; `raw` are its bytes. -/
def quoteCodePoint (mark : Char) (c : Nat) (raw : Text) : Text :=
  if c = mark.toNat then txt "\\" ++ raw
  else if c = '\\'.toNat then txt "\\\\"
  else if Printable.isPrintable c then raw
  else if c = 7 then txt "\\a"
  else if c = 8 then txt "\\b"
  else if c = 12 then txt "\\f"
  else if c = 10 then txt "\\n"
  else if c = 13 then txt "\\r"
  else if c = 9 then txt "\\t"
  else if c = 11 then txt "\\v"
  else if c < 0x80 then txt "\\x" ++ hex 2 c
  else if c < 0x10000 then txt "\\u" ++ hex 4 c
  else txt "\\U" ++ hex 8 c

/-- Quotes code point by code point. Each takes at least one byte, so the length
of the text is fuel enough. -/
def quoteFrom : Nat → Text → Text
  | 0, _ => []
  | fuel + 1, s =>
    match s with
    | [] => []
    | a :: rest =>
      match codePoint? (a :: rest) with
      | some (c, n) =>
        quoteCodePoint '"' c ((a :: rest).take n) ++ quoteFrom fuel ((a :: rest).drop n)
      | none => txt "\\x" ++ hex 2 a.toNat ++ quoteFrom fuel rest

/-- The text between double quotes. -/
def quote (s : Text) : Text := txt "\"" ++ quoteFrom s.length s ++ txt "\""

/-- A character between single quotes. -/
def quoteChar (c : Char) : Text := txt "'" ++ quoteCodePoint '\'' c.toNat (ofChar c) ++ txt "'"

end Zensight.Text
