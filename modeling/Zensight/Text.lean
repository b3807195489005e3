/-!
# Text as bytes

Scripts, file names and messages are byte strings: a script may hold bytes
that are no valid UTF-8 inside its string literals, and they have to come out
as they went in. A `Text` is therefore the list of its bytes, and lengths and
columns count bytes.
-/

namespace Zensight

/-- A byte string. -/
abbrev Text := List UInt8

/-- The UTF-8 bytes of a string. -/
def txt (s : String) : Text := s.toList.flatMap String.utf8EncodeChar

/-- The byte of an ASCII character. -/
def byte (c : Char) : UInt8 := c.toUInt8

namespace Text

/-- The UTF-8 bytes of one code point. -/
def ofChar (c : Char) : Text := String.utf8EncodeChar c

/-- Decimal digits of a natural number. -/
def ofNat (n : Nat) : Text := (Nat.toDigits 10 n).map Char.toUInt8

/-- Decimal digits of an integer, a minus sign before them if it is negative. -/
def ofInt : Int → Text
  | .ofNat n => ofNat n
  | .negSucc n => byte '-' :: ofNat (n + 1)

/-- The texts one after another with `sep` between neighbours. -/
def join (sep : Text) : List Text → Text
  | [] => []
  | [t] => t
  | t :: rest => t ++ (sep ++ join sep rest)

/-- The pieces of `s` between the bytes equal to `sep`; one piece more than
there are separators. -/
def split (sep : UInt8) : Text → List Text
  | [] => [[]]
  | c :: s =>
    if c = sep then [] :: split sep s
    else match split sep s with
      | [] => [[c]]
      | piece :: pieces => (c :: piece) :: pieces

/-- Does `s` begin with `start`? -/
def startsWith (s start : Text) : Bool := start.isPrefixOf s

/-- Does `s` end with `tail`? -/
def endsWith (s tail : Text) : Bool := tail.isSuffixOf s

/-- `s` without `tail` at its end, if it is there. -/
def dropEnd (s tail : Text) : Text :=
  if s.endsWith tail then s.take (s.length - tail.length) else s

/-- `s` without the bytes satisfying `p` at its end. -/
def dropEndWhile (p : UInt8 → Bool) (s : Text) : Text :=
  (s.reverse.dropWhile p).reverse

/-- `s` without the bytes satisfying `p` at both ends. -/
def trim (p : UInt8 → Bool) (s : Text) : Text :=
  dropEndWhile p (s.dropWhile p)

/-- Order of texts: the first differing byte decides, and a text comes before
its own extensions. -/
def before : Text → Text → Bool
  | [], [] => false
  | [], _ :: _ => true
  | _ :: _, [] => false
  | a :: s, b :: t => a < b || (a == b && before s t)

def isDigit (c : UInt8) : Bool := byte '0' ≤ c && c ≤ byte '9'

def isUpper (c : UInt8) : Bool := byte 'A' ≤ c && c ≤ byte 'Z'

def isLower (c : UInt8) : Bool := byte 'a' ≤ c && c ≤ byte 'z'

/-- May a name begin with this byte? -/
def isLetter (c : UInt8) : Bool := isLower c || isUpper c || c == byte '_'

def isHexDigit (c : UInt8) : Bool :=
  isDigit c || (byte 'a' ≤ c && c ≤ byte 'f') || (byte 'A' ≤ c && c ≤ byte 'F')

end Text

end Zensight
