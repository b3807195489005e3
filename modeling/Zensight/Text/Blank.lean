import Zensight.Text.Quoted

/-!
# Blank text

The code points of a text, and whether all of them are white space.
-/

namespace Zensight.Text

/-- The code points of a text, unless it is no valid UTF-8. Each takes at least
one byte, so the length of the text is fuel enough. -/
def codePointsFrom : Nat → Text → Option (List Nat)
  | 0, s => if s = [] then some [] else none
  | fuel + 1, s =>
    if s = [] then some []
    else do
      let (c, n) ← codePoint? s
      return c :: (← codePointsFrom fuel (s.drop n))

/-- The code points of a text, unless it is no valid UTF-8. -/
def codePoints? (s : Text) : Option (List Nat) := codePointsFrom s.length s

/-- Is the code point white space? -/
def isWhite (c : Nat) : Bool :=
  (9 ≤ c && c ≤ 13) || c = 0x20 || c = 0x85 || c = 0xa0 || c = 0x1680
    || (0x2000 ≤ c && c ≤ 0x200a) || c = 0x2028 || c = 0x2029 || c = 0x202f || c = 0x205f
    || c = 0x3000

/-- Does the text hold nothing but white space? -/
def isBlank (s : Text) : Bool :=
  match s.codePoints? with
  | some cs => cs.all isWhite
  | none => false

end Zensight.Text
