import Zensight.Number.Binary64
import Zensight.Text

/-!
# Numbers in YAML

How a plain scalar is read as a number. Besides decimal integers there are
hexadecimal, octal and binary ones. A number with a point or an exponent is
rounded to 53 bits.
-/

namespace Zensight.Yaml

/-- A number rounded to 53 bits, or one beyond all numbers. -/
inductive Rounded where
  | finite (negative : Bool) (size : Binary64)
  | infinite (negative : Bool)
  | notNumber
  deriving DecidableEq, Repr

/-- A number. -/
inductive Number where
  | integer (i : Int)
  | rounded (r : Rounded)
  deriving DecidableEq, Repr

/-! ### Integers -/

/-- The value of a digit or letter as a digit. -/
def digitValue? (c : UInt8) : Option Nat :=
  if Text.isDigit c then some (c.toNat - '0'.toNat)
  else if Text.isLower c then some (c.toNat - 'a'.toNat + 10)
  else if Text.isUpper c then some (c.toNat - 'A'.toNat + 10)
  else none

/-- The number that digits write in a base. -/
def ofDigits? (base : Nat) (s : Text) : Option Nat :=
  s.foldlM (fun n c => do
    let d ← digitValue? c
    if d < base then some (n * base + d) else none) 0

/-- A number without sign; its first characters choose the base. A leading zero
alone means octal. -/
def natural? (s : Text) : Option Nat :=
  match s with
  | [] => none
  | c :: rest =>
    if c ≠ byte '0' then ofDigits? 10 s
    else match rest with
      | b :: d :: more =>
        if b = byte 'b' || b = byte 'B' then ofDigits? 2 (d :: more)
        else if b = byte 'o' || b = byte 'O' then ofDigits? 8 (d :: more)
        else if b = byte 'x' || b = byte 'X' then ofDigits? 16 (d :: more)
        else ofDigits? 8 rest
      | _ => ofDigits? 8 rest

/-- Takes a sign off. -/
def signed (s : Text) : Bool × Text :=
  match s with
  | [] => (false, [])
  | c :: rest =>
    if c = byte '-' then (true, rest) else if c = byte '+' then (false, rest) else (false, s)

/-- The smallest integer there is room for. -/
def least : Int := -9223372036854775808

/-- The largest integer there is room for. -/
def greatest : Int := 9223372036854775807

/-- The largest integer there is room for without a sign. -/
def greatestUnsigned : Int := 18446744073709551615

/-- Is there room for the integer? -/
def fits (i : Int) : Bool := least ≤ i && i ≤ greatest

/-- The integer of this size and sign, if there is room for it. -/
def withSign? (negative : Bool) (n : Nat) : Option Int :=
  let i : Int := if negative then -n else n
  if fits i then some i else none

/-- An integer with a sign before what `read` takes for its size. Without a sign
it may be twice as large. -/
def signedInteger? (read : Text → Option Nat) (s : Text) : Option Int := do
  let (negative, size) := signed s
  let n ← read size
  if size = s && greatest < n && n ≤ greatestUnsigned then some (n : Int)
  else withSign? negative n

/-- An integer whose sign comes first. -/
def integer? (s : Text) : Option Int := signedInteger? natural? s

/-- The digits in a base, with a sign before them. -/
def inBase? (base : Nat) (s : Text) : Option Int :=
  signedInteger? (fun size => if size = [] then none else ofDigits? base size) s

/-- An integer whose sign comes behind the letter that chooses the base. -/
def marked? (s : Text) : Option Int :=
  if s.startsWith (txt "0b") then inBase? 2 (s.drop 2)
  else if s.startsWith (txt "0o") then inBase? 8 (s.drop 2)
  else none

/-! ### Fractions -/

/-- The exponent behind the letter `e`, if the text is one; an empty text is the
exponent zero. -/
def exponent? (s : Text) : Option Int :=
  match s with
  | [] => some 0
  | c :: rest =>
    if c ≠ byte 'e' && c ≠ byte 'E' then none
    else do
      let (negative, digits) := signed rest
      if digits.isEmpty then none
      let n ← ofDigits? 10 digits
      return if negative then -n else n

/-- A number with a point or an exponent, if it is not too large. -/
def rounded? (s : Text) : Option Rounded := do
  let (negative, size) := signed s
  let whole := size.takeWhile Text.isDigit
  let rest := size.dropWhile Text.isDigit
  let pointed := rest.head? == some (byte '.')
  let fraction := if pointed then rest.tail.takeWhile Text.isDigit else []
  let rest := if pointed then rest.tail.dropWhile Text.isDigit else rest
  if whole.isEmpty && fraction.isEmpty then none
  let digits ← ofDigits? 10 (whole ++ fraction)
  let x ← Binary64.ofDecimal? digits ((← exponent? rest) - fraction.length)
  return .finite negative x

/-- Does every underscore stand between two digits? -/
def dividesDigits : (afterDigit : Bool) → Text → Bool
  | _, [] => true
  | afterDigit, c :: s =>
    (c != byte '_' || (afterDigit && (s.head?.map Text.isDigit).getD false))
      && dividesDigits (Text.isDigit c) s

/-- A text without its underscores. -/
def withoutUnderscores (s : Text) : Text := s.filter (· ≠ byte '_')

/-- The number that a plain scalar writes. Underscores do not count, but in a
number that begins with a point they stand only between digits. -/
def number? (s : Text) : Option Number :=
  match s with
  | [] => none
  | c :: _ =>
    let plain := withoutUnderscores s
    if c = byte '.' then
      if dividesDigits false s then (rounded? plain).map .rounded else none
    else if Text.isDigit c || c = byte '+' || c = byte '-' then
      (integer? plain).map .integer <|> (rounded? plain).map .rounded <|> (marked? plain).map .integer
    else none

/-! ### Room -/

/-- The number without its fraction, as an integer there is room for. What is
too small becomes the smallest. The next integer above the largest does so as
well; what is larger still has no such integer. -/
def Rounded.toInteger? : Rounded → Option Int
  | finite true x => some (max least (-(x.whole : Int)))
  | finite false x =>
    if fits x.whole then some x.whole
    else if x.whole = greatest + 1 then some least
    else none
  | infinite true => some least
  | infinite false | notNumber => none

/-- The number rounded to 53 bits. -/
def Rounded.ofInteger? (i : Int) : Option Rounded :=
  (Binary64.ofFraction? i.natAbs 1).map (.finite (i < 0))

end Zensight.Yaml
