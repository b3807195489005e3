import Zensight.Token

/-!
# Cutting a script into tokens

`Token.scan` reads any byte string. Between tokens stand blanks and comments;
a NUL byte ends the script wherever it occurs. A byte that starts no token
becomes a token of kind `illegal`, as does a string that its line does not
close, so scanning never fails.

Each token is cut off by its length in bytes: `blankLength` measures what
stands before it and `Lexeme.read` measures the token itself. Places are then
counted over exactly the bytes passed.
-/

namespace Zensight.Token

/-- Where the reading of blanks stands: between comments, in a comment that
ends with its line, or in one that ends with an asterisk and a slash, whose two
delimiting signs are passed byte by byte. -/
inductive BlankMode where
  | between | line | opening | block | closing
  deriving DecidableEq, Repr

def isBlank (c : UInt8) : Bool :=
  c == byte ' ' || c == byte '\t' || c == byte '\r' || c == byte '\n'

/-- The number of bytes of blanks and comments at the start of a text. -/
def blankLength : BlankMode → Text → Nat
  | _, [] => 0
  | .between, c :: s =>
    if isBlank c then blankLength .between s + 1
    else if c = byte '#' then blankLength .line s + 1
    else if c = byte '/' ∧ s.head? = some (byte '/') then blankLength .line s + 1
    else if c = byte '/' ∧ s.head? = some (byte '*') then blankLength .opening s + 1
    else 0
  | .line, c :: s =>
    if c = 0 then 0
    else if c = byte '\n' then blankLength .between s + 1
    else blankLength .line s + 1
  | .opening, _ :: s => blankLength .block s + 1
  | .block, c :: s =>
    if c = 0 then 0
    else if c = byte '*' ∧ s.head? = some (byte '/') then blankLength .closing s + 1
    else blankLength .block s + 1
  | .closing, _ :: s => blankLength .between s + 1

/-- What follows the opening quote of a string: the number of bytes up to the
closing quote and with it, or, if the line or the script ends first, the number
of bytes before that. -/
inductive StringEnd where
  | closed (length : Nat)
  | unterminated (length : Nat)
  deriving DecidableEq, Repr

/-- Counts `n` more bytes. -/
def StringEnd.add (n : Nat) : StringEnd → StringEnd
  | closed k => closed (k + n)
  | unterminated k => unterminated (k + n)

/-- Does the line or the script end at this byte? -/
def endsLine (c : UInt8) : Bool := c == 0 || c == byte '\n'

/-- Looks for the closing quote. A backslash takes the byte after it along, so
an escaped quote does not close. -/
def stringEnd (quote : UInt8) : Text → StringEnd
  | [] => .unterminated 0
  | [c] => if c = quote then .closed 1 else .unterminated (if endsLine c then 0 else 1)
  | c :: d :: s =>
    if endsLine c then .unterminated 0
    else if c = quote then .closed 1
    else if c = byte '\\' then
      if endsLine d then .unterminated 1 else (stringEnd quote s).add 2
    else (stringEnd quote (d :: s)).add 1

/-- The number of bytes satisfying `p` at the start of a text. -/
def run (p : UInt8 → Bool) (s : Text) : Nat := (s.takeWhile p).length

/-- Does the text start with one of these two bytes? -/
def startsWithEither (a b : Char) (s : Text) : Bool :=
  s.head? == some (byte a) || s.head? == some (byte b)

/-- Length of a dot with digits behind it, or 0. A dot without digits is no
part of a numeral, so `1..5` is a range. -/
def fractionLength (s : Text) : Nat :=
  if s.head? = some (byte '.') ∧ 0 < run Text.isDigit s.tail then
    1 + run Text.isDigit s.tail
  else 0

/-- Length of an exponent, or 0. A sign alone is enough to make one. -/
def exponentLength (s : Text) : Nat :=
  if startsWithEither 'e' 'E' s then
    if startsWithEither '+' '-' s.tail then 2 + run Text.isDigit (s.drop 2)
    else if 0 < run Text.isDigit s.tail then 1 + run Text.isDigit s.tail
    else 0
  else 0

/-- The kind and the length of the numeral at the start of a text. -/
def numeral (s : Text) : Kind × Nat :=
  if s.head? = some (byte '0') ∧ startsWithEither 'x' 'X' s.tail then
    let n := 2 + run Text.isHexDigit (s.drop 2)
    if startsWithEither 'l' 'L' (s.drop n) then (.longLit, n + 1) else (.intLit, n)
  else
    let whole := run Text.isDigit s
    let fraction := fractionLength (s.drop whole)
    let exponent := exponentLength (s.drop (whole + fraction))
    let n := whole + fraction + exponent
    let kind := if fraction + exponent = 0 then Kind.intLit else .doubleLit
    let rest := s.drop n
    if startsWithEither 'l' 'L' rest ∧ kind = .intLit then (.longLit, n + 1)
    else if startsWithEither 'f' 'F' rest then (.floatLit, n + 1)
    else if startsWithEither 'd' 'D' rest then (.doubleLit, n + 1)
    else (kind, n)

/-- A token before it has a place, with the number of bytes it takes up. -/
structure Lexeme where
  kind : Kind
  literal : Text
  length : Nat
  deriving DecidableEq, Repr

namespace Lexeme

/-- The lexeme that is the first `n` bytes of `s`. -/
def cut (kind : Kind) (n : Nat) (s : Text) : Lexeme := ⟨kind, s.take n, n⟩

/-- The string literal whose opening quote is the first byte of `s`. -/
def ofString (quote : UInt8) (s : Text) : Lexeme :=
  match stringEnd quote s.tail with
  | .closed n => cut .stringLit (n + 1) s
  | .unterminated n => ⟨.illegal, txt "unterminated string", n + 1⟩

/-- The operator or delimiter at the start of `s`, the longer one if two fit. A
byte that starts none is illegal and stands for the code point of its value. -/
def ofSigns (c : UInt8) (s : Text) : Lexeme :=
  match s.tail.head?.bind (fun d => Kind.ofSign? [c, d]) with
  | some k => cut k 2 s
  | none =>
    match Kind.ofSign? [c] with
    | some k => cut k 1 s
    | none => ⟨.illegal, Text.ofChar (Char.ofNat c.toNat), 1⟩

/-- The lexeme at the start of `s`, whose first byte is `c`. -/
def read (c : UInt8) (s : Text) : Lexeme :=
  if c = byte '"' ∨ c = byte '\'' then ofString c s
  else if Text.isLetter c then
    let n := run (fun b => Text.isLetter b || Text.isDigit b) s
    cut (Kind.ofWord (s.take n)) n s
  else if Text.isDigit c then
    let (kind, n) := numeral s
    cut kind n s
  else ofSigns c s

end Lexeme

/-- The tokens of `s`, which begins at place `p`. One unit of fuel is spent on
each token. -/
def scanFrom : Nat → Place → Text → List Token
  | 0, p, _ => [⟨.eof, [], p⟩]
  | fuel + 1, p, s =>
    let blank := blankLength .between s
    let p := p.after (s.take blank)
    match s.drop blank with
    | [] => [⟨.eof, [], p⟩]
    | c :: s =>
      if c = 0 then [⟨.eof, [], p⟩]
      else
        let x := Lexeme.read c (c :: s)
        ⟨x.kind, x.literal, p⟩
          :: scanFrom fuel (p.after ((c :: s).take x.length)) ((c :: s).drop x.length)

/-- The tokens of a script, the last of them the only one of kind `eof`. Each
token before it takes at least one byte, so the length of the script is fuel
enough. -/
def scan (s : Text) : List Token := scanFrom (s.length + 1) .start s

end Zensight.Token
