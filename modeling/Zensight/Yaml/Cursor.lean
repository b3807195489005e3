import Zensight.Text.Quoted

/-!
# Characters of a YAML text

A text is read as characters from its start on. Its bytes are UTF-8, or UTF-16
if it starts with the mark of that encoding. They are decoded block by block,
and a block only when characters of it are asked for: what is wrong in a block
that nobody asks for does no harm. Behind the last character there are NULs
without end.
-/

namespace Zensight.Yaml

/-! ### Decoding -/

/-- How characters are written as bytes. -/
inductive Encoding where
  | utf8
  | utf16 (bigEndian : Bool)
  deriving DecidableEq, Repr

/-- What is found at the start of some bytes. -/
inductive Decoded where
  | character (c : Char) (width : Nat)
  /-- The bytes end within a character. -/
  | unfinished
  | wrong
  deriving DecidableEq, Repr

/-- The encoding that the start of a text announces, and the length of the
announcement. -/
def Encoding.announced : Text → Encoding × Nat
  | a :: b :: rest =>
    if a = 0xff && b = 0xfe then (.utf16 false, 2)
    else if a = 0xfe && b = 0xff then (.utf16 true, 2)
    else if a = 0xef && b = 0xbb && rest.head? = some 0xbf then (.utf8, 3)
    else (.utf8, 0)
  | _ => (.utf8, 0)

/-- The length of a character of which the first byte is known. -/
def utf8Width? (c : UInt8) : Option Nat :=
  if c < 0x80 then some 1
  else if 0xc0 ≤ c && c < 0xe0 then some 2
  else if 0xe0 ≤ c && c < 0xf0 then some 3
  else if 0xf0 ≤ c && c < 0xf8 then some 4
  else none

/-- Two bytes as a number. -/
def pairValue (bigEndian : Bool) (a b : UInt8) : Nat :=
  if bigEndian then a.toNat * 256 + b.toNat else b.toNat * 256 + a.toNat

def isHighSurrogate (n : Nat) : Bool := 0xd800 ≤ n && n ≤ 0xdbff

def isLowSurrogate (n : Nat) : Bool := 0xdc00 ≤ n && n ≤ 0xdfff

/-- The character at the start of some bytes. -/
def Encoding.decode : Encoding → Text → Decoded
  | _, [] => .unfinished
  | .utf8, a :: s =>
    match utf8Width? a with
    | none => .wrong
    | some width =>
      if s.length + 1 < width then .unfinished
      else match Text.codePoint? (a :: s) with
        | some (c, n) => .character (Char.ofNat c) n
        | none => .wrong
  | .utf16 _, [_] => .unfinished
  | .utf16 bigEndian, a :: b :: s =>
    let n := pairValue bigEndian a b
    if isLowSurrogate n then .wrong
    else if isHighSurrogate n then
      match s with
      | c :: d :: _ =>
        let m := pairValue bigEndian c d
        if isLowSurrogate m then
          .character (Char.ofNat (0x10000 + (n - 0xd800) * 0x400 + (m - 0xdc00))) 4
        else .wrong
      | _ => .unfinished
    else .character (Char.ofNat n) 2

/-- May the character stand in a text? -/
def isAllowed (c : Char) : Bool :=
  let n := c.toNat
  n = 9 || n = 10 || n = 13 || (0x20 ≤ n && n ≤ 0x7e) || n = 0x85 || (0xa0 ≤ n && n ≤ 0xd7ff)
    || (0xe000 ≤ n && n ≤ 0xfffd) || 0x10000 ≤ n

/-- All characters of a block and the bytes of an unfinished one at its end. Each
takes at least one byte, so the length of the block is fuel enough. -/
def Encoding.decodeAll (e : Encoding) : Nat → Text → Option (List Char × Text)
  | 0, s => some ([], s)
  | fuel + 1, s =>
    match e.decode s with
    | .unfinished => some ([], s)
    | .wrong => none
    | .character c width =>
      if isAllowed c then
        (e.decodeAll fuel (s.drop width)).map fun (cs, left) => (c :: cs, left)
      else none

/-- The number of bytes in a block. -/
def blockSize : Nat := 512

/-- The characters of a block, unless something in it is wrong. -/
abbrev Block := Option (List Char)

/-- The blocks of a text. `carried` are bytes of an unfinished character from the
block before. There are no more blocks than bytes. -/
def Encoding.blocks (e : Encoding) : Nat → (room : Nat) → (carried rest : Text) → List Block
  | 0, _, _, _ => []
  | fuel + 1, room, carried, rest =>
    if rest = [] then if carried = [] then [] else [none]
    else
      let block := carried ++ rest.take room
      match e.decodeAll block.length block with
      | none => [none]
      | some (cs, left) =>
        some cs :: e.blocks fuel (blockSize - left.length) left (rest.drop room)

/-- The blocks of a text without the mark of its encoding. -/
def blocksOf (s : Text) : List Block :=
  let (e, announced) := Encoding.announced s
  e.blocks (s.length + 1) (blockSize - announced) [] (s.drop announced)

/-! ### Kinds of characters -/

/-- The end of the text. -/
def nul : Char := Char.ofNat 0

/-- The mark that may stand at the start of a text. -/
def byteOrderMark : Char := Char.ofNat 0xfeff

def nextLine : Char := Char.ofNat 0x85

def lineSeparator : Char := Char.ofNat 0x2028

def paragraphSeparator : Char := Char.ofNat 0x2029

def isBlank (c : Char) : Bool := c == ' ' || c == '\t'

def isBreak (c : Char) : Bool :=
  c == '\r' || c == '\n' || c == nextLine || c == lineSeparator || c == paragraphSeparator

/-- A line break or the end. -/
def endsLine (c : Char) : Bool := isBreak c || c == nul

/-- A blank, a line break or the end. -/
def isGap (c : Char) : Bool := isBlank c || endsLine c

def isDigit (c : Char) : Bool := '0' ≤ c && c ≤ '9'

/-- May the character stand in the name of an anchor or a tag handle? -/
def isWordChar (c : Char) : Bool :=
  isDigit c || ('A' ≤ c && c ≤ 'Z') || ('a' ≤ c && c ≤ 'z') || c == '_' || c == '-'

/-- The value of a hexadecimal digit. -/
def hexValue? (c : Char) : Option Nat :=
  if isDigit c then some (c.toNat - '0'.toNat)
  else if 'a' ≤ c && c ≤ 'f' then some (c.toNat - 'a'.toNat + 10)
  else if 'A' ≤ c && c ≤ 'F' then some (c.toNat - 'A'.toNat + 10)
  else none

/-! ### The cursor -/

/-- A place in a text. `held` are the characters from there on that have been
decoded, `later` the blocks that have not. -/
structure Cursor where
  held : List Char := []
  later : List Block
  /-- A bound on the number of characters of the whole text. -/
  size : Nat
  /-- Did `held` begin with a byte order mark when it was last added to? -/
  marked : Bool := false
  /-- How many characters have been passed. -/
  index : Nat := 0
  line : Nat := 0
  column : Nat := 0
  /-- Has nothing but blanks been passed since the last line break? False in the
  first line. -/
  fresh : Bool := false
  deriving Repr

namespace Cursor

/-- The start of a text. Every character takes at least one byte. -/
def ofText (s : Text) : Cursor := { later := blocksOf s, size := s.length }

/-- Decodes blocks until there are `n` characters, or one NUL at the end. -/
def pull (n : Nat) (held : List Char) : List Block → Option (List Char × List Block)
  | [] => some (held ++ [nul], [])
  | none :: _ => none
  | some cs :: later =>
    if n ≤ held.length + cs.length then some (held ++ cs, later) else pull n (held ++ cs) later

/-- Makes `n` characters ready to be looked at. -/
def need (n : Nat) (c : Cursor) : Option Cursor :=
  if n ≤ c.held.length then some c
  else (pull n c.held c.later).map fun (held, later) =>
    { c with held, later, marked := held.head? == some byteOrderMark }

/-- The character `k` places on. -/
def look (c : Cursor) (k : Nat := 0) : Char := (c.held.drop k).headD nul

/-- Passes one character, which stays in the line. -/
def skip (c : Cursor) : Cursor :=
  { c with held := c.held.tail, index := c.index + 1, column := c.column + 1,
           fresh := c.fresh && isBlank c.look }

/-- Passes a line break; two characters may make up one. -/
def skipLine (c : Cursor) : Cursor :=
  let width :=
    if c.look = '\r' && c.look 1 = '\n' then 2 else if isBreak c.look then 1 else 0
  if width = 0 then c
  else { c with held := c.held.drop width, index := c.index + width, line := c.line + 1,
                column := 0, fresh := true }

/-- What a line break stands for in a scalar. -/
def breakText (c : Cursor) : String :=
  if c.look = lineSeparator || c.look = paragraphSeparator then String.singleton c.look
  else if isBreak c.look then "\n"
  else ""

end Cursor

/-! ### Reading -/

/-- Something that is read from a text, with the place behind it. It fails where
the text is no YAML. -/
abbrev Reading := StateT Cursor Option

namespace Reading

def need (n : Nat) : Reading Unit := fun c => (c.need n).map fun c => ((), c)

def look (k : Nat := 0) : Reading Char := return (← get).look k

def skip : Reading Unit := modify Cursor.skip

def skipLine : Reading Unit := modify Cursor.skipLine

/-- Passes one character and tells which. -/
def read : Reading Char := do
  let c ← look
  skip
  return c

/-- Passes a line break and tells what it stands for in a scalar. -/
def readLine : Reading String := do
  let s := (← get).breakText
  skipLine
  return s

/-- Goes on unless the text is wrong. -/
def ensure (p : Bool) : Reading Unit := if p then pure () else failure

/-- Repeats a step until it has a result, at most as often as the fuel says. -/
def iterate {α β : Type} (step : α → Reading (α ⊕ β)) : Nat → α → Reading β
  | 0, _ => failure
  | fuel + 1, a => do
    match ← step a with
    | .inl a => iterate step fuel a
    | .inr b => return b

/-- Repeats a step until it has a result. Each step before the last passes a
character, so the number of characters is fuel enough. -/
def repeating {α β : Type} (start : α) (step : α → Reading (α ⊕ β)) : Reading β := do
  iterate step ((← get).size + 2) start

/-- The characters that satisfy `p`, from here on. -/
def readWhile (p : Char → Bool) : Reading String := do
  need 1
  repeating "" fun s => do
    if p (← look) then
      let c ← read
      need 1
      return .inl (s.push c)
    else return .inr s

/-- Passes the characters that satisfy `p`. -/
def skipWhile (p : Char → Bool) : Reading Unit := do
  need 1
  repeating () fun _ => do
    if p (← look) then
      skip
      need 1
      return .inl ()
    else return .inr ()

end Reading

end Zensight.Yaml
