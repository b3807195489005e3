import Zensight.Yaml.Cursor

/-!
# Scalars

Scalars as they are written: between quotes, plain, or as blocks of indented
lines. Except in blocks whose lines are kept, line breaks are folded: a single
one becomes a blank, and of several all but the first are kept.
-/

namespace Zensight.Yaml

/-- White space inside a scalar. -/
structure Gap where
  /-- The blanks, if there is no line break. -/
  blanks : String := ""
  /-- The first line break. -/
  first : String := ""
  /-- The line breaks behind the first. -/
  more : String := ""
  /-- Is the line broken? -/
  broken : Bool := false
  deriving Repr

/-- What the white space stands for. -/
def Gap.text (g : Gap) : String :=
  if !g.broken then g.blanks
  else if g.first = "\n" then if g.more = "" then " " else g.more
  else g.first ++ g.more

namespace Reading

/-- Does a mark that begins or ends a document stand here? -/
def atDocumentMark : Reading Bool := do
  let c ← get
  let mark (m : Char) : Bool := c.look = m && c.look 1 = m && c.look 2 = m
  return c.column = 0 && (mark '-' || mark '.') && isGap (c.look 3)

/-- White space inside a scalar. In a line after the first there is no tab left
of the column `margin`. -/
def gap (margin : Nat) (broken : Bool) : Reading Gap := do
  need 1
  repeating { broken } fun (g : Gap) => do
    let c ← look
    if isBlank c then
      ensure !(g.broken && c = '\t' && (← get).column < margin)
      skip
      need 1
      return .inl (if g.broken then g else { g with blanks := g.blanks.push c })
    else if isBreak c then
      need 2
      let b ← readLine
      need 1
      return .inl (if g.broken then { g with more := g.more ++ b }
        else { first := b, broken := true })
    else return .inr g

/-! ### Quoted scalars -/

/-- The characters that have an escape of their own. -/
def escapes : List (Char × Nat) :=
  [('0', 0), ('a', 7), ('b', 8), ('t', 9), ('\t', 9), ('n', 10), ('v', 11), ('f', 12), ('r', 13),
    ('e', 27), (' ', 32), ('"', 34), ('\'', 39), ('\\', 92), ('N', 0x85), ('_', 0xa0),
    ('L', 0x2028), ('P', 0x2029)]

/-- The number of hexadecimal digits in an escape. -/
def escapeDigits? (c : Char) : Option Nat :=
  if c = 'x' then some 2 else if c = 'u' then some 4 else if c = 'U' then some 8 else none

/-- The number that some hexadecimal digits write. -/
def hexNumber : Nat → Nat → Reading Nat
  | 0, n => return n
  | digits + 1, n => do
    match hexValue? (← look) with
    | some d =>
      skip
      hexNumber digits (n * 16 + d)
    | none => failure

/-- The character that an escape stands for; its backslash stands here. -/
def escaped : Reading Char := do
  let c ← look 1
  skip
  skip
  match escapeDigits? c with
  | some digits =>
    need digits
    let n ← hexNumber digits 0
    ensure !((0xd800 ≤ n && n ≤ 0xdfff) || 0x10ffff < n)
    return Char.ofNat n
  | none =>
    match escapes.find? (·.1 == c) with
    | some (_, n) => return Char.ofNat n
    | none => failure

/-- What stands between two pieces of white space in a quoted scalar, and if it
ends with an escaped line break. -/
def quotedRun (single : Bool) (start : String) : Reading (String × Bool) :=
  repeating start fun s => do
    let c ← look
    if isGap c then return .inr (s, false)
    else if single && c = '\'' then
      if (← look 1) = '\'' then
        skip
        skip
        need 2
        return .inl (s.push '\'')
      else return .inr (s, false)
    else if !single && c = '"' then return .inr (s, false)
    else if !single && c = '\\' then
      if isBreak (← look 1) then
        need 3
        skip
        skipLine
        return .inr (s, true)
      let e ← escaped
      need 2
      return .inl (s.push e)
    else
      skip
      need 2
      return .inl (s.push c)

/-- A scalar between quotes. -/
def quoted (single : Bool) : Reading String := do
  skip
  let quote := if single then '\'' else '"'
  let s ← repeating "" fun s => do
    need 4
    ensure !(← atDocumentMark)
    ensure ((← look) != nul)
    let (s, broken) ← quotedRun single s
    need 1
    if (← look) = quote then return .inr s
    return .inl (s ++ (← gap 0 broken).text)
  skip
  return s

/-! ### Plain scalars -/

/-- Signs that end a plain scalar between brackets. -/
def isFlowSign (c : Char) : Bool := ",?[]\x7b\x7d".contains c

/-- What stands between two pieces of white space in a plain scalar. The white
space before it counts only if there is something. -/
def plainRun (inFlow : Bool) (start : String) (before : Gap) : Reading (String × Gap) :=
  repeating (start, before) fun (s, g) => do
    let c ← look
    if isGap c || (c = ':' && isGap (← look 1)) || (inFlow && isFlowSign c) then
      return .inr (s, g)
    skip
    need 2
    return .inl ((s ++ g.text).push c, {})

/-- A plain scalar, and if it is followed by a line break. Its lines are indented
deeper than `indent`. -/
def plain (indent : Int) (inFlow : Bool) : Reading (String × Bool) :=
  let margin := (indent + 1).toNat
  repeating ("", ({} : Gap)) fun (s, g) => do
    need 4
    if (← atDocumentMark) || (← look) = '#' then return .inr (s, g.broken)
    let (s, g) ← plainRun inFlow s g
    let c ← look
    if !(isBlank c || isBreak c) then return .inr (s, g.broken)
    let g ← gap margin false
    if !inFlow && (← get).column < margin then return .inr (s, g.broken)
    return .inl (s, g)

/-! ### Blocks -/

/-- What happens to the line breaks at the end of a block. -/
inductive Chomping where
  | clip | strip | keep
  deriving DecidableEq, Repr

def chomping? (c : Char) : Option Chomping :=
  if c = '+' then some .keep else if c = '-' then some .strip else none

/-- The sign that says what happens to the line breaks at the end. -/
def chompingSign : Reading Chomping := do
  match chomping? (← look) with
  | some chomping =>
    skip
    return chomping
  | none => return .clip

/-- The digit that gives the indentation, zero if there is none. -/
def indentSign : Reading Nat := do
  let c ← look
  if !isDigit c then return 0
  ensure (c != '0')
  skip
  return c.toNat - '0'.toNat

/-- The signs in the first line of a block, in either order. -/
def blockSigns : Reading (Chomping × Nat) := do
  need 1
  if isDigit (← look) then
    let indent ← indentSign
    need 1
    return (← chompingSign, indent)
  let chomping ← chompingSign
  need 1
  return (chomping, ← indentSign)

/-- Passes blanks, but no further than the indentation. -/
def skipIndent (indent : Nat) : Reading Unit := do
  need 1
  repeating () fun _ => do
    let c ← get
    if (indent = 0 || c.column < indent) && c.look = ' ' then
      skip
      need 1
      return .inl ()
    else return .inr ()

/-- The line breaks before the next line of a block, and its indentation. If that
is not known yet, it is the largest so far and deeper than that of what the
block stands in. -/
def blockBreaks (outer : Int) (indent : Nat) : Reading (Nat × String) :=
  repeating (0, "") fun (largest, breaks) => do
    skipIndent indent
    let c ← get
    let largest := max largest c.column
    ensure !((indent = 0 || c.column < indent) && c.look = '\t')
    if isBreak c.look then
      need 2
      return .inl (largest, breaks ++ (← readLine))
    return .inr (if indent = 0 then max (max largest (outer + 1).toNat) 1 else indent, breaks)

/-- A block that has been read so far. -/
structure BlockText where
  text : String := ""
  /-- The line break behind the last line. -/
  first : String := ""
  /-- The line breaks behind that one. -/
  more : String
  /-- Does the last line begin with a blank? -/
  blank : Bool := false

/-- The block with a further line. -/
def BlockText.add (b : BlockText) (literal : Bool) (line first more : String) : BlockText :=
  let blank := isBlank (line.toList.headD nul)
  let joint :=
    if !literal && !b.blank && !blank && b.first = "\n" then if b.more = "" then " " else ""
    else b.first
  { text := b.text ++ joint ++ b.more ++ line, first, more, blank }

/-- A scalar that is a block of indented lines. If it is literal, its line breaks
are kept. -/
def block (outer : Int) (literal : Bool) : Reading String := do
  skip
  let (chomping, sign) ← blockSigns
  skipWhile isBlank
  if (← look) = '#' then skipWhile (!endsLine ·)
  ensure (endsLine (← look))
  if isBreak (← look) then
    need 2
    skipLine
  let indent := if sign = 0 then 0 else (max outer 0).toNat + sign
  let (indent, breaks) ← blockBreaks outer indent
  need 1
  let b ← repeating ({ more := breaks } : BlockText) fun b => do
    let c ← get
    if c.column = indent && c.look != nul then
      let line ← readWhile (!endsLine ·)
      need 2
      let first ← readLine
      let (_, more) ← blockBreaks outer indent
      return .inl (b.add literal line first more)
    else return .inr b
  return match chomping with
    | .strip => b.text
    | .clip => b.text ++ b.first
    | .keep => b.text ++ b.first ++ b.more

end Reading

end Zensight.Yaml
