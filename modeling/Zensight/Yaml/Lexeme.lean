import Zensight.Yaml.Comment
import Zensight.Yaml.Property
import Zensight.Yaml.Scalar

/-!
# Lexemes

A text as a sequence of lexemes. Indentation becomes lexemes of its own, which
open and close blocks. A key without a sign before it is known as a key only at
the colon behind it, and then the lexemes that announce it are put in before it;
so a lexeme is handed out only when no such key can begin with it any more, and
when there are two more behind it.
-/

namespace Zensight.Yaml

/-- The smallest parts of a text that mean something. -/
inductive Lexeme where
  | streamStart | streamEnd
  | directive (d : Reading.Directive)
  | documentStart | documentEnd
  | blockListStart | blockMappingStart | blockEnd
  | flowListStart | flowListEnd | flowMappingStart | flowMappingEnd
  | blockItem | flowItem | key | value
  | anchor (name : Text)
  | reference (name : Text)
  | tag (t : Reading.WrittenTag)
  | scalar (plain : Bool) (text : Text)
  deriving DecidableEq, Repr, Inhabited

/-- A place at which a key may begin that has no sign before it. -/
structure KeySlot where
  /-- May a key begin here still? -/
  possible : Bool := false
  /-- Must a key begin here? -/
  required : Bool := false
  /-- The number of the lexeme it begins with. -/
  number : Nat := 0
  index : Nat := 0
  line : Nat := 0
  column : Nat := 0
  deriving Repr, Inhabited

/-- A text of which some lexemes have been read. -/
structure Scanner where
  cursor : Cursor
  /-- The lexemes that have been read and not been handed out. -/
  queue : List Lexeme := []
  /-- How many have been handed out. -/
  taken : Nat := 0
  /-- May the first of the queue be handed out? -/
  ready : Bool := false
  started : Bool := false
  /-- The column of the innermost block. -/
  indent : Int := -1
  /-- The columns of the blocks around it. -/
  outer : List Int := []
  keyAllowed : Bool := true
  /-- How many brackets are open. -/
  flow : Nat := 0
  /-- The innermost place of a key for each open bracket, the innermost bracket
  first, and for the text around all brackets. -/
  keys : List KeySlot := [{}]
  /-- Which lexemes of the queue a key may begin with, each with the number of
  open brackets around it. -/
  keyLevels : List (Nat × Nat) := []
  deriving Repr

/-- Something that is done while lexemes are read. -/
abbrev Scan := StateT Scanner Option

namespace Scan

/-- Reads from the text. -/
def reading {α : Type} (r : Reading α) : Scan α := fun s =>
  (r s.cursor).map fun (a, cursor) => (a, { s with cursor })

def ensure (p : Bool) : Scan Unit := if p then pure () else failure

/-- Is a bracket open? -/
def inFlow : Scan Bool := return 0 < (← get).flow

/-- The most brackets that may be open, and the most blocks. -/
def levelLimit : Nat := 10000

/-- Appends a lexeme. -/
def push (l : Lexeme) : Scan Unit := modify fun s => { s with queue := s.queue ++ [l] }

/-- Puts a lexeme before the one of a number, at the end if that one has been
handed out. -/
def insert (number : Nat) (l : Lexeme) : Scan Unit := modify fun s =>
  if number < s.taken then { s with queue := s.queue ++ [l] }
  else
    let k := number - s.taken
    { s with queue := s.queue.take k ++ [l] ++ s.queue.drop k }

/-! ### Keys -/

/-- The longest text that a key without sign may have. -/
def keyLimit : Nat := 1024

def setKeyAllowed (p : Bool) : Scan Unit := modify fun s => { s with keyAllowed := p }

/-- May a key that began at the slot end here? A key that must be there may not
end in another line. -/
def isOpen (k : KeySlot) : Scan Bool := do
  let c := (← get).cursor
  if !k.possible then return false
  if k.line < c.line || k.index + keyLimit < c.index then
    ensure !k.required
    return false
  return true

/-- No lexeme of this number begins a key. -/
def forget (number : Nat) : Scan Unit := modify fun s =>
  { s with keyLevels := s.keyLevels.filter (·.1 != number) }

/-- Changes the innermost slot. -/
def setKey (k : KeySlot) : Scan Unit := modify fun s => { s with keys := k :: s.keys.tail }

/-- From here on no key begins at the innermost slot. -/
def closeKey : Scan Unit := do
  let k := (← get).keys.headD {}
  if k.possible then
    ensure !k.required
    setKey { k with possible := false }
    forget k.number

/-- The number of the next lexeme. -/
def nextNumber : Scan Nat := return (← get).taken + (← get).queue.length

/-- Notes that a key may begin here. It has to if something else stands in the
column of a block. -/
def openKey : Scan Unit := do
  let s ← get
  let c := s.cursor
  let required := !(← inFlow) && s.indent = c.column
  if s.keyAllowed then
    closeKey
    let number ← nextNumber
    setKey { possible := true, required, number, index := c.index, line := c.line,
             column := c.column }
    modify fun s => { s with
      keyLevels := (number, s.flow) :: s.keyLevels.filter fun (n, _) => s.taken ≤ n && n != number }

/-- The slot of the first lexeme in the queue, if a key may begin with it. -/
def firstKey? : Scan (Option KeySlot) := do
  let s ← get
  match s.keyLevels.find? (·.1 == s.taken) with
  | none => return none
  | some (_, level) => return if level ≤ s.flow then s.keys[s.flow - level]? else none

/-! ### Blocks -/

/-- Opens a block at a column if that is right of the innermost one. The lexeme
that opens it comes before the lexeme of a number. -/
def openBlock (column number : Nat) (l : Lexeme) : Scan Unit := do
  let s ← get
  if !(← inFlow) && s.indent < column then
    ensure (s.outer.length < levelLimit)
    set { s with indent := (column : Int), outer := s.indent :: s.outer }
    insert number l

/-- Closes the blocks right of a column. -/
def closeBlocks (column : Int) : List Int → Scan Unit
  | [] => return
  | indent :: outer => do
    if column < (← get).indent then
      push .blockEnd
      modify fun s => { s with indent, outer }
      closeBlocks column outer

/-- Closes the blocks right of a column, unless a bracket is open. -/
def unindent (column : Int) : Scan Unit := do
  if !(← inFlow) then closeBlocks column (← get).outer

/-! ### Single lexemes -/

/-- Passes white space and comments before a lexeme. -/
def toNext : Scan Unit := do
  let flow ← inFlow
  let size := (← get).cursor.size
  go flow (size + 2)
where
  go (flow : Bool) : Nat → Scan Unit
    | 0 => failure
    | fuel + 1 => do
      reading (.need 1)
      if (← get).cursor.column = 0 && (← get).cursor.marked then reading .skip
      let tabs := flow || !(← get).keyAllowed
      reading (.skipWhile fun c => c == ' ' || (tabs && c == '\t'))
      if (← get).cursor.look = '#' then reading .comments
      if isBreak (← get).cursor.look then
        reading (.need 2)
        reading .skipLine
        if !flow then setKeyAllowed true
        go flow fuel

/-- The end of the text. -/
def streamEnd : Scan Unit := do
  modify fun s =>
    if s.cursor.column = 0 then s
    else { s with cursor := { s.cursor with column := 0, line := s.cursor.line + 1 } }
  unindent (-1)
  closeKey
  setKeyAllowed false
  push .streamEnd

/-- A lexeme that stands outside of all blocks. -/
def outside (l : Reading Lexeme) : Scan Unit := do
  unindent (-1)
  closeKey
  setKeyAllowed false
  push (← reading l)

/-- A sign of one character. -/
def sign (l : Lexeme) : Scan Unit := do
  reading .skip
  push l

def openBracket (l : Lexeme) : Scan Unit := do
  openKey
  let number ← nextNumber
  modify fun s => { s with flow := s.flow + 1, keys := { number } :: s.keys }
  ensure ((← get).flow ≤ levelLimit)
  setKeyAllowed true
  sign l

def closeBracket (l : Lexeme) : Scan Unit := do
  closeKey
  if ← inFlow then
    forget ((← get).keys.headD {}).number
    modify fun s => { s with flow := s.flow - 1, keys := s.keys.tail }
  setKeyAllowed false
  sign l

def flowItem : Scan Unit := do
  closeKey
  setKeyAllowed true
  sign .flowItem

def blockItem : Scan Unit := do
  if !(← inFlow) then
    ensure (← get).keyAllowed
    openBlock (← get).cursor.column (← nextNumber) .blockListStart
  closeKey
  setKeyAllowed true
  sign .blockItem

/-- The sign before a key. -/
def key : Scan Unit := do
  let flow ← inFlow
  if !flow then
    ensure (← get).keyAllowed
    openBlock (← get).cursor.column (← nextNumber) .blockMappingStart
  closeKey
  setKeyAllowed !flow
  sign .key

/-- The sign before a value. If it ends a key without sign, that one is announced
now. -/
def value : Scan Unit := do
  let k := (← get).keys.headD {}
  if ← isOpen k then
    insert k.number .key
    openBlock k.column k.number .blockMappingStart
    setKey { k with possible := false }
    forget k.number
    setKeyAllowed false
  else
    setKey { k with possible := false }
    let flow ← inFlow
    if !flow then
      ensure (← get).keyAllowed
      openBlock (← get).cursor.column (← nextNumber) .blockMappingStart
    setKeyAllowed !flow
  sign .value

/-- A lexeme that a key may begin with. -/
def word (l : Reading Lexeme) : Scan Unit := do
  openKey
  setKeyAllowed false
  push (← reading l)

def blockScalar (literal : Bool) : Scan Unit := do
  closeKey
  setKeyAllowed true
  push (.scalar false (txt (← reading (.block (← get).indent literal))))

def plainScalar : Scan Unit := do
  openKey
  setKeyAllowed false
  let (s, broken) ← reading (.plain (← get).indent (← inFlow))
  if broken then setKeyAllowed true
  push (.scalar true (txt s))

/-- May a plain scalar begin like this? -/
def startsPlain (flow : Bool) (c next : Char) : Bool :=
  !(isGap c || "-?:,[]\x7b\x7d#&*!|>'\"%@\x60".contains c)
    || (c == '-' && !isBlank next)
    || (!flow && (c == '?' || c == ':') && !isGap next)

/-- The lexeme that begins with a character, unless it stands outside of all
blocks. -/
def inside (c next : Char) : Scan Unit := do
  let flow ← inFlow
  if c = '[' then openBracket .flowListStart
  else if c = '\x7b' then openBracket .flowMappingStart
  else if c = ']' then closeBracket .flowListEnd
  else if c = '\x7d' then closeBracket .flowMappingEnd
  else if c = ',' then flowItem
  else if c = '-' && isGap next then blockItem
  else if c = '?' && (flow || isGap next) then key
  else if c = ':' && (flow || isGap next) then value
  else if c = '*' then word (return .reference (← .anchorName))
  else if c = '&' then word (return .anchor (← .anchorName))
  else if c = '!' then word (return .tag (← .tag))
  else if c = '|' && !flow then blockScalar true
  else if c = '>' && !flow then blockScalar false
  else if c = '\'' then word (return .scalar false (txt (← .quoted true)))
  else if c = '"' then word (return .scalar false (txt (← .quoted false)))
  else if startsPlain flow c next then plainScalar
  else failure

/-- A mark that begins or ends a document. -/
def documentMark : Reading Lexeme := do
  let c ← .look
  .skip
  .skip
  .skip
  return if c = '-' then .documentStart else .documentEnd

/-- Reads on by one lexeme, and by those that come before it. A comment in the
line of a lexeme is passed with it, except behind the dash of an item. -/
def fetch : Scan Unit := do
  reading (.need 1)
  if !(← get).started then
    modify fun s => { s with started := true }
    push .streamStart
  else
    toNext
    unindent (← get).cursor.column
    reading (.need 4)
    let c := (← get).cursor
    if c.look = nul then streamEnd
    else if c.column = 0 && c.look = '%' then outside (return .directive (← .directive))
    else if ← reading .atDocumentMark then outside documentMark
    else
      inside c.look (c.look 1)
      if (← get).queue.getLast? != some .blockItem then reading .lineComment

/-- Reads on until the first lexeme of the queue may be handed out. Every lexeme
takes a character, except those at the end of the text. -/
def prepare : Scan Unit := do
  if !(← get).ready then
    go ((← get).cursor.size + 8)
    modify fun s => { s with ready := true }
where
  go : Nat → Scan Unit
    | 0 => failure
    | fuel + 1 => do
      let wanted ←
        if (← get).queue.length < 3 then pure true
        else match ← firstKey? with
          | none => pure false
          | some k => isOpen k
      if wanted then
        fetch
        go fuel

/-- The next lexeme, which stays in the queue. -/
def peek : Scan Lexeme := do
  prepare
  return (← get).queue.headD .streamEnd

/-- Takes the next lexeme out of the queue. -/
def drop : Scan Unit := modify fun s =>
  { s with queue := s.queue.tail, taken := s.taken + 1, ready := false }

end Scan

end Zensight.Yaml
