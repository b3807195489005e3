import Zensight.Yaml.Cursor

/-!
# Directives, anchors and tags

What a document says about itself and about its nodes: directives before it, and
before a node the name by which others refer to it and the tag that tells its
kind.
-/

namespace Zensight.Yaml.Reading

/-- The name of an anchor, or of an anchor referred to; its sign stands here. -/
def anchorName : Reading Text := do
  skip
  let name ← readWhile isWordChar
  let c ← look
  ensure (name != "" && (isGap c || "?:,]\x7d%@\x60".contains c))
  return txt name

/-! ### Tags -/

/-- A tag as it is written. Its full text is that of the handle and the suffix; a
tag without handle is complete. -/
structure WrittenTag where
  handle : Text := []
  suffix : Text
  deriving DecidableEq, Repr

/-- May the character stand in a tag? -/
def isTagChar (c : Char) : Bool := isWordChar c || ";/?:@&=+$,.!~*'()[]%".contains c

/-- The bytes of a character that is written by percent signs. -/
def percentBytes : (missing : Nat) → Reading Text
  | 0 => return []
  | missing + 1 => do
    need 3
    match hexValue? (← look 1), hexValue? (← look 2) with
    | some a, some b =>
      ensure ((← look) = '%')
      let octet := UInt8.ofNat (a * 16 + b)
      ensure (Text.isContinuation octet)
      skip
      skip
      skip
      return octet :: (← percentBytes missing)
    | _, _ => failure

/-- A character that is written by percent signs. -/
def percentChar : Reading Text := do
  need 3
  match hexValue? (← look 1), hexValue? (← look 2) with
  | some a, some b =>
    let octet := UInt8.ofNat (a * 16 + b)
    match utf8Width? octet with
    | none => failure
    | some width =>
      skip
      skip
      skip
      return octet :: (← percentBytes (width - 1))
  | _, _ => failure

/-- The characters of a tag behind `start`; not none of both. -/
def tagText (start : Text) : Reading Text := do
  need 1
  let s ← repeating start fun s => do
    let c ← look
    if !isTagChar c then return .inr s
    let t ← if c = '%' then percentChar else do skip; pure (Text.ofChar c)
    need 1
    return .inl (s ++ t)
  ensure (s != [])
  return s

/-- A tag handle: a `!`, with a word and another one behind it if there is one. -/
def tagHandle : Reading Text := do
  need 1
  ensure ((← look) = '!')
  skip
  let word ← readWhile isWordChar
  if (← look) = '!' then
    skip
    return txt ("!" ++ word ++ "!")
  return txt ("!" ++ word)

/-- Is the text a handle that ends with a `!` of its own? -/
def isClosedHandle (s : Text) : Bool := 1 < s.length && s.getLast? = some (byte '!')

/-- A tag before a node; its first character stands here. -/
def tag : Reading WrittenTag := do
  need 2
  let t ←
    if (← look 1) = '<' then do
      skip
      skip
      let suffix ← tagText []
      ensure ((← look) = '>')
      skip
      pure { suffix }
    else do
      let handle ← tagHandle
      if isClosedHandle handle then pure { handle, suffix := ← tagText [] }
      else
        let suffix := (← tagText handle).tail
        pure (if suffix = [] then { suffix := handle } else { handle := txt "!", suffix })
  need 1
  ensure (isGap (← look))
  return t

/-! ### Directives -/

/-- A directive. -/
inductive Directive where
  | version (major minor : Nat)
  /-- In tags, the handle stands for the text `base`. -/
  | tag (handle base : Text)
  deriving DecidableEq, Repr

/-- A number of one or two digits. -/
def versionNumber : Reading Nat := do
  let digits ← readWhile isDigit
  ensure (1 ≤ digits.length && digits.length ≤ 2)
  return digits.toList.foldl (fun n c => n * 10 + (c.toNat - '0'.toNat)) 0

/-- What a directive of some name says. -/
def directiveOf (name : String) : Reading Directive := do
  skipWhile isBlank
  if name = "YAML" then
    let major ← versionNumber
    ensure ((← look) = '.')
    skip
    return .version major (← versionNumber)
  else if name = "TAG" then
    let handle ← tagHandle
    ensure (handle = txt "!" || isClosedHandle handle)
    need 1
    ensure (isBlank (← look))
    skipWhile isBlank
    let base ← tagText []
    need 1
    ensure (isGap (← look))
    return .tag handle base
  else failure

/-- A directive with its line; its sign stands here. -/
def directive : Reading Directive := do
  skip
  let name ← readWhile isWordChar
  ensure (name != "" && isGap (← look))
  let d ← directiveOf name
  skipWhile isBlank
  if (← look) = '#' then skipWhile (!endsLine ·)
  ensure (endsLine (← look))
  if isBreak (← look) then
    need 2
    skipLine
  return d

end Zensight.Yaml.Reading
