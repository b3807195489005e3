import Zensight.Grammar.Reader

/-!
# The recursion of the grammar

Expressions contain statements and statements expressions, so the rules of the
grammar refer to each other in a circle. A `Grammar` is the bundle of the rules
that others refer back to. Every rule is a plain definition over such a bundle,
and refers to it only after passing a token; the bundle that unfolds `n` times
therefore reads any `n` tokens.

This module also has the rules for names, which refer to nothing, and the three
kinds of lists that other rules share.
-/

namespace Zensight

/-- The rules that other rules refer back to. -/
structure Grammar where
  type : Read Node
  typeAtom : Read Node
  expression : Read Node
  ternary : Read Node
  /-- An expression of binary operators that bind at least as tightly as the
  given level. -/
  binary : Nat → Read Node
  unary : Read Node
  /-- A statement; a lone semicolon is none. -/
  statement : Read (Option Node)

namespace Rule

/-- A part that may be missing. -/
def optional (role : Role) : Option Node → List (Role × Node)
  | none => []
  | some n => [(role, n)]

/-- Several parts that play the same role. -/
def several (role : Role) (nodes : List Node) : List (Role × Node) :=
  nodes.map fun n => (role, n)

/-- Name of the placeholder for a missing identifier. -/
def missingName : Text := txt "<error>"

/-- Does the name stand for a missing one? After a dot a missing name is empty. -/
def isPlaceholder (name : Text) : Bool := name == [] || name == missingName

/-- A plain identifier. -/
def identifier : Read Node := do
  let t ← Read.current
  if t.kind = .ident then
    let _ ← Read.advance
    return .leaf (.ident t.literal) (← Read.spanSince t)
  else
    Read.fail t (txt "expected identifier, got " ++ t.describe)
    return .leaf (.ident missingName) (.empty t)

/-- A name after a dot. A keyword is a name there if it stands on the line of
the dot and starts no statement, so that an access left unfinished does not
swallow the declaration after it. A missing name is empty. -/
def memberName : Read Node := do
  let t ← Read.current
  let dot ← Read.previous
  if t.kind = .ident
      ∨ (t.kind.isKeyword ∧ ¬ t.kind.resumes ∧ t.place.line = dot.place.line) then
    let _ ← Read.advance
    return .leaf (.ident t.literal) (← Read.spanSince t)
  else
    Read.fail t (txt "expected member name, got " ++ t.describe)
    return .leaf (.ident []) (.empty t)

/-- Reports that no phrase begins with `first` and leaves a placeholder for it.
The token is passed over unless reading can resume there. -/
def placeholder (form : Form) (first : Token) (message : Text) : Read Node := do
  Read.fail first message
  if !first.kind.resumes then
    let _ ← Read.advance
  return .leaf form (← Read.spanSince first)

/-- An item behind a token of this kind, if there is one. -/
def behind (kind : Token.Kind) (item : Read Node) : Read (Option Node) := do
  if ← Read.accept kind then return some (← item) else return none

/-- One more item of a list up to a closing token, and the comma behind it. -/
def nextListed (close : Token.Kind) (item : Read Node) (items : List Node) :
    Read (ForInStep (List Node)) := do
  if (← Read.check close) || (← Read.check .eof) then return .done items
  else
    let x ← item
    if ← Read.accept .comma then return .yield (items ++ [x])
    else return .done (items ++ [x])

/-- Items separated by commas up to a closing token, which is not passed. A comma
may follow the last one. -/
def commaList (close : Token.Kind) (item : Read Node) : Read (List Node) :=
  Read.iterate (nextListed close item) []

/-- One more item behind a separator. -/
def nextSeparated (separator : Token.Kind) (item : Read Node) (items : List Node) :
    Read (ForInStep (List Node)) := do
  if ← Read.accept separator then
    let x ← item
    return .yield (items ++ [x])
  else return .done items

/-- Items after a first one, each behind a separator. -/
def separated (separator : Token.Kind) (first : Node) (item : Read Node) : Read (List Node) :=
  Read.iterate (nextSeparated separator item) [first]

/-- An item of a sequence. If it passes nothing, the token it stopped at is
passed over. -/
def advancing {α : Type} (item : Read α) : Read α := do
  let left := (← get).ahead.length
  let x ← item
  if (← get).ahead.length = left then
    let _ ← Read.advance
  return x

/-- Items up to a closing brace or the end of the script; one that is nothing is
left out. -/
def untilBrace (item : Read (Option Node)) : Read (List Node) :=
  Read.iterate (fun items => do
    if (← Read.check .rbrace) || (← Read.check .eof) then return .done items
    else
      let x ← advancing item
      return .yield (items ++ x.toList)) []

end Rule

end Zensight
