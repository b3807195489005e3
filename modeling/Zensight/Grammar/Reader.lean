import Zensight.Diagnostic
import Zensight.Token.Scan
import Zensight.Tree.Node

/-!
# Reading tokens

A `Reader` stands between the tokens of a script: those passed and those still
ahead, the last of which ends the script. A token that is missing is no
failure: it is reported, and the reading goes on where it stands.

What a step of reading does is bounded in advance by the number of tokens, and
a step that exceeds its bound has no result. That the bounds hold whatever the
script is a theorem and not a check.
-/

namespace Zensight

/-- The state of reading a script. -/
structure Reader where
  /-- The tokens passed, the last one first. -/
  passed : List Token := []
  /-- The tokens ahead, up to the one that ends the script. -/
  ahead : List Token
  /-- The token that ends the script. It stands for all that is missing behind
  it. -/
  final : Token
  /-- What had to be reported so far. -/
  report : Report := {}
  deriving Repr, Inhabited

namespace Reader

/-- A reader at the start of a script. -/
def ofText (s : Text) : Reader :=
  let tokens := Token.scan s
  { ahead := tokens, final := tokens.getLast?.getD ⟨.eof, [], .start⟩ }

/-- The number of tokens passed. -/
def position (r : Reader) : Nat := r.passed.length

/-- The next token. -/
def current (r : Reader) : Token := r.ahead.head?.getD r.final

/-- The token after the next one. -/
def peek (r : Reader) : Token := r.ahead.tail.head?.getD r.final

/-- The token passed last; before the first one, the next. -/
def previous (r : Reader) : Token := r.passed.head?.getD r.current

/-- Passes the next token, whatever it is. -/
def advance (r : Reader) : Reader :=
  match r.ahead with
  | [] => r
  | t :: rest => { r with passed := t :: r.passed, ahead := rest }

end Reader

/-- A step of reading; without a result if it exceeds its bound. -/
abbrev Read := StateT Reader Option

namespace Read

def current : Read Token := return (← get).current

def peek : Read Token := return (← get).peek

def previous : Read Token := return (← get).previous

/-- Passes the next token and returns it. -/
def advance : Read Token := do
  let t ← current
  modify Reader.advance
  return t

/-- Is the next token of this kind? -/
def check (kind : Token.Kind) : Read Bool := return (← current).kind == kind

/-- Passes the next token if it is of this kind. -/
def accept (kind : Token.Kind) : Read Bool := do
  if ← check kind then
    let _ ← advance
    return true
  else return false

/-- Reports an error at a token. -/
def fail (t : Token) (message : Text) (hint : Text := []) : Read Unit :=
  modify fun r =>
    { r with report := r.report.addError t.place.line t.place.column message hint }

/-- Repeats a step until it says it is done. A step that is not done has passed
a token, so the tokens ahead bound the number of repetitions. -/
def iterate {α : Type} (step : α → Read (ForInStep α)) (start : α) : Read α := do
  loop ((← get).ahead.length + 1) start
where
  loop : Nat → α → Read α
    | 0, _ => failure
    | fuel + 1, a => do
      match ← step a with
      | .done b => return b
      | .yield b => loop fuel b

end Read

namespace Token

/-- How a message names the token it found. -/
def describe (t : Token) : Text :=
  match t.kind with
  | .eof => txt "end of file"
  | .ident | .intLit | .longLit | .floatLit | .doubleLit | .stringLit =>
    t.kind.name ++ txt " " ++ t.literal
  | .illegal => txt "illegal token " ++ t.literal
  | kind => txt "'" ++ kind.name ++ txt "'"

/-- Can reading resume at a token of this kind after an error? -/
def Kind.resumes : Kind → Bool
  | .kwImport | .kwVar | .kwVal | .kwGlobal | .kwStatic | .kwFunction | .kwZenClass
  | .kwZenConstructor | .kwOperator | .dollar | .kwReturn | .kwIf | .kwFor | .kwWhile
  | .rbrace | .semicolon | .eof => true
  | _ => false

/-- What to suggest when a token of this kind is missing. -/
def Kind.missingHint : Kind → Text
  | .semicolon => txt "did you forget a semicolon?"
  | .rbrace => txt "a block or class body is not closed"
  | .rparen => txt "a parameter or argument list is not closed"
  | .rbracket => txt "an index or array literal is not closed"
  | _ => []

end Token

/-- The span from `start` to `last`, or to `stop` if `last` is no later. -/
def Span.reaching (start stop last : Place) : Span :=
  if last.line < start.line ∨ (last.line = start.line ∧ last.column ≤ start.column) then
    ⟨start, stop⟩
  else ⟨start, last⟩

namespace Read

/-- Passes a token of this kind. If another one is next, reports that and
returns it without passing it. -/
def expect (kind : Token.Kind) : Read Token := do
  let t ← current
  if t.kind = kind then advance
  else
    fail t (txt "expected " ++ kind.name ++ txt ", got " ++ t.describe) kind.missingHint
    return t

/-- Passes tokens up to one at which reading can resume; a semicolon is passed
too. -/
def synchronize : Read Unit :=
  iterate (fun _ => do
    let t ← current
    if t.kind = .eof then return .done ()
    else if t.kind = .semicolon then
      let _ ← advance
      return .done ()
    else if t.kind.resumes then return .done ()
    else
      let _ ← advance
      return .yield ()) ()

/-- The span from `start` to the end of the token passed last, or to `stop` if
that token lies before the start. -/
def spanFrom (start stop : Place) : Read Span :=
  return .reaching start stop (← previous).stop

/-- The span from a token to the token passed last, at least that token. -/
def spanSince (first : Token) : Read Span := spanFrom first.place first.stop

/-- The span from the start of a node to the token passed last. -/
def spanSinceNode (first : Node) : Read Span := spanFrom first.span.start first.span.start

end Read

/-- The span from the start of one node to the end of another. -/
def Span.between (first last : Node) : Span := ⟨first.span.start, last.span.stop⟩

/-- The span of no width in front of a token. -/
def Span.empty (t : Token) : Span := ⟨t.place, t.place⟩

end Zensight
