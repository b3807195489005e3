import Zensight.Yaml.Cursor

/-!
# Comments

A comment goes from a `#` to the end of its line. How far ahead a comment is
looked for is limited, and what lies before it is passed along with it, whatever
blanks it is made of.
-/

namespace Zensight.Yaml.Reading

/-- How far ahead a comment is looked for. -/
def commentReach : Nat := 512

/-- How far ahead a comment begins, from `k` places on, if nothing but characters
that satisfy `p` stands before it. -/
def commentAhead (p : Char → Bool) : (reach k : Nat) → Reading (Option Nat)
  | 0, _ => return none
  | reach + 1, k => do
    need (k + 1)
    let c ← look k
    if p c then commentAhead p reach (k + 1) else return if c = '#' then some k else none

/-- Passes characters until `index` of them have been passed in all. -/
def passUntil (index : Nat) : Reading Unit :=
  repeating () fun _ => do
    let c ← get
    if index ≤ c.index then return .inr ()
    if isBreak c.look then
      need 2
      skipLine
    else skip
    return .inl ()

/-- Passes the rest of the line. -/
def skipRest : Reading Unit := skipWhile (!endsLine ·)

/-- Passes a comment in the line of what was read last. -/
def lineComment : Reading Unit := do
  if (← get).fresh then return
  if let some k ← commentAhead isBlank commentReach 0 then
    passUntil ((← get).index + k)
    skipRest

/-- Passes the comment that begins here, and those in the lines below it. -/
def comments : Reading Unit :=
  repeating () fun _ => do
    skipRest
    let c ← get
    if c.look = '\r' || c.look = '\n' then
      let gap (c : Char) : Bool := isBlank c || c == '\r' || c == '\n'
      match ← commentAhead gap (commentReach - 1) 1 with
      | some k =>
        passUntil (c.index + k)
        return .inl ()
      | none => return .inr ()
    else return .inr ()

end Zensight.Yaml.Reading
