import Zensight.Text

/-!
# Diagnostics

One message about a script, and the report that collects them. A report knows
the file its messages are about and fills it in where a message names none.
-/

namespace Zensight

/-- How grave a message is. A grade outside the three known ones keeps its
number. -/
inductive Severity where
  | error | warning | info
  | other (grade : Int)
  deriving DecidableEq, Repr, Inhabited

namespace Severity

def ofOrdinal (n : Int) : Severity :=
  if n = 0 then error else if n = 1 then warning else if n = 2 then info else other n

def name : Severity → Text
  | error => txt "error"
  | warning => txt "warning"
  | info => txt "info"
  | other _ => txt "unknown"

end Severity

/-- A message about a place of a script. `code` is the rule a lint finding
comes from and empty for all others; `hint` is a suggestion or empty. -/
structure Diagnostic where
  severity : Severity
  code : Text := []
  message : Text
  line : Int
  column : Int
  file : Text := []
  hint : Text := []
  deriving DecidableEq, Repr, Inhabited

namespace Diagnostic

/-- The message on one line, with its grade, place and rule. -/
def render (d : Diagnostic) : Text :=
  let message :=
    if d.code = [] then d.message else d.message ++ txt " (" ++ d.code ++ txt ")"
  d.severity.name ++ txt "[" ++ d.file ++ txt ":" ++ Text.ofInt d.line ++ txt ":"
    ++ Text.ofInt d.column ++ txt "]: " ++ message

/-- The message, and its hint on a line of its own. -/
def renderWithHint (d : Diagnostic) : Text :=
  if d.hint = [] then d.render else d.render ++ txt "\n  hint: " ++ d.hint

/-- Is `d` to stand strictly before `e`? By file, then line, then column. -/
def before (d e : Diagnostic) : Bool :=
  if d.file ≠ e.file then d.file.before e.file
  else if d.line ≠ e.line then d.line < e.line
  else d.column < e.column

end Diagnostic

/-- The messages about one file, in the order they came up. -/
structure Report where
  file : Text := []
  items : List Diagnostic := []
  deriving DecidableEq, Repr, Inhabited

namespace Report

/-- Appends a message; one that names no file is about the report's own. -/
def add (r : Report) (d : Diagnostic) : Report :=
  { r with items := r.items ++ [if d.file = [] then { d with file := r.file } else d] }

def addError (r : Report) (line column : Int) (message : Text) (hint : Text := []) : Report :=
  r.add { severity := .error, message, line, column, hint }

def addWarning (r : Report) (line column : Int) (message : Text) : Report :=
  r.add { severity := .warning, message, line, column }

/-- Appends the finding of a lint rule. -/
def addFinding (r : Report) (code : Text) (line column : Int) (message : Text) : Report :=
  r.add { severity := .warning, code, message, line, column }

/-- Appends all messages of another report. -/
def merge (r other : Report) : Report := other.items.foldl add r

def ofSeverity (r : Report) (s : Severity) : List Diagnostic :=
  r.items.filter (·.severity = s)

def errors (r : Report) : List Diagnostic := r.ofSeverity .error

def warnings (r : Report) : List Diagnostic := r.ofSeverity .warning

def hasErrors (r : Report) : Bool := !r.errors.isEmpty

/-- Puts the messages in order of file and place; messages about one place keep
their order. -/
def sort (r : Report) : Report :=
  { r with items := r.items.mergeSort (fun d e => !e.before d) }

def clear (r : Report) : Report := { r with items := [] }

/-- All messages with their hints, one under the other. -/
def render (r : Report) : Text :=
  Text.join (txt "\n") (r.items.map Diagnostic.renderWithHint)

end Report

end Zensight
