import Zensight.Command.Arguments
import Zensight.Lint
import Zensight.Query.Completion
import Zensight.Query.Declarations
import Zensight.Query.Hover
import Zensight.Tree.Print
import Zensight.Workspace.Config.Decode
import Zensight.Workspace.Loading

/-!
# Commands

What the program does for its arguments, in a given file tree: the text it
prints and the error it ends with, if any.
-/

namespace Zensight

/-- Why a command failed. -/
inductive CommandError where
  | usage (error : UsageError)
  | unreadableConfig (path : Text) (fault : FileFault)
  | config (error : ConfigError)
  | load (error : LoadError)
  | read (error : ReadError)
  | outside (argument root : Text)
  | unknownScript (path : Text)
  | badLine (text : Text)
  | badColumn (text : Text)
  | nothingThere (line column : Int)
  | noAccess (line column : Int)
  | checkFailed
  deriving DecidableEq, Repr

namespace CommandError

/-- A place as line and column. -/
def placeText (line column : Int) : Text := Text.ofInt line ++ txt ":" ++ Text.ofInt column

def message : CommandError → Text
  | usage e => e.message
  | unreadableConfig path fault =>
    txt "LoadConfig: reading " ++ path ++ txt ": " ++ fault.message
  | config .malformed => txt "LoadConfig: parsing YAML: malformed document"
  | config (.invalid p) => p.message
  | load e => e.message
  | read e => e.message
  | outside argument root => argument ++ txt " is outside the workspace root " ++ root
  | unknownScript path => path ++ txt ": unit not found"
  | badLine text => txt "invalid line " ++ text.quote
  | badColumn text => txt "invalid column " ++ text.quote
  | nothingThere line column => txt "nothing to describe at " ++ placeText line column
  | noAccess line column => txt "no member access at " ++ placeText line column
  | checkFailed => txt "check failed"

end CommandError

/-- What a command printed and how it ended. -/
structure Outcome where
  out : Text := []
  err : Text := []
  error? : Option CommandError := none
  deriving DecidableEq, Repr, Inhabited

namespace Command

/-- The circumstances of a command. -/
structure Setting where
  files : FileSystem
  /-- Was the work called off before it began? -/
  canceled : Bool := false

/-- The configuration file that is read if no other is named. -/
def defaultConfigFile : Text := txt "zentype.yaml"

/-- Reads a configuration file. -/
def configFile (fs : FileSystem) (path : Text) : Except CommandError Config := do
  let s ← (fs.read path).mapError (.unreadableConfig path)
  (Config.parse s).mapError .config

/-- The configuration that a file and the options give. -/
def configFor (fs : FileSystem) (o : Options) : Except CommandError Config := do
  let c ←
    if o.config ≠ [] then configFile fs o.config
    else if fs.pathExists defaultConfigFile then configFile fs defaultConfigFile
    else pure {}
  let c := if o.root ≠ [] then { c with root := o.root } else c
  let c := if o.logLevel ≠ [] then { c with logLevel := o.logLevel } else c
  match c.problem? with
  | some p => throw (.config (.invalid p))
  | none => return c

/-- The path of a script, seen from the root of the workspace, for an argument
that names it. A path that leads somewhere is taken as it is; any other is
already seen from the root. -/
def scriptPath (fs : FileSystem) (c : Config) (argument : Text) : Except CommandError Text :=
  if fs.pathExists argument then
    let full := Path.absolute fs.workingDirectory
    match (Path.relative? (full c.root) (full argument)).filter (!Text.startsWith · Path.dotDot) with
    | some path => .ok path
    | none => .error (.outside argument c.root)
  else .ok (Path.clean argument)

/-- The environment of the workspace. -/
def environment (s : Setting) (c : Config) : Except CommandError Environment := do
  let (_, e) ← (({ root := c.root } : Environment).load s.files c s.canceled).mapError .load
  return e

/-- The environment, and the script that an argument names in it. -/
def withScript (s : Setting) (c : Config) (argument : Text) :
    Except CommandError (Environment × ScriptId) := do
  let path ← scriptPath s.files c argument
  let e ← environment s c
  match e.unit? path with
  | some id => return (e, id)
  | none => throw (.unknownScript path)

/-- An integer in decimal digits, perhaps with a sign, in the range of 64 bits. -/
def integer? (s : Text) : Option Int := do
  let negative := s.head? = some (byte '-')
  let digits := if negative || s.head? = some (byte '+') then s.tail else s
  if digits.isEmpty || !digits.all Text.isDigit then none
  let n := digits.foldl (fun n c => n * 10 + (c.toNat - '0'.toNat)) 0
  let i : Int := if negative then -n else n
  if -9223372036854775808 ≤ i && i ≤ 9223372036854775807 then some i else none

/-- Lines and columns count from one. -/
def ordinal? (s : Text) : Option Int := (integer? s).filter (1 ≤ ·)

/-- The place that two arguments name. -/
def place (line column : Text) : Except CommandError (Int × Int) :=
  match ordinal? line with
  | none => .error (.badLine line)
  | some l => match ordinal? column with
    | none => .error (.badColumn column)
    | some c => .ok (l, c)

/-- Texts on lines of their own. -/
def lines (ts : List Text) : Text := ts.flatMap (· ++ txt "\n")

/-- All messages about a script, by place. -/
def messages (e : Environment) (id : ScriptId) : Report :=
  let s := e.script id
  (({ file := s.path } : Report).merge s.report |>.merge (e.lint id)).sort

/-- The messages about all scripts and their number. -/
def check (s : Setting) (c : Config) : Except CommandError Outcome := do
  let e ← environment s c
  let reports := e.order.map (messages e)
  let errors := reports.foldl (fun n r => n + r.errors.length) 0
  let warnings := reports.foldl (fun n r => n + r.warnings.length) 0
  let summary := Text.ofNat reports.length ++ txt " scripts, " ++ Text.ofNat errors
    ++ txt " errors, " ++ Text.ofNat warnings ++ txt " warnings"
  return {
    out := lines ((reports.map (·.render)).filter (· ≠ []) ++ [summary])
    error? := if 0 < errors then some .checkFailed else none }

/-- The declarations of a script with their types. -/
def types (s : Setting) (c : Config) (argument : Text) : Except CommandError Outcome := do
  let (e, id) ← withScript s c argument
  return { out := lines ((e.declarations id).map (·.render)) }

/-- The description of what is at a place. -/
def hover (s : Setting) (c : Config) (argument line column : Text) :
    Except CommandError Outcome := do
  let (l, k) ← place line column
  let (e, id) ← withScript s c argument
  match e.hover? id l k with
  | some t => return { out := lines [t] }
  | none => throw (.nothingThere l k)

/-- The members that complete the access before a place, and their kinds. -/
def members (s : Setting) (c : Config) (argument line column : Text) :
    Except CommandError Outcome := do
  let (l, k) ← place line column
  let (e, id) ← withScript s c argument
  match e.completions? id l k with
  | some cs => return { out := lines (cs.map fun m => m.render ++ txt "\t" ++ m.kind.name) }
  | none => throw (.noAccess l k)

/-- The syntax tree of a script, and apart from it the faults in its text. -/
def tree (s : Setting) (c : Config) (argument : Text) : Except CommandError Outcome := do
  let path ← scriptPath s.files c argument
  let script ← (Script.load s.files c.root path).mapError .read
  return {
    out := script.tree.print
    err := if script.report.items.isEmpty then [] else lines [script.report.render] }

/-- How the program is called. -/
def usage : Text := lines [
  programName ++ txt " [--config file] [--root directory] [--log-level level] command",
  [],
  txt "commands:",
  txt "  check                       report syntax errors and lint warnings",
  txt "  types <file>                print the declarations of a script",
  txt "  hover <file> <line> <col>   print the type at a place",
  txt "  members <file> <line> <col> list completions of a member access",
  txt "  ast <file>                  print the syntax tree of a script",
  txt "  watch                       keep the workspace up to date"]

/-- Carries out what was asked for. -/
def perform (s : Setting) (i : Invocation) : Except CommandError Outcome := do
  match i.action with
  | none => return { out := usage }
  | some action =>
    let c ← configFor s.files i.options
    match action, i.operands with
    | .check, _ => check s c
    | .types, [file] => types s c file
    | .hover, [file, line, column] => hover s c file line column
    | .members, [file, line, column] => members s c file line column
    | .tree, [file] => tree s c file
    | .watch, _ => do
      let _ ← environment s c
      return {}
    | _, _ => return { out := if action.isHelp then usage else [] }

/-- Runs the program on its arguments. -/
def run (s : Setting) (args : List Text) : Outcome :=
  let result : Except CommandError Outcome := do
    let i ← (Arguments.parse args).mapError .usage
    perform s i
  match result with
  | .ok o => o
  | .error e => { error? := some e }

end Command

end Zensight
