import Zensight.Text.Quoted

/-!
# Configuration of a workspace

What a workspace consists of and how it is treated. A configuration is checked
before it is used; the first thing wrong with it is reported.
-/

namespace Zensight

structure Config where
  /-- The directory that holds the scripts. -/
  root : Text := txt "scripts"
  /-- The endings of the names of scripts. -/
  extensions : List Text := [txt ".zs", txt ".dzs"]
  /-- Names of directories that are left out. -/
  exclude : List Text := []
  /-- How many files may be read at a time. -/
  concurrency : Int := 8
  /-- Is the workspace to be kept up to date? -/
  watch : Bool := false
  logLevel : Text := txt "info"
  /-- Where measurements are served; nowhere if empty. -/
  metricsAddress : Text := []
  deriving DecidableEq, Repr, Inhabited

/-- What is wrong with a configuration. -/
inductive ConfigProblem where
  | emptyRoot
  | noExtension
  | badExtension (extension : Text)
  | badConcurrency (given : Int)
  | unknownLogLevel (level : Text)
  deriving DecidableEq, Repr

def ConfigProblem.message (p : ConfigProblem) : Text :=
  txt "invalid config: " ++ match p with
    | emptyRoot => txt "root must not be empty"
    | noExtension => txt "at least one extension is required"
    | badExtension e => txt "extension " ++ e.quote ++ txt " must start with a dot"
    | badConcurrency n => txt "concurrency must be at least 1, got " ++ Text.ofInt n
    | unknownLogLevel l => txt "unknown log level " ++ l.quote

namespace Config

def logLevels : List Text := [txt "debug", txt "info", txt "warn", txt "error"]

/-- An extension is a dot and something after it. -/
def isExtension (e : Text) : Bool := e.startsWith (txt ".") && 2 ≤ e.length

/-- The first thing wrong with a configuration. -/
def problem? (c : Config) : Option ConfigProblem :=
  if c.root = [] then some .emptyRoot
  else if c.extensions.isEmpty then some .noExtension
  else match c.extensions.find? (!isExtension ·) with
    | some e => some (.badExtension e)
    | none =>
      if c.concurrency < 1 then some (.badConcurrency c.concurrency)
      else if !logLevels.contains c.logLevel then some (.unknownLogLevel c.logLevel)
      else none

/-- Is this the name of a script? -/
def isScript (c : Config) (name : Text) : Bool := c.extensions.any name.endsWith

/-- Is the directory of this name left out by the configuration? -/
def excludes (c : Config) (name : Text) : Bool := c.exclude.contains name

/-- Is the directory of this name passed over, hidden ones included? -/
def skips (c : Config) (name : Text) : Bool := name.startsWith (txt ".") || c.excludes name

end Config

end Zensight
