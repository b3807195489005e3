import Zensight.Text.Lowercase

/-!
# Arguments of the program

The arguments hold the name of a command, its operands, and options that may
stand anywhere. An option `--name` takes the argument behind it as its value
unless the value is given as `--name=value`. After `--` there are only operands.
-/

namespace Zensight

/-- The shells that can be told how to complete a command. -/
inductive Shell where
  | bash | zsh | fish | powershell
  deriving DecidableEq, Repr

namespace Shell

def all : List Shell := [bash, zsh, fish, powershell]

def name : Shell → Text
  | bash => txt "bash"
  | zsh => txt "zsh"
  | fish => txt "fish"
  | powershell => txt "powershell"

def ofName? (name : Text) : Option Shell := all.find? fun s => s.name == name

end Shell

/-- The commands of the program. -/
inductive Action where
  | check | types | hover | members | tree | watch | help | completion
  /-- A part of `completion`. -/
  | completionFor (shell : Shell)
  /-- What a shell asks for while a command is typed. -/
  | complete
  deriving DecidableEq, Repr

namespace Action

/-- The commands that are listed. -/
def all : List Action := [check, types, hover, members, tree, watch, help, completion]

def name : Action → Text
  | check => txt "check"
  | types => txt "types"
  | hover => txt "hover"
  | members => txt "members"
  | tree => txt "ast"
  | watch => txt "watch"
  | help => txt "help"
  | completion => txt "completion"
  | completionFor shell => txt "completion " ++ shell.name
  | complete => txt "__complete"

/-- The command of a name; the one for shells has two. -/
def ofName? (name : Text) : Option Action :=
  if name = txt "__complete" || name = txt "__completeNoDesc" then some complete
  else all.find? fun a => a.name == name

/-- The number of operands, where it is fixed and not zero. -/
def operandCount? : Action → Option Nat
  | types | tree => some 1
  | hover | members => some 3
  | _ => none

/-- Does the command only describe the program? -/
def isHelp : Action → Bool
  | help | completion | completionFor _ | complete => true
  | _ => false

end Action

/-- The name of the program. -/
def programName : Text := txt "zentype"

/-- What the options say; an option that is not given is empty. -/
structure Options where
  config : Text := []
  root : Text := []
  logLevel : Text := []
  help : Bool := false
  /-- Are completions listed without what they are for? -/
  noDescriptions : Bool := false
  deriving DecidableEq, Repr, Inhabited

/-- Options that are on or off. -/
inductive Switch where
  | help | noDescriptions
  deriving DecidableEq, Repr

namespace Switch

def name : Switch → Text
  | help => txt "help"
  | noDescriptions => txt "no-descriptions"

/-- How a message names the switch. -/
def shown : Switch → Text
  | help => txt "-h, --help"
  | noDescriptions => txt "--no-descriptions"

end Switch

/-- The switches of a command. -/
def Action.switches : Action → List Switch
  | completionFor _ => [.help, .noDescriptions]
  | _ => [.help]

/-- A command with its operands and options. Without a command, or if help is
asked for, the program describes itself. -/
structure Invocation where
  action : Option Action
  options : Options := {}
  operands : List Text := []
  deriving DecidableEq, Repr

/-- What is wrong with the arguments. -/
inductive UsageError where
  | unknownCommand (name : Text) (similar : List Action)
  | unknownOption (name : Text)
  | missingValue (name : Text)
  | badSyntax (argument : Text)
  | unknownLetter (letter : UInt8) (letters : Text)
  | badSwitch (switch : Switch) (value : Text)
  | operandCount (wanted given : Nat)
  | noOperand
  | unexpected (operand : Text) (action : Action)
  deriving DecidableEq, Repr

namespace UsageError

/-- The commands that may have been meant, each on a line of its own. -/
def suggestions (similar : List Action) : Text :=
  if similar.isEmpty then []
  else txt "\n\nDid you mean this?\n" ++ similar.flatMap fun a => txt "\t" ++ a.name ++ txt "\n"

/-- The character shown for an option letter. A letter beyond ASCII is shown by
the first byte of its encoding. -/
def letterShown (letter : UInt8) : Char :=
  Char.ofNat ((Text.ofChar (Char.ofNat letter.toNat)).headD 0).toNat

def message : UsageError → Text
  | unknownCommand name similar =>
    txt "unknown command " ++ name.quote ++ txt " for " ++ programName.quote ++ suggestions similar
  | unknownOption name => txt "unknown flag: --" ++ name
  | missingValue name => txt "flag needs an argument: --" ++ name
  | badSyntax argument => txt "bad flag syntax: " ++ argument
  | unknownLetter letter letters =>
    txt "unknown shorthand flag: " ++ Text.quoteChar (letterShown letter) ++ txt " in -" ++ letters
  | badSwitch switch value =>
    txt "invalid argument " ++ value.quote ++ txt " for " ++ switch.shown.quote
      ++ txt " flag: strconv.ParseBool: parsing " ++ value.quote ++ txt ": invalid syntax"
  | operandCount wanted given =>
    txt "accepts " ++ Text.ofNat wanted ++ txt " arg(s), received " ++ Text.ofNat given
  | noOperand => txt "requires at least 1 arg(s), only received 0"
  | unexpected operand action =>
    txt "unknown command " ++ operand.quote ++ txt " for "
      ++ (programName ++ txt " " ++ action.name).quote

end UsageError

namespace Arguments

def dash : UInt8 := byte '-'

/-- The argument after which all are operands. -/
def terminator : Text := txt "--"

/-- Does the argument look like an option whose value comes behind it? -/
def awaitsValue (a : Text) : Bool :=
  !a.contains (byte '=') && (a.startsWith terminator || (a.head? == some dash && a.length == 2))

/-- The first argument that is no option and no value of one, and the others. -/
def firstWord : List Text → Option (Text × List Text)
  | [] => none
  | a :: rest =>
    if a = terminator then none
    else if awaitsValue a then
      match rest with
      | v :: next :: more =>
        (firstWord (next :: more)).map fun (w, others) => (w, a :: v :: others)
      | _ => none
    else if a ≠ [] && a.head? ≠ some dash then some (a, rest)
    else (firstWord rest).map fun (w, others) => (w, a :: others)

/-! ### Similar names -/

/-- The next row of the table of edit distances: `row` has the distances from
some text to all beginnings of `t`, the result those from the text with `c`
behind it. -/
def distanceRow (t : Text) (c : UInt8) : List Nat → List Nat
  | [] => []
  | d :: row => (d + 1) :: go d (d + 1) t row
where
  /-- `corner` and `left` are the neighbours of the next distance. -/
  go (corner left : Nat) : Text → List Nat → List Nat
    | x :: t, above :: row =>
      let d := if x = c then corner else 1 + min (min above left) corner
      d :: go above d t row
    | _, _ => []

/-- How many bytes have to be put in, left out or replaced to make `t` of `s`. -/
def editDistance (s t : Text) : Nat :=
  (s.foldl (fun row c => distanceRow t c row) (List.range (t.length + 1))).getLastD 0

/-- Two names are similar if the typed one begins the other or few bytes differ,
whether letters are small or capital. -/
def isSimilar (typed name : Text) : Bool :=
  editDistance typed.lower name.lower ≤ 2 || name.lower.startsWith typed.lower

/-- The commands whose names are similar to what was typed. -/
def similar (typed : Text) : List Action :=
  (Action.all.filter (· ≠ .help)).filter fun a => isSimilar typed a.name

/-! ### Options -/

/-- Sets an option that has a value. -/
def setOption (o : Options) (name value : Text) : Option Options :=
  if name = txt "config" then some { o with config := value }
  else if name = txt "root" then some { o with root := value }
  else if name = txt "log-level" then some { o with logLevel := value }
  else none

/-- The words that say yes. -/
def trueWords : List Text :=
  [txt "1", txt "t", txt "T", txt "true", txt "True", txt "TRUE"]

/-- The words that say no. -/
def falseWords : List Text :=
  [txt "0", txt "f", txt "F", txt "false", txt "False", txt "FALSE"]

/-- Turns a switch on or off. -/
def turn (o : Options) (switch : Switch) (on : Bool) : Options :=
  match switch with
  | .help => { o with help := on }
  | .noDescriptions => { o with noDescriptions := on }

/-- Sets a switch to what a word says. -/
def setSwitch (o : Options) (switch : Switch) (value : Text) : Except UsageError Options :=
  if trueWords.contains value then .ok (turn o switch true)
  else if falseWords.contains value then .ok (turn o switch false)
  else .error (.badSwitch switch value)

/-- Letters that begin like this are meant for a test run of the program and do
not count. -/
def testLetters : Text := txt "test."

/-- Reads options given by single letters, of which there is only `h`. -/
def readLetters (o : Options) : Text → Except UsageError Options
  | [] => .ok o
  | c :: more =>
    if Text.startsWith (c :: more) testLetters then .ok o
    else if c ≠ byte 'h' then .error (.unknownLetter c (c :: more))
    else if more.head? = some (byte '=') && 2 ≤ more.length then setSwitch o .help more.tail
    else readLetters { o with help := true } more

/-- Reads options and operands. -/
def read (switches : List Switch) (o : Options) :
    List Text → Except UsageError (Options × List Text)
  | [] => .ok (o, [])
  | a :: rest =>
    if a.head? ≠ some dash || a.length = 1 then
      (read switches o rest).map fun (o, operands) => (o, a :: operands)
    else if a = terminator then .ok (o, rest)
    else if !a.startsWith terminator then do read switches (← readLetters o a.tail) rest
    else
      let body := a.drop 2
      let name := body.takeWhile (· != byte '=')
      let given := (body.dropWhile (· != byte '=')).tail
      if body.head? = some dash || body.head? = some (byte '=') then .error (.badSyntax a)
      else match switches.find? (·.name == name) with
        | some switch =>
          if body.contains (byte '=') then do
            read switches (← setSwitch o switch given) rest
          else read switches (turn o switch true) rest
        | none =>
          if (setOption o name []).isNone then .error (.unknownOption name)
          else if body.contains (byte '=') then
            read switches ((setOption o name given).getD o) rest
          else match rest with
            | [] => .error (.missingValue name)
            | value :: more => read switches ((setOption o name value).getD o) more

/-- Are the operands those of the command? -/
def checkOperands (action : Action) (operands : List Text) : Except UsageError Unit :=
  match action.operandCount?, operands with
  | some n, _ => if operands.length = n then .ok () else .error (.operandCount n operands.length)
  | none, [] => .ok ()
  | none, operand :: _ => .error (.unexpected operand action)

/-- The command that the arguments name, and the other arguments. -/
def action (args : List Text) : Except UsageError (Option Action × List Text) :=
  match firstWord args with
  | none => .ok (none, args)
  | some (word, rest) =>
    match Action.ofName? word with
    | none => .error (.unknownCommand word (similar word))
    | some .completion =>
      match firstWord rest with
      | some (part, others) =>
        match Shell.ofName? part with
        | some shell => .ok (some (.completionFor shell), others)
        | none => .ok (none, rest)
      | none => .ok (none, rest)
    | some a => .ok (some a, rest)

/-- What the arguments ask for. What a shell asks for is taken as it is. -/
def parse (args : List Text) : Except UsageError Invocation := do
  match ← action args with
  | (none, rest) =>
    let (options, operands) ← read [.help] {} rest
    return { action := none, options, operands }
  | (some .complete, rest) =>
    if rest.isEmpty then throw .noOperand
    return { action := some .complete, operands := rest }
  | (some a, rest) =>
    let (options, operands) ← read a.switches {} rest
    if options.help then return { action := none, options, operands }
    if a ≠ .help then checkOperands a operands
    return { action := some a, options, operands }

end Arguments

end Zensight
