import Zensight.Text.Blank
import Zensight.Workspace.Config
import Zensight.Yaml.Value

/-!
# Reading a configuration

A configuration file is a mapping whose fields replace the defaults. Fields it
does not know are passed over, and a field without a value keeps its default,
where the default of a list is the empty list. A mapping may merge others into
itself, whose fields count where it has none of that name.
-/

namespace Zensight

/-- Why there is no configuration. -/
inductive ConfigError where
  /-- The text is no mapping of fields to values of the right kind. -/
  | malformed
  | invalid (problem : ConfigProblem)
  deriving DecidableEq, Repr

namespace Config

/-! ### Effort -/

/-- How many nodes have been read, how many of them by way of references, and how
many references lead to the one at hand. -/
structure Effort where
  nodes : Nat := 0
  referred : Nat := 0
  depth : Nat := 0
  deriving DecidableEq, Repr

/-- Do references make up too much of the work? At first one node of a hundred
has to be read without them, and of a large number of nodes nine of ten. -/
def Effort.isExcessive (e : Effort) : Bool :=
  if e.referred ≤ 100 || e.nodes ≤ 1000 then false
  else if e.nodes ≤ 400000 then 99 * e.nodes < 100 * e.referred
  else if 4000000 ≤ e.nodes then e.nodes < 10 * e.referred
  else (99 * 3600000 - 89 * (e.nodes - 400000)) * e.nodes < 360000000 * e.referred

/-- Something that is read from nodes. It fails where they do not fit. -/
abbrev Decoding := StateT Effort Option

namespace Decoding

/-- Counts one node. -/
def count : Decoding Unit := do
  modify fun e => { e with nodes := e.nodes + 1, referred := e.referred + min e.depth 1 }
  if (← get).isExcessive then failure

/-- Reads what a reference leads to. -/
def behind {α : Type} (d : Decoding α) : Decoding α := do
  modify fun e => { e with depth := e.depth + 1 }
  let a ← d
  modify fun e => { e with depth := e.depth - 1 }
  return a

/-- Reads the value of a scalar. -/
def value (tag text : Text) : Decoding Yaml.Value := fun e =>
  (Yaml.Value.ofScalar? tag text).map fun v => (v, e)

/-! ### Values of fields -/

/-- The text of any scalar, if it stands for something. -/
def text? : Yaml → Decoding (Option Text)
  | .scalar tag written => do
    count
    return (← value tag written).asText written
  | .reference _ (some node) => do
    count
    behind (text? node)
  | _ => failure

/-- A truth value, if the scalar stands for something. -/
def bool? : Yaml → Decoding (Option Bool)
  | .scalar tag written => do
    count
    match ← value tag written with
    | .null => return none
    | .boolean b => return some b
    | .text t =>
      if yesWords.contains t then return some true
      else if noWords.contains t then return some false
      else failure
    | _ => failure
  | .reference _ (some node) => do
    count
    behind (bool? node)
  | _ => failure
where
  yesWords : List Text :=
    [txt "y", txt "Y", txt "yes", txt "Yes", txt "YES", txt "on", txt "On", txt "ON"]
  noWords : List Text :=
    [txt "n", txt "N", txt "no", txt "No", txt "NO", txt "off", txt "Off", txt "OFF"]

/-- An integer, if the scalar stands for something. -/
def int? : Yaml → Decoding (Option Int)
  | .scalar tag written => do
    count
    match ← value tag written with
    | .null => return none
    | .number (.integer i) => if Yaml.fits i then return some i else failure
    | .number (.rounded r) =>
      match r.toInteger? with
      | some i => return some i
      | none => failure
    | _ => failure
  | .reference _ (some node) => do
    count
    behind (int? node)
  | _ => failure

/-- The items of a list of texts; items that stand for nothing do not count. -/
def items : List Yaml → Decoding (List Text)
  | [] => return []
  | x :: rest => do
    let t ← text? x
    return t.toList ++ (← items rest)

/-- A list of texts. -/
def texts : Yaml → Decoding (List Text)
  | .scalar tag written => do
    count
    match ← value tag written with
    | .null => return []
    | _ => failure
  | .list xs => do
    count
    items xs
  | .reference _ (some node) => do
    count
    behind (texts node)
  | _ => failure

/-! ### Fields -/

/-- The names of the fields. -/
def fieldNames : List Text :=
  [txt "root", txt "extensions", txt "exclude", txt "concurrency", txt "watch", txt "log_level",
    txt "metrics_addr"]

/-- Takes over one field. -/
def setField (c : Config) (name : Text) (v : Yaml) : Decoding Config := do
  if name = txt "root" then return { c with root := (← text? v).getD c.root }
  else if name = txt "extensions" then return { c with extensions := ← texts v }
  else if name = txt "exclude" then return { c with exclude := ← texts v }
  else if name = txt "concurrency" then
    return { c with concurrency := (← int? v).getD c.concurrency }
  else if name = txt "watch" then return { c with watch := (← bool? v).getD c.watch }
  else if name = txt "log_level" then return { c with logLevel := (← text? v).getD c.logLevel }
  else if name = txt "metrics_addr" then
    return { c with metricsAddress := (← text? v).getD c.metricsAddress }
  else return c

/-- Are no two keys the same? -/
def distinctKeys : List (Yaml × Yaml) → Bool
  | [] => true
  | (k, _) :: rest => rest.all (fun e => !k.sameKey e.1) && distinctKeys rest

/-- Takes over the fields of a mapping. In the mapping itself no field may come
twice; of a mapping that is merged into others, the fields in `taken` do not
count. The result holds the names of all fields so far. -/
def setFields (merging : Bool) (taken : List Text) (c : Config) :
    List (Yaml × Yaml) → Decoding (List Text × Config)
  | [] => return (taken, c)
  | (k, v) :: rest => do
    if k.isMerge then setFields merging taken c rest
    else match ← text? k with
      | none => setFields merging taken c rest
      | some name =>
        if taken.contains name then
          if merging || !fieldNames.contains name then setFields merging taken c rest
          else failure
        else
          let c ← setField c name v
          setFields merging (name :: taken) c rest

/-- Counts the keys of a mapping once more. -/
def countKeys : List (Yaml × Yaml) → Decoding Unit
  | [] => return
  | (k, _) :: rest => do
    _ ← text? k
    countKeys rest

mutual

/-- Takes over the fields of a mapping, and then of those merged into it. -/
def merge (merging : Bool) (taken : List Text) (c : Config) :
    Yaml → Decoding (List Text × Config)
  | .mapping entries => do
    count
    if !distinctKeys entries then failure
    let (taken, c) ← setFields merging taken c entries
    if !merging && entries.any (·.1.isMerge) then countKeys entries
    mergeEntry taken c entries
  | .reference _ (some node) => do
    count
    behind (merge merging taken c node)
  | _ => failure

/-- Takes over the fields of what is merged into a mapping with these entries. -/
def mergeEntry (taken : List Text) (c : Config) :
    List (Yaml × Yaml) → Decoding (List Text × Config)
  | [] => return (taken, c)
  | (k, .list sources) :: rest =>
    if k.isMerge then mergeAll taken c sources else mergeEntry taken c rest
  | (k, v) :: rest => if k.isMerge then merge true taken c v else mergeEntry taken c rest

/-- Takes over the fields of several mappings. -/
def mergeAll (taken : List Text) (c : Config) : List Yaml → Decoding (List Text × Config)
  | [] => return (taken, c)
  | x :: rest => do
    let (taken, c) ← merge true taken c x
    mergeAll taken c rest

end

end Decoding

/-- The configuration that a document describes. -/
def ofYaml (node : Yaml) : Option Config :=
  match node with
  | .scalar tag text => if Yaml.Value.ofScalar? tag text = some .null then some {} else none
  | _ => (Decoding.merge false [] {} node { nodes := 1 }).map (·.1.2)

/-- The configuration in a text, checked; the defaults for a blank one. -/
def parse (s : Text) : Except ConfigError Config :=
  if s.isBlank then .ok {}
  else
    let config : Option Config := do
      match ← Yaml.parse s with
      | none => some {}
      | some node => ofYaml node
    match config with
    | none => .error .malformed
    | some c => match c.problem? with
      | some p => .error (.invalid p)
      | none => .ok c

end Config

end Zensight
