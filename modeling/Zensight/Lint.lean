import Zensight.Typing.Session

/-!
# Lint

Likely mistakes in a script, found with the help of types. All of them are
warnings. Each check looks at one node; whether a parameter is used is known
only when all references of the script have been looked up.
-/

namespace Zensight

namespace Lint

/-- What a check is about. -/
inductive Topic where
  | unresolvedName | unknownMember | ambiguousOverload | classNaming | emptyBody
  | unusedParameter
  deriving DecidableEq, Repr

/-- The code that marks findings about a topic. -/
def Topic.code : Topic → Text
  | unresolvedName => txt "unresolved-name"
  | unknownMember => txt "unknown-member"
  | ambiguousOverload => txt "ambiguous-overload"
  | classNaming => txt "class-naming"
  | emptyBody => txt "empty-body"
  | unusedParameter => txt "unused-parameter"

/-- What a check has found. -/
structure Finding where
  topic : Topic
  place : Place
  message : Text
  deriving DecidableEq, Repr

variable (v : View) (n : NodeRef)

/-- The script that a node belongs to. -/
def scriptOf : Script := v.script n.script

/-- The start of a node. -/
def startOf : Place := (v.entry n).span.start

/-- Does the identifier stand as the name of something, or as the key of a map
entry, and not for what it names? -/
def isNaming : Bool :=
  match v.parent? n with
  | none => false
  | some p =>
    v.part? p .name == some n || v.part? p .localName == some n
      || (v.partsOf p .loopVar).contains n
      || ((v.entry p).form == .mapEntry && v.part? p .key == some n)

/-- Does the identifier refer to something? The root package is no reference. -/
def isReference (name : Text) : Bool :=
  !Rule.isPlaceholder name && name != Package.root && !isNaming v n

/-- The name that a node refers to. -/
def reference? : Option Text :=
  match (v.entry n).form with
  | .ident name => if isReference v n name then some name else none
  | _ => none

/-- A reference that means nothing. -/
def unresolvedName : List Finding :=
  match reference? v n with
  | some name =>
    if (v.lookup? n name).isNone then
      [⟨.unresolvedName, startOf v n, txt "cannot resolve name '" ++ name ++ txt "'"⟩]
    else []
  | none => []

/-- An access `a.b` where the type of `a` is a declared class that has neither a
member `b` nor an operator for access by name. -/
def unknownMember : List Finding :=
  match (v.entry n).form, v.part? n .operand, v.part? n .name with
  | .memberExpr, some receiver, some nameNode =>
    let name := (scriptOf v n).identName nameNode.node
    if Rule.isPlaceholder name then []
    else match v.typeOf receiver with
      | .classType c =>
        if c.decl.isSome && (v.answer (v.memberCandidates (.classType c) name)).isEmpty
            && (v.answer (v.operatorCandidates (.classType c) .memberGet)).isEmpty then
          [⟨.unknownMember, startOf v nameNode,
            txt "'" ++ c.name ++ txt "' has no member '" ++ name ++ txt "'"⟩]
        else []
      | _ => []
  | _, _, _ => []

/-- The number of candidates that fit best, 0 if none fits. The best rank so far
comes with the number that attain it. -/
def countBest (best : Rank) (tied : Nat) : List Rank → Nat
  | [] => tied
  | r :: rest =>
    if r = .mismatch then countBest best tied rest
    else if r.better best then countBest r 1 rest
    else if r = best then countBest best (tied + 1) rest
    else countBest best tied rest

/-- A call that fits several overloads equally well. -/
def ambiguousOverload : List Finding :=
  match (v.entry n).form, v.answer (v.callCandidates n) with
  | .callExpr, first :: second :: others =>
    let candidates := first :: second :: others
    let args := v.answer (v.partTypes n .argument)
    let ranks := candidates.map fun c => v.answer (v.rankExecutable c args)
    let tied := countBest .mismatch 0 ranks
    if 2 ≤ tied then
      [⟨.ambiguousOverload, startOf v n,
        txt "call to '" ++ first.name ++ txt "' matches " ++ Text.ofNat tied
          ++ txt " overloads equally well; using the first declared"⟩]
    else []
  | _, _ => []

/-- Does the name begin with a capital and have no underscore? -/
def isPascalCase (name : Text) : Bool :=
  name.head?.any Text.isUpper && !name.contains (byte '_')

/-- A class whose name is not written as class names are. -/
def classNaming : List Finding :=
  match (v.entry n).form with
  | .classDecl =>
    let name := (scriptOf v n).partName n.node .name
    if Rule.isPlaceholder name || isPascalCase name then []
    else
      [⟨.classNaming, startOf v n,
        txt "class '" ++ name ++ txt "' should use PascalCase naming"⟩]
  | _ => []

/-- Has the executable a body, and has that a statement? -/
def bodyStatements? : Option Nat :=
  (v.part? n .body).map fun body => (v.partsOf body .statement).length

/-- A function whose body is empty. One without a body is meant to be so. -/
def emptyBody : List Finding :=
  match (v.entry n).form with
  | .funcDecl _ | .expandFuncDecl =>
    if bodyStatements? v n = some 0 then
      [⟨.emptyBody, startOf v n,
        txt "function '" ++ (scriptOf v n).partName n.node .name
          ++ txt "' has an empty body"⟩]
    else []
  | _ => []

/-- The name of an executable whose parameters are checked. -/
def executableName? : Option Text :=
  match (v.entry n).form with
  | .funcDecl _ | .expandFuncDecl => some ((scriptOf v n).partName n.node .name)
  | .operatorDecl sign => some (txt "operator " ++ sign)
  | .constructorDecl => some constructorName
  | _ => none

/-- The parameters of an executable with statements that are not among the nodes
referred to. -/
def unusedParameters (used : List NodeRef) : List Finding :=
  match executableName? v n, bodyStatements? v n with
  | some owner, some (_ + 1) =>
    ((v.partsOf n .param).filter (!used.contains ·)).map fun p =>
      ⟨.unusedParameter, startOf v p,
        txt "parameter '" ++ (scriptOf v n).partName p.node .name ++ txt "' in '" ++ owner
          ++ txt "' is never used"⟩
  | _, _ => []

/-- The node that declares what a node refers to. -/
def referent? : Option NodeRef := do
  let name ← reference? v n
  match ← v.lookup? n name with
  | .declared script d => some ⟨script, d.node⟩
  | .stated _ => none

/-- What the checks that need only the node find at it. -/
def atNode : List Finding :=
  unresolvedName v n ++ unknownMember v n ++ ambiguousOverload v n ++ classNaming v n
    ++ emptyBody v n

end Lint

namespace Environment

/-- The findings about a script, by place. -/
def lint (e : Environment) (id : ScriptId) : Report :=
  let v := e.view
  let s := e.script id
  let nodes : List NodeRef := s.nodes.map fun n => ⟨id, n⟩
  let used := nodes.filterMap (Lint.referent? v)
  let findings := nodes.flatMap (Lint.atNode v)
    ++ nodes.flatMap (Lint.unusedParameters v · used)
  let report := findings.foldl
    (fun r f => r.addFinding f.topic.code f.place.line f.place.column f.message)
    ({ file := s.path } : Report)
  report.sort

end Environment

end Zensight
