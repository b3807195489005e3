import Zensight.Proofs.Agreement.Rules

/-!
# Queries

All that an environment can be asked, as data: a `Query α` is a question whose
answer is an `α`, and `Environment.ask` answers it. `Query.Within P` says which
scripts a question may mention: what it starts from has to keep to `P`, while a type
that another is only compared with, or a name, may be anything.
-/

namespace Zensight

/-- A question to an environment. -/
inductive Query : Type → Type where
  | typeOf (n : NodeRef) : Query Ty
  | symbolType (s : Symbol) : Query Ty
  | membersOf (t : Ty) : Query (List Symbol)
  | memberCandidates (t : Ty) (name : Text) : Query (List Symbol)
  | operatorCandidates (t : Ty) (op : Operator) : Query (List Symbol)
  | unaryResult (t : Ty) (op : Operator) : Query Ty
  | binaryResult (t : Ty) (op : Operator) (right : Ty) : Query Ty
  | trinaryResult (t : Ty) (op : Operator) (first second : Ty) : Query Ty
  | rank (t u : Ty) : Query Rank
  | findBest (candidates : List Symbol) (args : List Ty) : Query (Option Symbol)
  | rankExecutable (s : Symbol) (args : List Ty) : Query Rank
  | predictNext (candidates : List Symbol) (known : List Ty) : Query Ty
  | lambdaForm (c : ClassType) : Query (Option Ty)
  | callCandidates (call : NodeRef) : Query (List Symbol)
  | typesOf (args : List NodeRef) : Query (List Ty)
  | lookup (n : NodeRef) (name : Text) : Query (Option Symbol)
  | globals : Query (List Symbol)
  | classNamed (name : Text) : Query (Option ClassType)
  | expands : Query (List Symbol)
  | unit (path : Text) : Query (Option ScriptId)
  | units : Query (List ScriptId)

/-- The answer of the environment. -/
def Environment.ask (e : Environment) {α : Type} : Query α → α
  | .typeOf n => e.view.typeOf n
  | .symbolType s => e.view.answer (e.view.symbolType s)
  | .membersOf t => e.view.answer (e.view.membersOf t)
  | .memberCandidates t name => e.view.answer (e.view.memberCandidates t name)
  | .operatorCandidates t op => e.view.answer (e.view.operatorCandidates t op)
  | .unaryResult t op => e.view.answer (e.view.unaryResult t op)
  | .binaryResult t op right => e.view.answer (e.view.binaryResult t op right)
  | .trinaryResult t op first second => e.view.answer (e.view.trinaryResult t op first second)
  | .rank t u => e.view.answer (e.view.rank t u)
  | .findBest candidates args => e.view.answer (e.view.findBest candidates args)
  | .rankExecutable s args => e.view.answer (e.view.rankExecutable s args)
  | .predictNext candidates known => e.view.answer (e.view.predictNext candidates known)
  | .lambdaForm c => e.view.answer (e.view.lambdaForm? c)
  | .callCandidates call => e.view.answer (e.view.callCandidates call)
  | .typesOf args => e.view.answer (View.typesOf args)
  | .lookup n name => e.view.lookup? n name
  | .globals => e.registry.globals
  | .classNamed name => e.registry.classNamed? name
  | .expands => e.registry.expands
  | .unit path => e.unit? path
  | .units => e.order

/-- The question starts from scripts of which `P` holds. -/
def Query.Within (P : ScriptId → Prop) {α : Type} : Query α → Prop
  | .typeOf n | .callCandidates n => P n.script
  | .symbolType s => s.Within P
  | .membersOf t | .memberCandidates t _ | .operatorCandidates t _ | .unaryResult t _
  | .rank t _ => t.Within P
  | .binaryResult t _ right => t.Within P ∧ right.Within P
  | .trinaryResult t _ first second => t.Within P ∧ first.Within P ∧ second.Within P
  | .findBest candidates args | .predictNext candidates args =>
    (∀ s ∈ candidates, s.Within P) ∧ ∀ t ∈ args, t.Within P
  | .rankExecutable s args => s.Within P ∧ ∀ t ∈ args, t.Within P
  | .lambdaForm c => c.Within P
  | .typesOf args => ∀ n ∈ args, P n.script
  | .lookup _ _ | .globals | .classNamed _ | .expands | .unit _ | .units => True

variable {P : ScriptId → Prop} {e e' : Environment}

theorem Query.within_of_forall (h : ∀ id, P id) {α : Type} (q : Query α) : q.Within P := by
  have hty := fun t : Ty => t.within_of_forall h
  have hsymbol := fun s : Symbol => s.within_of_forall h
  cases q with
  | typeOf n | callCandidates n => exact h n.script
  | symbolType s => exact hsymbol s
  | membersOf t | memberCandidates t _ | operatorCandidates t _ | unaryResult t _ | rank t _ =>
      exact hty t
  | binaryResult t _ right => exact ⟨hty t, hty right⟩
  | trinaryResult t _ first second => exact ⟨hty t, hty first, hty second⟩
  | findBest _ _ | predictNext _ _ => exact ⟨fun s _ => hsymbol s, fun t _ => hty t⟩
  | rankExecutable s _ => exact ⟨hsymbol s, fun t _ => hty t⟩
  | lambdaForm c => exact c.within_of_forall h
  | typesOf _ => exact fun n _ => h n.script
  | lookup _ _ | globals | classNamed _ | expands | unit _ | units => trivial

/-- Is the question which scripts the workspace has? -/
def Query.listsUnits {α : Type} : Query α → Bool
  | .unit _ | .units => true
  | _ => false

/-- Environments whose views agree on what a question starts from give it the same
answer, unless it is for the scripts of the workspace. -/
theorem View.Agrees.ask_of_views (hv : e.view.Agrees P e'.view) {α : Type} (q : Query α)
    (hq : q.Within P) (hlists : q.listsUnits = false) : e'.ask q = e.ask q := by
  have hregistry : e'.registry = e.registry := hv.registry_eq
  cases q with
  | typeOf n => exact (hv.typeOf hq).1
  | symbolType s => exact (hv.answer (hv.symbolType hq)).1
  | membersOf t => exact (hv.answer (hv.membersOf hq)).1
  | memberCandidates t name => exact (hv.answer (hv.memberCandidates hq name)).1
  | operatorCandidates t op => exact (hv.answer (hv.operatorCandidates hq op)).1
  | unaryResult t op => exact (hv.answer (hv.unaryResult hq op)).1
  | binaryResult t op right => exact (hv.answer (hv.binaryResult hq.1 op hq.2)).1
  | trinaryResult t op first second =>
      exact (hv.answer (hv.trinaryResult hq.1 op hq.2.1 hq.2.2)).1
  | rank t u => exact (hv.answer (hv.rank t u hq)).1
  | findBest candidates args => exact (hv.answer (hv.findBest hq.1 hq.2)).1
  | rankExecutable s args => exact (hv.answer (hv.rankExecutable hq.1 hq.2)).1
  | predictNext candidates known => exact (hv.answer (hv.predictNext hq.1 hq.2)).1
  | lambdaForm c => exact (hv.answer (hv.lambdaForm? hq)).1
  | callCandidates call => exact (hv.answer (hv.callCandidates hq)).1
  | typesOf args => exact (hv.answer (hv.typesOf args hq)).1
  | lookup n name => exact hv.lookup?_eq n name
  | globals => exact congrArg Registry.globals hregistry
  | classNamed name => exact congrArg (Registry.classNamed? · name) hregistry
  | expands => exact congrArg Registry.expands hregistry
  | unit path => cases hlists
  | units => cases hlists

/-- With the same scripts at the same paths they give the same answers to all such
questions. -/
theorem View.Agrees.ask (hv : e.view.Agrees P e'.view)
    (hunits : ∀ path, e'.unit? path = e.unit? path) (horder : e'.order = e.order) {α : Type}
    (q : Query α) (hq : q.Within P) : e'.ask q = e.ask q := by
  cases q with
  | unit path => exact hunits path
  | units => exact horder
  | _ => exact hv.ask_of_views _ hq rfl

end Zensight
