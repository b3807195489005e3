import Zensight.Typing.Session

/-!
# Inquiries that keep to some scripts

Two views of the same scripts may differ in what some of the scripts see of the
others. To show that this makes no difference to a question, one has to know that
answering it never comes near those scripts. `Within P` says of a symbol or a type
that it mentions only scripts of which `P` holds, and `Inquiry.Same P G q q'` that
two inquiries ask for the same nodes, all of such scripts, and give the same
answer, which satisfies `G`, as long as they are told types within `P`.

The relation is kept by `bind`, so a computation put together from others is
related as soon as they are, and it is enough for equal answers (`Same.run`).
-/

namespace Zensight

variable {P : ScriptId → Prop}

/-- The class is declared in a script of which `P` holds, if it is declared in a
script at all. -/
def ClassType.Within (P : ScriptId → Prop) (c : ClassType) : Prop :=
  ∀ n, c.decl = some (.declared n) → P n.script

/-- All classes in the type are. -/
inductive Ty.Within (P : ScriptId → Prop) : Ty → Prop where
  | basic {b : Basic} : Within P (.basic b)
  | array {e : Ty} : Within P e → Within P (.array e)
  | list {e : Ty} : Within P e → Within P (.list e)
  | map {k v : Ty} : Within P k → Within P v → Within P (.map k v)
  | mapEntry {k v : Ty} : Within P k → Within P v → Within P (.mapEntry k v)
  | function {ps : List Ty} {r : Ty} :
      (∀ p ∈ ps, Within P p) → Within P r → Within P (.function ps r)
  | intersection {cs : List Ty} : (∀ c ∈ cs, Within P c) → Within P (.intersection cs)
  | classType {c : ClassType} : c.Within P → Within P (.classType c)

/-- The symbol is declared in a script of which `P` holds, or stated with a type
that keeps to such scripts. -/
def Symbol.Within (P : ScriptId → Prop) : Symbol → Prop
  | stated s => ∀ t ∈ s.type, t.Within P
  | declared id _ => P id

theorem ClassType.within_of_decl_none {c : ClassType} (h : c.decl = none) : c.Within P := by
  intro n hn
  rw [h] at hn
  cases hn

theorem Declaration.within_classType? {id : ScriptId} {d : Declaration} {c : ClassType}
    (hid : P id) (h : d.classType? id = some c) : c.Within P := by
  unfold classType? at h
  split at h
  · cases h
    intro n hn
    cases hn
    exact hid
  · cases h

theorem Ty.Within.resultType {t : Ty} (h : t.Within P) : t.resultType.Within P := by
  cases h with
  | function _ hr => exact hr
  | _ => exact .basic

/-- What a parameter is expected to be keeps to the scripts that the parameters
keep to. -/
theorem Ty.Within.getD {ts : List Ty} (h : ∀ t ∈ ts, t.Within P) (i : Nat) :
    (ts[i]?.getD .any).Within P := by
  cases hi : ts[i]? with
  | none => exact .basic
  | some t => exact h t (List.mem_of_getElem? hi)

/-! ## No restriction -/

theorem ClassType.within_of_forall (h : ∀ id, P id) (c : ClassType) : c.Within P :=
  fun n _ => h n.script

theorem Ty.within_of_forall (h : ∀ id, P id) : (t : Ty) → t.Within P
  | .basic _ => .basic
  | .array e => .array (within_of_forall h e)
  | .list e => .list (within_of_forall h e)
  | .map k v => .map (within_of_forall h k) (within_of_forall h v)
  | .mapEntry k v => .mapEntry (within_of_forall h k) (within_of_forall h v)
  | .function ps r => .function (fun p _ => within_of_forall h p) (within_of_forall h r)
  | .intersection cs => .intersection fun c _ => within_of_forall h c
  | .classType c => .classType (c.within_of_forall h)

theorem Symbol.within_of_forall (h : ∀ id, P id) (s : Symbol) : s.Within P := by
  cases s with
  | stated s => exact fun t _ => t.within_of_forall h
  | declared id _ => exact h id

/-! ## Builtin members -/

namespace Ty

@[simp] theorem within_basic {b : Basic} : (Ty.basic b).Within P := .basic

@[simp] theorem within_array {e : Ty} : (Ty.array e).Within P ↔ e.Within P :=
  ⟨fun h => by cases h; assumption, .array⟩

@[simp] theorem within_list {e : Ty} : (Ty.list e).Within P ↔ e.Within P :=
  ⟨fun h => by cases h; assumption, .list⟩

@[simp] theorem within_map {k v : Ty} : (Ty.map k v).Within P ↔ k.Within P ∧ v.Within P :=
  ⟨fun h => by cases h; exact ⟨‹_›, ‹_›⟩, fun h => .map h.1 h.2⟩

@[simp] theorem within_mapEntry {k v : Ty} :
    (Ty.mapEntry k v).Within P ↔ k.Within P ∧ v.Within P :=
  ⟨fun h => by cases h; exact ⟨‹_›, ‹_›⟩, fun h => .mapEntry h.1 h.2⟩

@[simp] theorem within_function {ps : List Ty} {r : Ty} :
    (Ty.function ps r).Within P ↔ (∀ p ∈ ps, p.Within P) ∧ r.Within P :=
  ⟨fun h => by cases h; exact ⟨‹_›, ‹_›⟩, fun h => .function h.1 h.2⟩

@[simp] theorem within_intersection {cs : List Ty} :
    (Ty.intersection cs).Within P ↔ ∀ c ∈ cs, c.Within P :=
  ⟨fun h => by cases h; assumption, .intersection⟩

@[simp] theorem within_classType {c : ClassType} : (Ty.classType c).Within P ↔ c.Within P :=
  ⟨fun h => by cases h; assumption, .classType⟩

end Ty

namespace Symbol

@[simp] theorem within_operation {op : Operator} {result : Ty} {params : List Ty} :
    (operation op result params).Within P ↔ (∀ p ∈ params, p.Within P) ∧ result.Within P := by
  simp [operation, Within]

@[simp] theorem within_method {name : Text} {result : Ty} {params : List Ty} :
    (method name result params).Within P ↔ (∀ p ∈ params, p.Within P) ∧ result.Within P := by
  simp [method, Within]

@[simp] theorem within_field {name : Text} {type : Ty} {modifiers : Modifiers} :
    (field name (some type) modifiers).Within P ↔ type.Within P := by
  simp [field, Within]

end Symbol

theorem Basic.within_members (b : Basic) : ∀ s ∈ b.members, s.Within P := by
  unfold Basic.members
  split
  · rw [numericMembers]
    split <;> simp
  · split <;> simp [boolMembers, stringMembers, intRangeMembers]

theorem Ty.Within.builtinMembers {t : Ty} (h : t.Within P) :
    ∀ s ∈ t.builtinMembers, s.Within P := by
  cases h with
  | basic => exact Basic.within_members _
  | _ => simp_all [Ty.builtinMembers, arrayMembers, listMembers, mapMembers, mapEntryMembers]

namespace Inquiry

variable {α β : Type}

/-- Two inquiries that ask for the same nodes of scripts of which `P` holds, and
answer the same, as long as they are told types within `P`. -/
inductive Same (P : ScriptId → Prop) (G : α → Prop) : Inquiry α → Inquiry α → Prop where
  | answer {a : α} : G a → Same P G (.answer a) (.answer a)
  | ask {n : NodeRef} {next next' : Ty → Inquiry α} :
      P n.script → (∀ t, t.Within P → Same P G (next t) (next' t)) →
      Same P G (.ask n next) (.ask n next')

variable {G : α → Prop} {H : β → Prop} {q q' : Inquiry α} {f f' : α → Inquiry β}

theorem Same.pure {a : α} (h : G a) : Same P G (pure a) (pure a) := .answer h

theorem Same.typeOf {n : NodeRef} (h : P n.script) :
    Same P (Ty.Within P) (Inquiry.typeOf n) (Inquiry.typeOf n) :=
  .ask h fun _ ht => .answer ht

theorem Same.bind (h : Same P G q q') (hf : ∀ a, G a → Same P H (f a) (f' a)) :
    Same P H (q >>= f) (q' >>= f') := by
  induction h with
  | answer ha => exact hf _ ha
  | ask hn _ ih => exact .ask hn ih

/-- Inquiries that are the same have the same answer where the types of nodes of
those scripts are the same. -/
theorem Same.run {types types' : NodeRef → Ty} (h : Same P G q q')
    (htypes : ∀ n, P n.script → types' n = types n ∧ (types n).Within P) :
    q'.run types' = q.run types ∧ G (q.run types) := by
  induction h with
  | answer ha => exact ⟨rfl, ha⟩
  | @ask n next next' hn _ ih =>
      obtain ⟨heq, hwithin⟩ := htypes n hn
      show (next' (types' n)).run types' = (next (types n)).run types ∧ _
      rw [heq]
      exact ih (types n) hwithin

/-- A computation for each element of a list. -/
theorem Same.mapM {g g' : β → Inquiry α} {xs : List β}
    (h : ∀ x ∈ xs, Same P G (g x) (g' x)) :
    Same P (fun ys => ∀ y ∈ ys, G y) (xs.mapM g) (xs.mapM g') := by
  have hloop : ∀ (xs : List β) (acc : List α), (∀ x ∈ xs, Same P G (g x) (g' x)) →
      (∀ y ∈ acc, G y) →
      Same P (fun ys => ∀ y ∈ ys, G y) (List.mapM.loop g xs acc) (List.mapM.loop g' xs acc) := by
    intro xs
    induction xs with
    | nil => intro acc _ hacc; exact .answer (by simpa using hacc)
    | cons x xs ih =>
        intro acc hxs hacc
        refine (hxs x List.mem_cons_self).bind fun y hy => ?_
        refine ih (y :: acc) (fun x hx => hxs x (List.mem_cons_of_mem _ hx)) ?_
        simpa using ⟨hy, hacc⟩
  exact hloop xs [] h (by simp)

end Inquiry

end Zensight
