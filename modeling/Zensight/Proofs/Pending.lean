import Zensight.Proofs.Candidates

/-!
# When it makes no difference what is pending

A node that is being typed is `any` to whoever asks for it again, so what is pending may change
an answer. Two cases in which it does not are worked out here.

A node may be silent about another one: its rule asks for that node first and has nothing to
say when told `any`, as an access to a member has not when its receiver is `any`. While the other
node is pending, a silent node is `any` whether it is pending too or not (`Resolves.grow`). So the
other node has its own type also when it is asked for by the silent one (`resolves_of_silent`).

Nodes may keep to themselves: what they ask for is among them, and what is pending is not
(`Resolves.of_closed`). The types written in a script are such, with the imports they name
(`typeLike_closed`). The members of a class depend on other nodes only through the targets of
expand functions, which are types, so a class has the same members whoever asks
(`asksOnly_membersOf`).
-/

namespace Zensight

namespace Inquiry

variable {α β : Type} {types : NodeRef → Ty} {S : NodeRef → Prop}

theorem asked_bind (q : Inquiry α) (f : α → Inquiry β) :
    (q >>= f).asked types = q.asked types ++ (f (q.run types)).asked types := by
  show (q.bind f).asked types = _
  induction q with
  | answer a => rfl
  | ask n next ih => exact congrArg (n :: ·) (ih (types n))

/-- Whatever it is told, the inquiry asks for nodes of which `S` holds. -/
def AsksOnly (S : NodeRef → Prop) (q : Inquiry α) : Prop := ∀ types, ∀ n ∈ q.asked types, S n

theorem AsksOnly.pure (a : α) : AsksOnly S (pure a : Inquiry α) := fun _ n hn => by cases hn

theorem AsksOnly.typeOf {n : NodeRef} (h : S n) : AsksOnly S (Inquiry.typeOf n) := by
  intro types m hm
  rw [List.mem_singleton.mp hm]
  exact h

theorem AsksOnly.bind {q : Inquiry α} {f : α → Inquiry β} (h : AsksOnly S q)
    (hf : ∀ a, AsksOnly S (f a)) : AsksOnly S (q >>= f) := by
  intro types n hn
  rw [asked_bind, List.mem_append] at hn
  rcases hn with hn | hn
  · exact h types n hn
  · exact hf _ types n hn

end Inquiry

open Inquiry (AsksOnly)

namespace View

variable {v : View} {α β : Type} {pending : List NodeRef}

/-- The answer of an inquiry that is made while the nodes `pending` are being typed. -/
def Told (v : View) (pending : List NodeRef) (q : Inquiry α) (a : α) : Prop :=
  ∃ types, (∀ m ∈ q.asked types, Resolves v pending m (types m)) ∧ q.run types = a

theorem Told.of_pure {a b : α} (h : v.Told pending (pure a) b) : b = a := by
  obtain ⟨types, -, rfl⟩ := h
  rfl

theorem Told.of_typeOf {n : NodeRef} {t : Ty} (h : v.Told pending (Inquiry.typeOf n) t) :
    Resolves v pending n t := by
  obtain ⟨types, hasked, rfl⟩ := h
  exact hasked n List.mem_cons_self

theorem Told.of_bind {q : Inquiry α} {f : α → Inquiry β} {b : β}
    (h : v.Told pending (q >>= f) b) : ∃ a, v.Told pending q a ∧ v.Told pending (f a) b := by
  obtain ⟨types, hasked, rfl⟩ := h
  rw [Inquiry.asked_bind] at hasked
  refine ⟨q.run types, ⟨types, fun m hm => ?_, rfl⟩, types, fun m hm => ?_, ?_⟩
  · exact hasked m (List.mem_append_left _ hm)
  · exact hasked m (List.mem_append_right _ hm)
  · rw [Inquiry.run_bind]

/-- A node that is not pending has the answer of its rule. -/
theorem Resolves.told {n : NodeRef} {t : Ty} (h : Resolves v pending n t) (hn : n ∉ pending) :
    v.Told (n :: pending) (v.rule n) t := by
  cases h with
  | pending hmem => exact absurd hmem hn
  | rule types _ hasked => exact ⟨types, hasked, rfl⟩

theorem Resolves.eq_any {n : NodeRef} {t : Ty} (h : Resolves v pending n t) (hn : n ∈ pending) :
    t = .any := h.unique (.pending hn) |>.symm

/-! ## Silent nodes -/

/-- While `x` is pending the node is `any`. -/
def Silent (v : View) (x n : NodeRef) : Prop :=
  ∀ pending t, x ∈ pending → Resolves v pending n t → t = .any

/-- While `x` is pending, silent nodes may be pending as well. -/
theorem Resolves.grow {x n : NodeRef} {t : Ty} (h : Resolves v pending n t)
    {more : List NodeRef} (hx : x ∈ pending) (hsub : ∀ k ∈ pending, k ∈ more)
    (hmore : ∀ k ∈ more, k ∈ pending ∨ v.Silent x k) : Resolves v more n t := by
  induction h generalizing more with
  | pending hn => exact .pending (hsub _ hn)
  | @rule pending n types hn hasked ih =>
      by_cases hin : n ∈ more
      · -- A silent node is `any` now and was before.
        have hsilent := (hmore n hin).resolve_left hn
        rw [hsilent pending _ hx (.rule types hn hasked)]
        exact .pending hin
      · refine .rule types hin fun m hm => ih m hm (List.mem_cons_of_mem _ hx) ?_ ?_
        · exact List.forall_mem_cons.mpr
            ⟨List.mem_cons_self, fun k hk => List.mem_cons_of_mem _ (hsub k hk)⟩
        · refine List.forall_mem_cons.mpr ⟨.inl List.mem_cons_self, fun k hk => ?_⟩
          exact (hmore k hk).imp_left (List.mem_cons_of_mem _)

/-- A node has its own type also for those that are silent about it. -/
theorem resolves_of_silent {x : NodeRef} (hx : x ∉ pending)
    (hsilent : ∀ k ∈ pending, v.Silent x k) : Resolves v pending x (v.typeOf x) := by
  obtain ⟨types, hasked, htype⟩ := (v.typeOf_resolves x).told List.not_mem_nil
  rw [← htype]
  refine .rule types hx fun m hm => (hasked m hm).grow List.mem_cons_self ?_ ?_
  · exact List.forall_mem_cons.mpr ⟨List.mem_cons_self, List.forall_mem_nil _⟩
  · exact List.forall_mem_cons.mpr ⟨.inl List.mem_cons_self, fun k hk => .inr (hsilent k hk)⟩

/-! ## Nodes that keep to themselves -/

/-- The rules of these nodes ask for such nodes only. -/
def Closed (v : View) (S : NodeRef → Prop) : Prop := ∀ n, S n → AsksOnly S (v.rule n)

variable {S : NodeRef → Prop}

/-- What is pending elsewhere makes no difference to them. -/
theorem Resolves.of_closed {n : NodeRef} {t : Ty} (h : Resolves v pending n t) (hS : v.Closed S)
    (hn : S n) {others : List NodeRef} (hsame : ∀ k, S k → (k ∈ others ↔ k ∈ pending)) :
    Resolves v others n t := by
  induction h generalizing others with
  | pending hmem => exact .pending ((hsame _ hn).mpr hmem)
  | rule types hnot _ ih =>
      refine .rule types (fun hmem => hnot ((hsame _ hn).mp hmem)) fun m hm => ?_
      refine ih m hm (hS _ hn types m hm) fun k hk => ?_
      rw [List.mem_cons, List.mem_cons, hsame k hk]

/-- An inquiry about them has the answer it has on its own. -/
theorem Told.eq_answer {q : Inquiry α} {a : α} (h : v.Told pending q a) (hS : v.Closed S)
    (hq : AsksOnly S q) (hpending : ∀ k ∈ pending, ¬ S k) : a = v.answer q := by
  obtain ⟨types, hasked, rfl⟩ := h
  refine Inquiry.run_eq_of_asked fun m _ hm => ?_
  have hm' : S m := hq types m hm
  refine (v.resolves_iff m _).mp ((hasked m hm).of_closed hS hm' fun k hk => ?_)
  exact ⟨fun hnil => (List.not_mem_nil hnil).elim, fun hmem => (hpending k hmem hk).elim⟩

/-! ## Types -/

/-- The node is a type written in a script, or an import that one may name. -/
def TypeLike (v : View) (n : NodeRef) : Prop :=
  (v.entry n).form.isType = true ∨ ∃ path, (v.entry n).form = .importDecl path

theorem not_typeLike {n : NodeRef} {form : Form} (h : (v.entry n).form = form)
    (htype : form.isType = false) (himport : ∀ path, form ≠ .importDecl path) :
    ¬ v.TypeLike n := by
  rintro (hn | ⟨path, hn⟩)
  · rw [h, htype] at hn
    cases hn
  · exact himport path (h.symm.trans hn)

theorem mem_parts_of_mem_partsOf {n p : NodeRef} {role : Role} (h : p ∈ v.partsOf n role) :
    p.script = n.script ∧ (role, p.node) ∈ (v.entry n).parts := by
  obtain ⟨id, hid, rfl⟩ := List.mem_map.mp h
  exact ⟨rfl, Entry.mem_all_iff.mp hid⟩

theorem mem_parts_of_part? {n p : NodeRef} {role : Role} (h : v.part? n role = some p) :
    p.script = n.script ∧ (role, p.node) ∈ (v.entry n).parts := by
  obtain ⟨id, hid, rfl⟩ := Option.map_eq_some_iff.mp h
  exact ⟨rfl, Entry.mem_all_iff.mp (List.mem_of_mem_head? hid)⟩

section

variable (hv : ∀ id, (v.script id).Parsed)

include hv

theorem typeLike_of_mem_parts {n p : NodeRef} {role : Role} (hform : (v.entry n).form.isCompound)
    (hscript : p.script = n.script) (hpart : (role, p.node) ∈ (v.entry n).parts) :
    v.TypeLike p := by
  obtain ⟨script, p⟩ := p
  obtain rfl : script = n.script := hscript
  have hparsed := hv n.script
  obtain ⟨-, m, child, hm, hchild, hmem⟩ := (hparsed.isOutlined.mem_parts_iff.mp hpart).part
  have hentry : (v.entry n).form = m.form := hparsed.isOutlined.form_eq hm
  rw [hentry] at hform
  have hne : n.node ≠ 0 := by
    intro hzero
    rw [(hparsed.isFile.form_eq_file_iff hm).mpr hzero] at hform
    cases hform
  refine .inl ?_
  rw [show (v.entry ⟨n.script, p⟩).form = child.form from hparsed.isOutlined.form_eq hchild]
  exact Form.isType_of_requires hform (hparsed.isFile.fits hm hne).requires _ hmem

theorem asksOnly_partType {n : NodeRef} (hform : (v.entry n).form.isCompound) (role : Role) :
    AsksOnly v.TypeLike (v.partType n role) := by
  rw [partType]
  split
  · next p hp =>
      obtain ⟨hscript, hpart⟩ := mem_parts_of_part? hp
      exact .typeOf (typeLike_of_mem_parts hv hform hscript hpart)
  · exact .pure _

theorem asksOnly_partTypes {n : NodeRef} (hform : (v.entry n).form.isCompound) (role : Role) :
    AsksOnly v.TypeLike (v.partTypes n role) := by
  have hall : ∀ ns : List NodeRef, (∀ p ∈ ns, v.TypeLike p) →
      AsksOnly v.TypeLike (typesOf ns) := by
    intro ns
    induction ns with
    | nil => intro _; exact .pure _
    | cons p ns ih =>
        intro hns
        obtain ⟨hp, hns⟩ := List.forall_mem_cons.mp hns
        exact (AsksOnly.typeOf hp).bind fun t => (ih hns).bind fun ts => .pure _
  refine hall _ fun p hp => ?_
  obtain ⟨hscript, hpart⟩ := mem_parts_of_mem_partsOf hp
  exact typeLike_of_mem_parts hv hform hscript hpart

/-- A type asks for the types it is made of, or for the import that it names. -/
theorem typeLike_closed : v.Closed v.TypeLike := by
  intro n hn
  rcases hn with hn | ⟨path, hn⟩
  · have hpart (hform : (v.entry n).form.isCompound) := asksOnly_partType hv hform
    have hparts (hform : (v.entry n).form.isCompound) := asksOnly_partTypes hv hform
    rw [rule]
    cases hform : (v.entry n).form with
    | primitiveType _ | badType => exact .pure _
    | namedType segments =>
        show AsksOnly v.TypeLike (v.namedType n segments)
        rw [namedType]
        split
        · exact .pure _
        · next decl fallback htarget =>
            refine (AsksOnly.typeOf ?_).bind fun t => .pure _
            exact .inr (Environment.form_of_namedTarget_imported htarget)
    | arrayType | listType => exact (hpart (by rw [hform]; rfl) _).bind fun t => .pure _
    | mapType =>
        have hcompound : (v.entry n).form.isCompound := by rw [hform]; rfl
        exact (hpart hcompound _).bind fun k => (hpart hcompound _).bind fun t => .pure _
    | funcType =>
        have hcompound : (v.entry n).form.isCompound := by rw [hform]; rfl
        exact (hpart hcompound _).bind fun t => (hparts hcompound _).bind fun ps => .pure _
    | intersectionType => exact (hparts (by rw [hform]; rfl) _).bind fun ts => .pure _
    | _ =>
        rw [hform] at hn
        cases hn
  · rw [rule, hn]
    exact .pure _

/-- What an expand function adds to is a type. -/
theorem typeLike_target {id : ScriptId} {d : Declaration} {target : NodeId} {required : Nat}
    (hd : (v.script id).Knows d) (hdetail : d.detail = .expand target required) :
    v.TypeLike ⟨id, target⟩ := by
  have hparsed := hv id
  obtain ⟨m, hm, hintroduces⟩ := hparsed.exists_introduces hd
  obtain ⟨hform, htarget⟩ := hintroduces.target_eq target required hdetail
  have hne : d.node ≠ 0 := by
    intro hzero
    rw [(hparsed.isFile.form_eq_file_iff hm).mpr hzero] at hform
    cases hform
  have hrequires := (hparsed.isFile.fits hm hne).requires
  rw [hform] at hrequires
  obtain ⟨node, rest, hparts, htype⟩ := hrequires
  -- The target is the first part, so it comes right behind the node.
  obtain ⟨form, span, parts⟩ := m
  cases parts with
  | nil => cases hparts
  | cons role first others =>
      cases hparts
      have hlisted : (Role.target, d.node + 1) ∈
          (Node.mk form span (.cons .target node others)).parts.numbered (d.node + 1) :=
        List.mem_cons_self
      have hfirst : (Parts.cons .target node others).preorder[0]? = some node := by
        cases node
        rfl
      have hchild : (v.script id).tree.preorder[d.node + 1]? = some node := by
        rw [Node.getElem?_part hm hlisted, Nat.sub_self]
        exact hfirst
      obtain rfl : target = d.node + 1 := htarget
      exact .inl ((congrArg Form.isType (hparsed.isOutlined.form_eq hchild)).trans htype)

end

/-- The members of a class depend on types alone. -/
theorem asksOnly_membersOf (hv : ∀ id, (v.script id).Parsed) (hplain : v.Plain) (c : ClassType) :
    AsksOnly v.TypeLike (v.membersOf (.classType c)) := by
  have hexpands : ∀ ss : List Symbol, v.AllOffered ss →
      AsksOnly v.TypeLike (v.expandsFor (.classType c) ss) := by
    intro ss
    induction ss with
    | nil => intro _; exact .pure _
    | cons s ss ih =>
        intro hss
        obtain ⟨hs, hss⟩ := List.forall_mem_cons.mp hss
        refine AsksOnly.bind ?_ fun t => (ih hss).bind fun others => .pure _
        unfold expandTarget
        split
        · next id d target required => exact .typeOf (typeLike_target hv hs rfl)
        · exact .pure _
  rw [membersOf, if_neg (by simp [Ty.isAny]), ownMembers]
  exact (AsksOnly.pure _).bind fun own => (hexpands _ hplain.expands_offered).bind fun _ => .pure _

theorem asksOnly_memberCandidates (hv : ∀ id, (v.script id).Parsed) (hplain : v.Plain)
    (c : ClassType) (name : Text) :
    AsksOnly v.TypeLike (v.memberCandidates (.classType c) name) := by
  rw [memberCandidates]
  split
  · exact .pure _
  · exact (asksOnly_membersOf hv hplain c).bind fun _ => .pure _

theorem asksOnly_operatorCandidates (hv : ∀ id, (v.script id).Parsed) (hplain : v.Plain)
    (c : ClassType) (op : Operator) :
    AsksOnly v.TypeLike (v.operatorCandidates (.classType c) op) :=
  (asksOnly_membersOf hv hplain c).bind fun _ => .pure _

end View

end Zensight
