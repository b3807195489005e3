import Zensight.Proofs.ClassMembers
import Zensight.Proofs.Equality
import Zensight.Proofs.Interchange
import Zensight.Proofs.Merging
import Zensight.Proofs.Substitutability

/-!
# What an intersection drops

Which members of its constituents an intersection has is decided by their conflict keys, and a
key is a text: the name of a member and, if it can be called, the types of its parameters as they
are written. No parenthesis opens in the name of a member of a class, so a key tells the name, and
whether it belongs to a field. It does not tell a function from an operator, whose name a function
may have as well, nor which types a row of parameters was made of. Members whose keys agree for no
better reason are `Symbol.Confused`.

An intersection drops a member exactly if an earlier one conflicts with it or is confused with it
(`Environment.conflictKey_eq_iff`).
-/

namespace Zensight

/-! ## Conflicts -/

namespace Symbol

variable (type : Symbol → Ty)

/-- It is an executable with these parameters. -/
def Takes (m : Symbol) (ps : List Ty) : Prop := ∃ result, type m = .function ps result

/-- Two members of which a caller can mean one only: fields of one name, or functions, or
operators, of one name with equal parameters. -/
def Conflicts (x m : Symbol) : Prop :=
  x.name = m.name ∧ x.kind = m.kind ∧
    (m.kind = .var ∨ (m.kind = .function ∨ m.kind = .operator) ∧
      ∃ ps qs, x.Takes type ps ∧ m.Takes type qs ∧ Ty.equalAll ps qs = true)

/-- Two members that are called differently or with different arguments, but have one name and
parameters that are written alike. -/
def Confused (x m : Symbol) : Prop :=
  x.name = m.name ∧ x.kind.isExecutable = true ∧ m.kind.isExecutable = true ∧
    ∃ ps qs, x.Takes type ps ∧ m.Takes type qs ∧
      Text.join (txt ",") (ps.map Ty.text) = Text.join (txt ",") (qs.map Ty.text) ∧
      (x.kind ≠ m.kind ∨ Ty.equalAll ps qs = false)

variable {type} {x m : Symbol}

theorem Takes.unique {ps qs : List Ty} (h : m.Takes type ps) (h' : m.Takes type qs) : ps = qs := by
  obtain ⟨r, hr⟩ := h
  obtain ⟨s, hs⟩ := h'
  cases hr.symm.trans hs
  rfl

theorem isExecutable_of_kind (h : m.kind = .function ∨ m.kind = .operator) :
    m.kind.isExecutable = true := by
  rcases h with h | h <;> rw [h] <;> rfl

theorem conflictKey_of_field (h : m.kind.isExecutable = false) (t : Ty) :
    m.conflictKey t = m.name := by
  simp [conflictKey, h]

theorem conflictKey_of_executable (h : m.kind.isExecutable = true) (ps : List Ty) (result : Ty) :
    m.conflictKey (.function ps result) =
      m.name ++ byte '(' :: (Text.join (txt ",") (ps.map Ty.text) ++ txt ")") := by
  rw [conflictKey, if_pos h, List.append_assoc, List.append_assoc]
  rfl

/-- A field conflicts with fields of its name, and is confused with nothing. -/
theorem conflicts_or_confused_iff_of_field (h : x.kind = .var ∨ m.kind = .var) :
    x.Conflicts type m ∨ x.Confused type m ↔
      x.name = m.name ∧ x.kind = .var ∧ m.kind = .var := by
  constructor
  · rintro (⟨hname, hkind, -⟩ | ⟨-, hx, hm, -⟩)
    · rcases h with h | h
      · exact ⟨hname, h, hkind ▸ h⟩
      · exact ⟨hname, hkind.trans h, h⟩
    · rcases h with h | h
      · rw [h] at hx
        cases hx
      · rw [h] at hm
        cases hm
  · intro ⟨hname, hx, hm⟩
    exact .inl ⟨hname, hx.trans hm.symm, .inl hm⟩

/-- Executables that share their name and how their parameters are written conflict, or are
confused. -/
theorem conflicts_or_confused_iff {ps qs : List Ty}
    (hx : x.kind = .function ∨ x.kind = .operator) (hm : m.kind = .function ∨ m.kind = .operator)
    (hps : x.Takes type ps) (hqs : m.Takes type qs) :
    x.Conflicts type m ∨ x.Confused type m ↔ x.name = m.name ∧
      Text.join (txt ",") (ps.map Ty.text) = Text.join (txt ",") (qs.map Ty.text) := by
  constructor
  · rintro (⟨hname, -, hfield | ⟨-, ps', qs', hps', hqs', hequal⟩⟩ |
      ⟨hname, -, -, ps', qs', hps', hqs', hwritten, -⟩)
    · rcases hm with hm | hm <;> cases hfield.symm.trans hm
    · cases hps.unique hps'
      cases hqs.unique hqs'
      exact ⟨hname, by rw [Ty.texts_eq_of_equalAll ps qs hequal]⟩
    · cases hps.unique hps'
      cases hqs.unique hqs'
      exact ⟨hname, hwritten⟩
  · intro ⟨hname, hwritten⟩
    by_cases hsame : x.kind = m.kind ∧ Ty.equalAll ps qs = true
    · exact .inl ⟨hname, hsame.1, .inr ⟨hm, ps, qs, hps, hqs, hsame.2⟩⟩
    · refine .inr ⟨hname, isExecutable_of_kind hx, isExecutable_of_kind hm, ps, qs, hps, hqs,
        hwritten, ?_⟩
      rwa [not_and_or, Bool.not_eq_true] at hsame

end Symbol

/-! ## The keys of members of classes -/

/-- Is it a function or an operator, such as classes have? -/
def Form.isMethod : Form → Bool
  | funcDecl _ | operatorDecl _ => true
  | _ => false

theorem Text.append_paren_inj {a b s t : Text} (ha : byte '(' ∉ a) (hb : byte '(' ∉ b)
    (h : a ++ byte '(' :: s = b ++ byte '(' :: t) : a = b ∧ s = t := by
  rcases List.append_eq_append_iff.mp h with ⟨c, rfl, hc⟩ | ⟨c, rfl, hc⟩
  · cases c with
    | nil =>
        cases hc
        exact ⟨(List.append_nil a).symm, rfl⟩
    | cons d c =>
        cases hc
        exact absurd (by simp) hb
  · cases c with
    | nil =>
        cases hc
        exact ⟨List.append_nil b, rfl⟩
    | cons d c =>
        cases hc
        exact absurd (by simp) ha

theorem Operator.paren_not_mem_name (op : Operator) : byte '(' ∉ op.name := by
  cases op <;> simp only [name] <;> decide +kernel

/-- A function or an operator has the type of a function, whatever its parameters are. -/
theorem View.typeOf_of_isMethod (v : View) {n : NodeRef} (h : (v.entry n).form.isMethod = true) :
    ∃ ps result, v.typeOf n = .function ps result := by
  have hrule : v.rule n = (v.partType n .result >>= v.signature n) := by
    unfold rule
    generalize (v.entry n).form = form at h
    cases form with
    | funcDecl _ | operatorDecl _ => rfl
    | _ => cases h
  rw [typeOf, typeWithin, if_neg (by simp), hrule, Inquiry.run_bind]
  unfold signature
  rw [Inquiry.run_bind, Inquiry.run_pure]
  exact ⟨_, _, rfl⟩

namespace Environment

variable {e : Environment}

/-- What is known of a member of a class: no parenthesis opens in its name, and it is a field or
has parameters. -/
theorem DeclaresMember.takes {m : Symbol} (h : e.DeclaresMember m) :
    byte '(' ∉ m.name ∧ (m.kind = .var ∨ (m.kind = .function ∨ m.kind = .operator) ∧
      ∃ ps, m.Takes (e.view.typeGiven e.view.typeOf) ps) := by
  cases m with
  | stated s => cases h
  | declared id d =>
      have hd : (e.script id).DeclaresMember d := h
      have htakes (hform : ((e.script id).form d.node).isMethod = true)
          (hplain : e.view.symbolType (.declared id d) = .typeOf ⟨id, d.node⟩) :
          ∃ ps, (Symbol.declared id d).Takes (e.view.typeGiven e.view.typeOf) ps := by
        have hentry : (e.view.entry ⟨id, d.node⟩).form.isMethod = true := hform
        obtain ⟨ps, result, htype⟩ := e.view.typeOf_of_isMethod hentry
        refine ⟨ps, result, ?_⟩
        rw [View.typeGiven, hplain]
        exact htype
      cases hd with
      | field hname hkind => exact ⟨hname, .inl hkind⟩
      | function hname hkind hdetail hform =>
          have hplain : e.view.symbolType (.declared id d) = .typeOf ⟨id, d.node⟩ := by
            rw [View.symbolType, hdetail]
          exact ⟨hname, .inr ⟨.inl hkind, htakes (by rw [hform]; rfl) hplain⟩⟩
      | @operator sign op _ hname hkind hdetail hform =>
          have hplain : e.view.symbolType (.declared id d) = .typeOf ⟨id, d.node⟩ := by
            rw [View.symbolType, hdetail]
          have hbare : byte '(' ∉ (Symbol.declared id d).name := by
            rw [Symbol.name, hname]
            exact op.paren_not_mem_name
          exact ⟨hbare, .inr ⟨.inr hkind, htakes (by rw [hform]; rfl) hplain⟩⟩

/-- The conflict keys of members of classes agree exactly if the members conflict or are
confused. -/
theorem conflictKey_eq_iff {x m : Symbol} (hx : e.DeclaresMember x) (hm : e.DeclaresMember m) :
    x.conflictKey (e.view.typeGiven e.view.typeOf x) =
        m.conflictKey (e.view.typeGiven e.view.typeOf m) ↔
      x.Conflicts (e.view.typeGiven e.view.typeOf) m ∨
        x.Confused (e.view.typeGiven e.view.typeOf) m := by
  obtain ⟨hxname, hxkind⟩ := hx.takes
  obtain ⟨hmname, hmkind⟩ := hm.takes
  have hfield {y : Symbol} (hy : y.kind = .var) : y.kind.isExecutable = false := by
    rw [hy]
    rfl
  -- Only the key of an executable has a parenthesis, so a field and an executable never share one.
  rcases hxkind with hxkind | ⟨hxkind, ps, r, hps⟩ <;>
    rcases hmkind with hmkind | ⟨hmkind, qs, r', hqs⟩
  · rw [Symbol.conflictKey_of_field (hfield hxkind), Symbol.conflictKey_of_field (hfield hmkind),
      Symbol.conflicts_or_confused_iff_of_field (.inl hxkind)]
    simp [hxkind, hmkind]
  · rw [Symbol.conflictKey_of_field (hfield hxkind), hqs,
      Symbol.conflictKey_of_executable (Symbol.isExecutable_of_kind hmkind),
      Symbol.conflicts_or_confused_iff_of_field (.inl hxkind)]
    refine iff_of_false (fun h => hxname ?_) fun h => ?_
    · simp [h]
    · rcases hmkind with hmkind | hmkind <;> cases hmkind.symm.trans h.2.2
  · rw [Symbol.conflictKey_of_field (hfield hmkind), hps,
      Symbol.conflictKey_of_executable (Symbol.isExecutable_of_kind hxkind),
      Symbol.conflicts_or_confused_iff_of_field (.inr hmkind)]
    refine iff_of_false (fun h => hmname ?_) fun h => ?_
    · simp [← h]
    · rcases hxkind with hxkind | hxkind <;> cases hxkind.symm.trans h.2.1
  · rw [hps, hqs, Symbol.conflictKey_of_executable (Symbol.isExecutable_of_kind hxkind),
      Symbol.conflictKey_of_executable (Symbol.isExecutable_of_kind hmkind),
      Symbol.conflicts_or_confused_iff hxkind hmkind ⟨r, hps⟩ ⟨r', hqs⟩]
    constructor
    · intro h
      obtain ⟨hname, hrest⟩ := Text.append_paren_inj hxname hmname h
      exact ⟨hname, List.append_cancel_right hrest⟩
    · intro ⟨hname, hwritten⟩
      rw [hname, hwritten]

end Environment

/-! ## The members of an intersection -/

namespace View

variable (v : View) (types : NodeRef → Ty)

/-- An intersection of classes has the first member of each conflict key. -/
theorem run_ownMembers_classes (cs : List ClassType) :
    (v.ownMembers (.intersection (cs.map .classType))).run types =
      Symbol.firsts (fun s => s.conflictKey (v.typeGiven types s)) []
        (cs.flatMap v.hierarchy.inheritedMembers) := by
  have hleaves : Ty.leavesAll (cs.map .classType) = cs.map .classType :=
    Ty.leavesAll_eq_self (List.forall_mem_map.mpr fun c _ => rfl)
  rw [run_ownMembers_eq_membersBy, Ty.membersBy_intersection, hleaves, List.flatMap_map]
  rfl

theorem run_membersOf_intersection (cs : List Ty) :
    (v.membersOf (.intersection cs)).run types = (v.ownMembers (.intersection cs)).run types ++
      v.fitting types (.intersection cs) ++ v.namesakeMembers (.intersection cs) := by
  rw [membersOf, if_neg (by simp [Ty.isAny])]
  simp only [Inquiry.run_bind, Inquiry.run_pure, run_expandsFor, fitting]

/-- The expand functions that fit a constituent fit the intersection. -/
theorem fitting_subset {c : Ty} {cs : List Ty} (hc : c ∈ cs) :
    v.fitting types c ⊆ v.fitting types (.intersection cs) := by
  intro s hs
  rw [fitting, List.mem_filter, Rank.matched_iff] at hs ⊢
  refine ⟨hs.1, ?_⟩
  have hfits : Ty.anyFits v.hierarchy cs ((v.expandTarget s).run types) = true :=
    Ty.anyFits_iff.mpr ⟨c, hc, hs.2⟩
  unfold Ty.rank
  dsimp only
  rw [hfits]
  split
  · simp
  · split <;> simp

theorem ownMembers_subset (cs : List Ty) :
    (v.ownMembers (.intersection cs)).run types ⊆ (v.membersOf (.intersection cs)).run types := by
  rw [run_membersOf_intersection, List.append_assoc]
  exact List.subset_append_left _ _

/-- Expand functions are never dropped. -/
theorem fitting_subset_members {c : Ty} {cs : List Ty} (hc : c ∈ cs) :
    v.fitting types c ⊆ (v.membersOf (.intersection cs)).run types := by
  intro s hs
  rw [run_membersOf_intersection]
  exact List.mem_append_left _ (List.mem_append_right _ (v.fitting_subset types hc hs))

theorem inheritedMembers_subset (c : ClassType) :
    v.hierarchy.inheritedMembers c ⊆ (v.membersOf (.classType c)).run types := by
  rw [run_membersOf_classType]
  exact List.subset_append_left _ _

/-- A member of a class is an expand function, or is declared in a class. -/
theorem fitting_or_inherited {c : ClassType} {m : Symbol} {front back : List Symbol}
    (h : (v.membersOf (.classType c)).run types = front ++ m :: back) :
    m ∈ v.fitting types (.classType c) ∨
      ∃ rest, v.hierarchy.inheritedMembers c = front ++ m :: rest := by
  rw [run_membersOf_classType] at h
  rcases List.append_eq_append_iff.mp h with ⟨rest, -, hrest⟩ | ⟨rest, hfront, hrest⟩
  · exact .inl (by simp [hrest])
  · cases rest with
    | nil =>
        rw [List.nil_append] at hrest
        exact .inl (by simp [← hrest])
    | cons m' rest =>
        cases hrest
        exact .inr ⟨rest, hfront⟩

end View

/-- Where an element of joined lists comes from. -/
theorem exists_of_flatMap_eq_append {α β : Type} {f : α → List β} {as : List α}
    {earlier later : List β} {b : β} (h : as.flatMap f = earlier ++ b :: later) :
    ∃ before a after front back, as = before ++ a :: after ∧ f a = front ++ b :: back ∧
      earlier = before.flatMap f ++ front := by
  induction as generalizing earlier with
  | nil => simp at h
  | cons a as ih =>
      rw [List.flatMap_cons] at h
      rcases List.append_eq_append_iff.mp h with ⟨rest, rfl, hrest⟩ | ⟨rest, ha, hrest⟩
      · obtain ⟨before, a', after, front, back, rfl, ha', rfl⟩ := ih hrest
        exact ⟨a :: before, a', after, front, back, rfl, ha', by simp⟩
      · cases rest with
        | nil =>
            have hnil : as.flatMap f = [] ++ b :: later := hrest.symm
            obtain ⟨before, a', after, front, back, rfl, ha', hfront⟩ := ih hnil
            refine ⟨a :: before, a', after, front, back, rfl, ha', ?_⟩
            rw [List.flatMap_cons, List.append_assoc, ← hfront, ha, List.append_nil,
              List.append_nil]
        | cons b' rest =>
            cases hrest
            exact ⟨[], a, as, earlier, rest, rfl, ha, by simp⟩

theorem Ty.equalAll_of_written {ps qs : List Ty} (hps : legibleAll ps = true)
    (hqs : legibleAll qs = true)
    (h : Text.join (txt ",") (ps.map text) = Text.join (txt ",") (qs.map text)) :
    equalAll ps qs = true := by
  have hlegible {ts : List Ty} (hts : legibleAll ts = true) :
      (function ts .any).legible = true := by
    rw [legible, hts]
    rfl
  have htext (ts : List Ty) : (function ts .any).text =
      txt "function(" ++ (Text.join (txt ",") (ts.map text) ++ (txt ")" ++ Ty.any.text)) := by
    rw [text, textThen, textsThen_eq, text]
  have halike : (function ps .any).text = (function qs .any).text := by rw [htext, htext, h]
  cases same_of_text (hlegible hps) (hlegible hqs) halike with
  | function hall _ => exact equalAll_of_same ps qs hall

namespace Environment

variable {e : Environment} {cs : List ClassType}

/-- The members of the constituents, inherited ones included, are members of classes. -/
theorem Reachable.declaresMember_of_mem (he : e.Reachable) (hcs : ∀ c ∈ cs, c.FoundedIn e)
    {m : Symbol} (hm : m ∈ cs.flatMap e.hierarchy.inheritedMembers) : e.DeclaresMember m := by
  obtain ⟨c, hc, hm⟩ := List.mem_flatMap.mp hm
  exact he.declaresMember (hcs c hc) hm

theorem answer_ownMembers_classes (e : Environment) (cs : List ClassType) :
    e.view.answer (e.view.ownMembers (.intersection (cs.map .classType))) =
      Symbol.firsts (fun s => s.conflictKey (e.view.typeGiven e.view.typeOf s)) []
        (cs.flatMap e.hierarchy.inheritedMembers) :=
  e.view.run_ownMembers_classes e.view.typeOf cs

/-- An own member of a constituent is kept, or an earlier one is that it conflicts or is confused
with. -/
theorem Reachable.kept_or_dropped (he : e.Reachable) (hcs : ∀ c ∈ cs, c.FoundedIn e)
    {earlier later : List Symbol} {m : Symbol}
    (hsplit : cs.flatMap e.hierarchy.inheritedMembers = earlier ++ m :: later) :
    m ∈ e.view.answer (e.view.ownMembers (.intersection (cs.map .classType))) ∨
      ∃ x ∈ earlier, x ∈ e.view.answer (e.view.ownMembers (.intersection (cs.map .classType))) ∧
        (x.Conflicts (e.view.typeGiven e.view.typeOf) m ∨
          x.Confused (e.view.typeGiven e.view.typeOf) m) := by
  rw [answer_ownMembers_classes]
  obtain ⟨x, hx, hkey, heq | hearlier⟩ := Symbol.exists_mem_firsts
    (fun s => s.conflictKey (e.view.typeGiven e.view.typeOf s)) hsplit
  · exact .inl (heq ▸ hx)
  · have hxm : e.DeclaresMember x := he.declaresMember_of_mem hcs (by simp [hsplit, hearlier])
    have hm : e.DeclaresMember m := he.declaresMember_of_mem hcs (by simp [hsplit])
    exact .inr ⟨x, hearlier, hx, (conflictKey_eq_iff hxm hm).mp hkey⟩

/-- It is kept exactly if it conflicts and is confused with no earlier one. -/
theorem Reachable.mem_ownMembers_iff (he : e.Reachable) (hcs : ∀ c ∈ cs, c.FoundedIn e)
    (m : Symbol) :
    m ∈ e.view.answer (e.view.ownMembers (.intersection (cs.map .classType))) ↔
      ∃ earlier later, cs.flatMap e.hierarchy.inheritedMembers = earlier ++ m :: later ∧
        ∀ x ∈ earlier, ¬ (x.Conflicts (e.view.typeGiven e.view.typeOf) m ∨
          x.Confused (e.view.typeGiven e.view.typeOf) m) := by
  rw [answer_ownMembers_classes, Symbol.mem_firsts_iff]
  refine exists₂_congr fun earlier later => and_congr_right fun hsplit => ?_
  have hm : e.DeclaresMember m := he.declaresMember_of_mem hcs (by simp [hsplit])
  rw [and_iff_right List.not_mem_nil]
  refine forall₂_congr fun x hx => ?_
  have hxm : e.DeclaresMember x := he.declaresMember_of_mem hcs (by simp [hsplit, hx])
  rw [← conflictKey_eq_iff hxm hm]

/-- If the parameters are legible, the one is an operator and the other a function. -/
theorem DeclaresMember.kinds_of_confused {x m : Symbol} {ps qs : List Ty}
    (hx : e.DeclaresMember x) (hm : e.DeclaresMember m)
    (h : x.Confused (e.view.typeGiven e.view.typeOf) m)
    (hps : x.Takes (e.view.typeGiven e.view.typeOf) ps)
    (hqs : m.Takes (e.view.typeGiven e.view.typeOf) qs) (hlegible : Ty.legibleAll ps = true)
    (hlegible' : Ty.legibleAll qs = true) :
    Ty.equalAll ps qs = true ∧
      (x.kind = .function ∧ m.kind = .operator ∨ x.kind = .operator ∧ m.kind = .function) := by
  obtain ⟨-, hxkind, hmkind, ps', qs', hps', hqs', hwritten, hdiffers⟩ := h
  cases hps.unique hps'
  cases hqs.unique hqs'
  have hequal := Ty.equalAll_of_written hlegible hlegible' hwritten
  have hne : x.kind ≠ m.kind := hdiffers.resolve_right (by simp [hequal])
  have hexecutable {y : Symbol} (hy : e.DeclaresMember y) (hkind : y.kind.isExecutable = true) :
      y.kind = .function ∨ y.kind = .operator := by
    rcases hy.takes.2 with hfield | ⟨hy, -⟩
    · rw [hfield] at hkind
      cases hkind
    · exact hy
  refine ⟨hequal, ?_⟩
  rcases hexecutable hx hxkind with hx | hx <;> rcases hexecutable hm hmkind with hm | hm
  · exact absurd (hx.trans hm.symm) hne
  · exact .inl ⟨hx, hm⟩
  · exact .inr ⟨hx, hm⟩
  · exact absurd (hx.trans hm.symm) hne

/-- Every member of a constituent is a member of an intersection of classes, or an earlier one is
that conflicts or is confused with it. Expand functions aside, these are the only members that are
dropped. If the parameters are legible, members are only confused when the one is an operator and
the other a function of its name. -/
theorem Reachable.intersection_drops (he : e.Reachable) (hcs : ∀ c ∈ cs, c.FoundedIn e) :
    let members := fun t => e.view.answer (e.view.membersOf t)
    let own := fun t => e.view.answer (e.view.ownMembers t)
    let type := fun m => e.view.answer (e.view.symbolType m)
    let whole := Ty.intersection (cs.map .classType)
    (∀ earlier m later, cs.flatMap (fun c => members (.classType c)) = earlier ++ m :: later →
      m ∈ members whole ∨
        ∃ x ∈ earlier, x ∈ members whole ∧ (x.Conflicts type m ∨ x.Confused type m)) ∧
    (∀ m, m ∈ own whole ↔ ∃ earlier later,
      cs.flatMap (fun c => own (.classType c)) = earlier ++ m :: later ∧
        ∀ x ∈ earlier, ¬ (x.Conflicts type m ∨ x.Confused type m)) ∧
    ∀ x ∈ cs.flatMap fun c => own (.classType c), ∀ m ∈ cs.flatMap fun c => own (.classType c),
      x.Confused type m → ∀ ps qs, x.Takes type ps → m.Takes type qs →
      Ty.legibleAll ps = true → Ty.legibleAll qs = true →
        Ty.equalAll ps qs = true ∧
          (x.kind = .function ∧ m.kind = .operator ∨ x.kind = .operator ∧ m.kind = .function) := by
  intro members own type whole
  have hwhole : ∀ m ∈ own whole, m ∈ members whole := e.view.ownMembers_subset e.view.typeOf _
  refine ⟨fun earlier m later hsplit => ?_, fun m => ?_, fun x hx m hm hconfused => ?_⟩
  · obtain ⟨before, c, after, front, back, rfl, hc, rfl⟩ := exists_of_flatMap_eq_append hsplit
    rcases e.view.fitting_or_inherited e.view.typeOf hc with hm | ⟨rest, hinherited⟩
    · exact .inl (e.view.fitting_subset_members e.view.typeOf (List.mem_map_of_mem (by simp)) hm)
    · have hown : (before ++ c :: after).flatMap e.hierarchy.inheritedMembers =
          (before.flatMap e.hierarchy.inheritedMembers ++ front) ++
            m :: (rest ++ after.flatMap e.hierarchy.inheritedMembers) := by
        have hc' : e.hierarchy.inheritedMembers c = front ++ m :: rest := hinherited
        simp [hc']
      rcases he.kept_or_dropped hcs hown with hkept | ⟨x, hx, hkept, hconflict⟩
      · exact .inl (hwhole m hkept)
      · have hearlier : x ∈ before.flatMap (fun c => members (.classType c)) ++ front := by
          rcases List.mem_append.mp hx with hx | hx
          · obtain ⟨k, hk, hx⟩ := List.mem_flatMap.mp hx
            refine List.mem_append_left _ (List.mem_flatMap.mpr ⟨k, hk, ?_⟩)
            exact e.view.inheritedMembers_subset e.view.typeOf k hx
          · exact List.mem_append_right _ hx
        exact .inr ⟨x, hearlier, hwhole x hkept, hconflict⟩
  · exact he.mem_ownMembers_iff hcs m
  · intro ps qs hps hqs hlegible hlegible'
    exact (he.declaresMember_of_mem hcs hx).kinds_of_confused (he.declaresMember_of_mem hcs hm)
      hconfused hps hqs hlegible hlegible'

/-- Two classes that agree in a field and a function. What else there is in them are a function and
an operator, and the function bears the name of the operator. -/
def rivals : Environment :=
  ((({ root := txt "scripts" } : Environment).intern
    (Script.parse (txt "a") (txt "scripts.a")
      (txt "zenClass A\x7bvar x as int;function f(y as int);function ADD(y as int);\x7d" ++
        txt "zenClass B\x7bvar x as bool;function f(z as int);" ++
        txt "operator +(y as int);\x7d"))).2).replace 0

def rivalClasses : List ClassType := (rivals.script 0).classTypes 0

/-- The members of the classes, one after another. -/
def rivalMembers : List Symbol :=
  rivalClasses.flatMap fun c => rivals.view.answer (rivals.view.membersOf (.classType c))

/-- The members of the intersection of the classes. -/
def sharedMembers : List Symbol :=
  rivals.view.answer (rivals.view.membersOf (.intersection (rivalClasses.map .classType)))

/-- The operator is dropped, though no other member is one. -/
theorem operator_dropped :
    (rivalMembers.map fun m => (m.name, m.kind)) =
      [(txt "x", .var), (txt "f", .function), (txt "ADD", .function),
        (txt "x", .var), (txt "f", .function), (txt "ADD", .operator)] ∧
    (sharedMembers.map fun m => (m.name, m.kind)) =
      [(txt "x", .var), (txt "f", .function), (txt "ADD", .function)] := by
  decide +kernel

theorem rivals_intersection_drops :
    rivals.Reachable ∧ (∀ c ∈ rivalClasses, c.FoundedIn rivals) ∧
    ∃ earlier m, rivalMembers = earlier ++ [m] ∧ m.kind = .operator ∧ m ∉ sharedMembers ∧
      ∃ x ∈ earlier, x ∈ sharedMembers ∧
        x.Confused (fun m => rivals.view.answer (rivals.view.symbolType m)) m := by
  have he : rivals.Reachable := .replace (.read _ _ _ (.new _)) (by decide)
  have hcs : ∀ c ∈ rivalClasses, c.FoundedIn rivals := fun c hc => he.classTypes_foundedIn hc
  have hlast : (rivalMembers.map fun m => (m.name, m.kind)).getLast? =
      some (txt "ADD", .operator) := by
    rw [operator_dropped.1]
    rfl
  rw [List.getLast?_map] at hlast
  obtain ⟨m, hm, hnamed⟩ := Option.map_eq_some_iff.mp hlast
  have hkind : m.kind = .operator := (Prod.mk.inj hnamed).2
  obtain ⟨earlier, hsplit⟩ := List.getLast?_eq_some_iff.mp hm
  have hnone : ∀ x ∈ sharedMembers, x.kind ≠ .operator := by
    intro x hx hoperator
    have hmem : (x.name, x.kind) ∈ sharedMembers.map fun m => (m.name, m.kind) :=
      List.mem_map_of_mem hx
    rw [operator_dropped.2, hoperator] at hmem
    simp at hmem
  have hdropped : m ∉ sharedMembers := fun hkept => hnone m hkept hkind
  refine ⟨he, hcs, earlier, m, hsplit, hkind, hdropped, ?_⟩
  obtain hkept | ⟨x, hx, hkept, hconflicts | hconfused⟩ :=
    (he.intersection_drops hcs).1 earlier m [] hsplit
  · exact absurd hkept hdropped
  · exact absurd (hconflicts.2.1.trans hkind) (hnone x hkept)
  · exact ⟨x, hx, hkept, hconfused⟩

end Environment

end Zensight
