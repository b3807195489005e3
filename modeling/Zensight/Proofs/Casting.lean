import Zensight.Proofs.Guard
import Zensight.Proofs.Interchange
import Zensight.Types.ClassTable

/-!
# What casters add to subtyping

With a context, a type also fits if it has an `as` operator to something that fits. The context
is handed down to the constituents of an intersection, and the intersection and each constituent
are asked for casters of their own; the result of a caster is judged without the context. So a
type that fits by casting does so by one caster, of one constituent, and the rest is the way down
to that constituent.

A context may ask for what it answers from. All that matters here is that its questions have
answers, whoever gives them (`Answering`): a context of plain functions is one case, a view whose
nodes have types another.
-/

namespace Zensight

/-- One who answers everything that computations in `m` ask. -/
structure Answering (m : Type → Type) [Monad m] where
  run : {α : Type} → m α → α
  run_pure : ∀ {α : Type} (a : α), run (pure a) = a
  run_bind : ∀ {α β : Type} (q : m α) (f : α → m β), run (q >>= f) = run (f (run q))

attribute [simp] Answering.run_pure Answering.run_bind

/-- Where nothing is asked, nothing needs an answer. -/
def Answering.plain : Answering Id := ⟨fun a => a, fun _ => rfl, fun _ _ => rfl⟩

/-- One who knows the types of nodes. -/
def Inquiry.answering (types : NodeRef → Ty) : Answering Inquiry :=
  ⟨Inquiry.run types, run_pure types, run_bind types⟩

variable {m : Type → Type} [Monad m] {r : Answering m} {h : Hierarchy} {ctx : Context m}

/-- The symbol is an `as` operator to something that fits where `u` is wanted, casters left
aside. -/
def Answering.CastsBy (r : Answering m) (h : Hierarchy) (ctx : Context m) (s : Symbol) (u : Ty) :
    Prop :=
  s.operator? = some .as ∧ ∃ params result, r.run (ctx.typeOf s) = .function params result ∧
    result.rank h u ≠ .mismatch

/-- Among the members of `t` is a caster to something that fits where `u` is wanted. -/
def Answering.Casts (r : Answering m) (h : Hierarchy) (ctx : Context m) (t u : Ty) : Prop :=
  ∃ s ∈ r.run (ctx.membersOf t), r.CastsBy h ctx s u

theorem Answering.run_ite {α : Type} (p : Prop) [Decidable p] (q q' : m α) :
    r.run (if p then q else q') = if p then r.run q else r.run q' := by
  split <;> rfl

namespace Context

theorem run_castsAmong_iff {u : Ty} {ss : List Symbol} :
    r.run (ctx.castsAmong h u ss) = true ↔ ∃ s ∈ ss, r.CastsBy h ctx s u := by
  induction ss with
  | nil => simp [castsAmong]
  | cons s ss ih =>
      rw [List.exists_mem_cons_iff, ← ih, castsAmong, Answering.run_ite]
      split
      · next has =>
          rw [r.run_bind, Answering.CastsBy]
          cases htype : r.run (ctx.typeOf s) with
          | function params result =>
              have hfits := Rank.matched_iff (result.rank h u)
              cases hmatched : (result.rank h u).matched <;> simp_all
          | _ => simp
      · next has => simp [Answering.CastsBy, has]

theorem run_casts_iff {t u : Ty} : r.run (ctx.casts h t u) = true ↔ r.Casts h ctx t u := by
  rw [casts, r.run_bind, run_castsAmong_iff, Answering.Casts]

end Context

namespace Ty

theorem comprises_intersection {cs : List Ty} {d : Ty} :
    (intersection cs).Comprises d ↔ d = intersection cs ∨ ∃ c ∈ cs, c.Comprises d := by
  constructor
  · intro hd
    cases hd with
    | self => exact .inl rfl
    | constituent hmem hd => exact .inr ⟨_, hmem, hd⟩
  · intro hd
    rcases hd with rfl | ⟨c, hmem, hd⟩
    · exact .self _
    · exact .constituent hmem hd

/-- A type that is no intersection comprises itself. -/
theorem comprises_iff_eq {t d : Ty} (ht : ∀ cs, t ≠ intersection cs) :
    t.Comprises d ↔ d = t := by
  constructor
  · intro hd
    cases hd with
    | self => rfl
    | constituent => exact absurd rfl (ht _)
  · intro hd
    rw [hd]
    exact .self t

section Fitted

variable {t u : Ty} (fits : m Bool)

/-- The end of a ranking: what fits by itself or by a caster of its own is as good as inherited. -/
theorem run_rankFitted_ne_mismatch_iff :
    r.run (do
      let fits ← fits
      if fits then return Rank.inherit
      else if ← ctx.casts h t u then return .inherit
      else return .mismatch) ≠ .mismatch ↔ r.run fits = true ∨ r.Casts h ctx t u := by
  rw [← Context.run_casts_iff, r.run_bind]
  cases r.run fits <;> cases hcasts : r.run (ctx.casts h t u) <;> simp [hcasts]

theorem run_rankFitted_ne_self :
    r.run (do
      let fits ← fits
      if fits then return Rank.inherit
      else if ← ctx.casts h t u then return .inherit
      else return .mismatch) ≠ .self := by
  rw [r.run_bind]
  cases r.run fits <;> cases hcasts : r.run (ctx.casts h t u) <;> simp [hcasts]

end Fitted

mutual

theorem run_rankIn_ne_mismatch_iff : (t u : Ty) →
    (r.run (t.rankIn h ctx u) ≠ .mismatch ↔
      t.rank h u ≠ .mismatch ∨ ∃ c, t.Comprises c ∧ r.Casts h ctx c u)
  | .intersection cs, u => by
    unfold rankIn rank
    split
    · simp
    · split
      · simp
      · rw [run_rankFitted_ne_mismatch_iff, run_anyFitsIn_iff cs u]
        have hparts : (∃ c, (intersection cs).Comprises c ∧ r.Casts h ctx c u) ↔
            r.Casts h ctx (intersection cs) u ∨
              ∃ c ∈ cs, ∃ d, c.Comprises d ∧ r.Casts h ctx d u := by
          simp only [comprises_intersection]
          grind
        rw [hparts]
        by_cases hfits : anyFits h cs u = true <;> simp [hfits, or_comm]
  | .classType c, u => by
    unfold rankIn rank
    split
    · simp
    · split
      · simp
      · have hself : ∀ d, (classType c).Comprises d ↔ d = classType c := fun d =>
          comprises_iff_eq fun cs => by simp
        simp only [hself, exists_eq_left]
        split
        · rw [run_rankFitted_ne_mismatch_iff, r.run_pure]
          simp
        · rw [run_rankFitted_ne_mismatch_iff, r.run_pure]
          simp
  | .basic _, u | .array _, u | .list _, u | .map _ _, u | .mapEntry _ _, u
  | .function _ _, u => by
    unfold rankIn rank
    split
    · simp
    · split
      · simp
      · rw [run_rankFitted_ne_mismatch_iff, r.run_pure]
        simp [comprises_iff_eq]

theorem run_anyFitsIn_iff : (cs : List Ty) → (u : Ty) →
    (r.run (anyFitsIn h ctx cs u) = true ↔
      anyFits h cs u = true ∨ ∃ c ∈ cs, ∃ d, c.Comprises d ∧ r.Casts h ctx d u)
  | [], u => by
    unfold anyFitsIn anyFits
    simp
  | c :: cs, u => by
    have hc := run_rankIn_ne_mismatch_iff c u
    have hcs := run_anyFitsIn_iff cs u
    unfold anyFitsIn anyFits
    rw [← Rank.matched_iff, ← Rank.matched_iff] at hc
    rw [r.run_bind, Answering.run_ite, List.exists_mem_cons_iff, Bool.or_eq_true, or_or_or_comm,
      ← hc, ← hcs]
    split
    · next hfits => simp [hfits]
    · next hfits => simp [hfits]

end

/-- Only equal types fit as the type itself, with casters and without. -/
theorem run_rankIn_eq_self_iff {t u : Ty} :
    r.run (t.rankIn h ctx u) = .self ↔ t.equal u = true := by
  unfold rankIn
  split
  · next heq => simp [heq]
  · next hne =>
      rw [iff_false_right hne]
      split
      · simp
      · cases t with
        | classType c => cases u <;> exact run_rankFitted_ne_self _
        | _ => exact run_rankFitted_ne_self _

/-- A context adds casters and nothing else. What fits without it fits as it did. What does not
fit without it is as good as inherited just when the type, or one that it is an intersection of,
has among its members an `as` operator to something that fits without the context. -/
theorem rankIn_adds_casters (r : Answering m) (h : Hierarchy) (ctx : Context m) (t u : Ty) :
    (t.rank h u ≠ .mismatch → r.run (t.rankIn h ctx u) = t.rank h u) ∧
    (t.rank h u = .mismatch →
      (r.run (t.rankIn h ctx u) = .inherit ↔ ∃ c, t.Comprises c ∧ r.Casts h ctx c u) ∧
      ((¬ ∃ c, t.Comprises c ∧ r.Casts h ctx c u) → r.run (t.rankIn h ctx u) = .mismatch)) := by
  have hself : r.run (t.rankIn h ctx u) = .self ↔ t.rank h u = .self :=
    run_rankIn_eq_self_iff.trans rank_eq_self_iff.symm
  have hfits : r.run (t.rankIn h ctx u) ≠ .mismatch ↔
      t.rank h u ≠ .mismatch ∨ ∃ c, t.Comprises c ∧ r.Casts h ctx c u :=
    run_rankIn_ne_mismatch_iff t u
  cases hin : r.run (t.rankIn h ctx u) <;> cases hout : t.rank h u <;> simp_all

end Ty

/-- Classes of which each casts to the next. -/
def casters : ClassTable := [
  ⟨txt "a", [], [Symbol.operation .as (.classType ⟨txt "b", some (.listed 1)⟩) []]⟩,
  ⟨txt "b", [], [Symbol.operation .as (.classType ⟨txt "c", some (.listed 2)⟩) []]⟩,
  ⟨txt "c", [], []⟩]

/-- An `a` inside of intersections goes for a `b`, but not by way of `b` for a `c`. -/
theorem casters_rankIn :
    let t := Ty.intersection [.int, .intersection [.classType (casters.classNamed (txt "a"))]]
    let b := Ty.classType (casters.classNamed (txt "b"))
    let c := Ty.classType (casters.classNamed (txt "c"))
    Answering.plain.run (t.rankIn casters.hierarchy casters.context .any) = .inherit ∧
      Answering.plain.run (t.rankIn casters.hierarchy casters.context b) = .inherit ∧
      Answering.plain.run (t.rankIn casters.hierarchy casters.context c) = .mismatch := by
  intro t b c
  have hany := Ty.rankIn_adds_casters .plain casters.hierarchy casters.context t .any
  have hb := Ty.rankIn_adds_casters .plain casters.hierarchy casters.context t b
  have hc := Ty.rankIn_adds_casters .plain casters.hierarchy casters.context t c
  refine ⟨hany.1 (by decide +kernel), ?_, ?_⟩
  · have ha : t.Comprises (.classType (casters.classNamed (txt "a"))) :=
      .constituent (List.mem_cons_of_mem _ List.mem_cons_self)
        (.constituent List.mem_cons_self (.self _))
    exact (hb.2 (by decide +kernel)).1.mpr
      ⟨_, ha, Context.run_casts_iff.mp (by decide +kernel)⟩
  · apply (hc.2 (by decide +kernel)).2
    intro hcasts
    obtain ⟨d, hd, hcasts⟩ := hcasts
    rw [← Context.run_casts_iff] at hcasts
    simp only [t, Ty.comprises_intersection, List.mem_cons, List.not_mem_nil, or_false,
      exists_eq_or_imp, exists_eq_left] at hd
    rcases hd with rfl | hd | rfl | hd
    · exact absurd hcasts (by decide +kernel)
    · cases hd
      exact absurd hcasts (by decide +kernel)
    · exact absurd hcasts (by decide +kernel)
    · cases hd
      exact absurd hcasts (by decide +kernel)

/-- In a view whose nodes have types, a type fits by itself or by one caster. -/
theorem View.run_rank_ne_mismatch_iff (v : View) (types : NodeRef → Ty) (t u : Ty) :
    (v.rank t u).run types ≠ .mismatch ↔
      t.rank v.hierarchy u ≠ .mismatch ∨
        ∃ c, t.Comprises c ∧ (Inquiry.answering types).Casts v.hierarchy v.context c u :=
  Ty.run_rankIn_ne_mismatch_iff (r := Inquiry.answering types) t u

end Zensight
