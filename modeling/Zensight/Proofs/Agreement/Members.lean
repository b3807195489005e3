import Mathlib.Data.List.Basic
import Zensight.Proofs.Agreement.Inquiries

/-!
# Views that agree on some scripts

`View.Agrees P v v'` says that two views of the same scripts with the same registry
tell the same of every class that is declared in a script of which `P` holds, and
that neither the registry nor those classes lead to any other script. Members of
types and subtyping are then the same in both, for types within `P`.
-/

namespace Zensight

variable {P : ScriptId → Prop}

namespace Hierarchy

/-- The same members and super classes for classes within `P`, which stay there. -/
structure Agrees (P : ScriptId → Prop) (h h' : Hierarchy) : Prop where
  size_eq : h'.size = h.size
  members_eq : ∀ c : ClassType, c.Within P → h'.members c = h.members c
  members_within : ∀ c : ClassType, c.Within P → ∀ s ∈ h.members c, s.Within P
  supers_eq : ∀ c : ClassType, c.Within P → h'.supers c = h.supers c
  supers_within : ∀ c : ClassType, c.Within P → ∀ d ∈ h.supers c, d.Within P

namespace Agrees

variable {h h' : Hierarchy} {c : ClassType}

theorem extendLineage (hh : h.Agrees P h') : ∀ (fuel : Nat) (seen : List ClassType)
    (c : ClassType), (∀ d ∈ seen, d.Within P) → c.Within P →
    h'.extendLineage fuel seen c = h.extendLineage fuel seen c ∧
      ∀ d ∈ h.extendLineage fuel seen c, d.Within P := by
  intro fuel
  induction fuel with
  | zero => intro seen c hseen _; exact ⟨rfl, hseen⟩
  | succ fuel ih =>
      intro seen c hseen hc
      -- The super classes are added one after another.
      have hfold : ∀ (cs seen : List ClassType), (∀ d ∈ seen, d.Within P) →
          (∀ d ∈ cs, d.Within P) →
          cs.foldl (h'.extendLineage fuel) seen = cs.foldl (h.extendLineage fuel) seen ∧
            ∀ d ∈ cs.foldl (h.extendLineage fuel) seen, d.Within P := by
        intro cs
        induction cs with
        | nil => intro seen hseen _; exact ⟨rfl, hseen⟩
        | cons c cs ihcs =>
            intro seen hseen hcs
            obtain ⟨heq, hwithin⟩ := ih seen c hseen (hcs c List.mem_cons_self)
            rw [List.foldl_cons, List.foldl_cons, heq]
            exact ihcs _ hwithin fun d hd => hcs d (List.mem_cons_of_mem _ hd)
      rw [Hierarchy.extendLineage, Hierarchy.extendLineage]
      split
      · exact ⟨rfl, hseen⟩
      · rw [hh.supers_eq c hc]
        refine hfold _ _ ?_ (hh.supers_within c hc)
        simpa [or_imp, forall_and] using ⟨hseen, hc⟩

theorem lineage (hh : h.Agrees P h') (hc : c.Within P) :
    h'.lineage c = h.lineage c ∧ ∀ d ∈ h.lineage c, d.Within P := by
  rw [Hierarchy.lineage, Hierarchy.lineage, hh.size_eq]
  exact hh.extendLineage _ [] c (by simp) hc

theorem inherits (hh : h.Agrees P h') (hc : c.Within P) (name : Text) :
    h'.inherits c name = h.inherits c name := by
  rw [Hierarchy.inherits, Hierarchy.inherits, (hh.lineage hc).1]

theorem inheritedMembers (hh : h.Agrees P h') (hc : c.Within P) :
    h'.inheritedMembers c = h.inheritedMembers c ∧
      ∀ s ∈ h.inheritedMembers c, s.Within P := by
  obtain ⟨heq, hwithin⟩ := hh.lineage hc
  rw [Hierarchy.inheritedMembers, Hierarchy.inheritedMembers, heq]
  refine ⟨?_, fun s hs => ?_⟩
  · exact List.flatMap_congr fun d hd => hh.members_eq d (hwithin d hd)
  · obtain ⟨d, hd, hs⟩ := List.mem_flatMap.mp hs
    exact hh.members_within d (hwithin d hd) s hs

mutual

theorem rank (hh : h.Agrees P h') : (t : Ty) → (u : Ty) → t.Within P →
    t.rank h' u = t.rank h u
  | .intersection cs, u, ht => by
    rw [Ty.rank, Ty.rank, hh.anyFits cs u (Ty.within_intersection.mp ht)]
  | .classType c, u, ht => by
    unfold Ty.rank
    simp only [hh.inherits (Ty.within_classType.mp ht)]
  | .basic _, _, _ | .array _, _, _ | .list _, _, _ | .map _ _, _, _ | .mapEntry _ _, _, _
  | .function _ _, _, _ => by unfold Ty.rank; rfl

theorem anyFits (hh : h.Agrees P h') : (cs : List Ty) → (u : Ty) → (∀ c ∈ cs, c.Within P) →
    Ty.anyFits h' cs u = Ty.anyFits h cs u
  | [], _, _ => by rw [Ty.anyFits, Ty.anyFits]
  | c :: cs, u, hcs => by
    rw [Ty.anyFits, Ty.anyFits, hh.rank c u (hcs c List.mem_cons_self),
      hh.anyFits cs u fun d hd => hcs d (List.mem_cons_of_mem _ hd)]

end

end Agrees

end Hierarchy

/-- Nothing that the registry knows leads out of `P`. -/
structure Registry.Within (P : ScriptId → Prop) (r : Registry) : Prop where
  globals : ∀ s ∈ r.globals, s.Within P
  classes : ∀ c ∈ r.classes, c.Within P
  named : ∀ name, ∀ c ∈ r.classNamed? name, c.Within P
  expands : ∀ s ∈ r.expands, s.Within P

namespace View

open Inquiry (Same)

/-- Views of the same scripts with the same registry that differ at most in what
they tell of classes outside `P`. -/
structure Agrees (P : ScriptId → Prop) (v v' : View) : Prop where
  scripts_eq : v'.env.scripts = v.env.scripts
  registry_eq : v'.registry = v.registry
  registry : v.registry.Within P
  hierarchy : v.hierarchy.Agrees P v'.hierarchy

/-- All symbols of a list keep to `P`. -/
abbrev SymbolsWithin (P : ScriptId → Prop) (ss : List Symbol) : Prop := ∀ s ∈ ss, s.Within P

/-- All types of a list keep to `P`. -/
abbrev TypesWithin (P : ScriptId → Prop) (ts : List Ty) : Prop := ∀ t ∈ ts, t.Within P

namespace Agrees

variable {v v' : View}

theorem symbolType (_ : v.Agrees P v') {s : Symbol} (hs : s.Within P) :
    Same P (Ty.Within P) (v.symbolType s) (v'.symbolType s) := by
  cases s with
  | stated s =>
      refine .pure ?_
      cases ht : s.type with
      | none => exact .basic
      | some t => exact hs t ht
  | declared id d =>
      have hid : P id := hs
      unfold View.symbolType
      dsimp only
      split
      · split
        · next c hc => exact .pure (.classType (Declaration.within_classType? hid hc))
        · exact .pure .basic
      · exact .typeOf hid
      · exact .typeOf hid

theorem symbolType? (hv : v.Agrees P v') {s : Option Symbol} (hs : ∀ t ∈ s, t.Within P) :
    Same P (Ty.Within P) (v.symbolType? s) (v'.symbolType? s) := by
  cases s with
  | none => exact .pure .basic
  | some s => exact hv.symbolType (hs s rfl)

theorem conflictKey (hv : v.Agrees P v') {s : Symbol} (hs : s.Within P) :
    Same P (fun _ => True) (v.conflictKey s) (v'.conflictKey s) := by
  unfold View.conflictKey
  split
  · exact (hv.symbolType hs).bind fun _ _ => .pure trivial
  · exact .pure trivial

/-- What is kept of a list with keys was in it. -/
theorem within_firstOfEachKey {keyed : List (Text × Symbol)} (h : ∀ x ∈ keyed, x.2.Within P)
    (seen : List Text) : SymbolsWithin P (Symbol.firstOfEachKey seen keyed) := by
  induction keyed generalizing seen with
  | nil => exact List.forall_mem_nil _
  | cons x keyed ih =>
      obtain ⟨key, s⟩ := x
      have hrest := ih fun x hx => h x (List.mem_cons_of_mem _ hx)
      rw [Symbol.firstOfEachKey]
      split
      · exact hrest seen
      · exact List.forall_mem_cons.mpr ⟨h (key, s) List.mem_cons_self, hrest (key :: seen)⟩

theorem merge (hv : v.Agrees P v') {groups : List (List Symbol)}
    (h : ∀ group ∈ groups, SymbolsWithin P group) :
    Same P (SymbolsWithin P) (v.merge groups) (v'.merge groups) := by
  refine Same.bind (Same.mapM (G := fun x => x.2.Within P) fun s hs => ?_) fun keyed hkeyed =>
    .pure (within_firstOfEachKey hkeyed [])
  obtain ⟨group, hgroup, hs⟩ := List.mem_flatten.mp hs
  exact (hv.conflictKey (h group hgroup s hs)).bind fun _ _ => .pure (h group hgroup s hs)

mutual

theorem ownMembers (hv : v.Agrees P v') : (t : Ty) → t.Within P →
    Same P (SymbolsWithin P) (v.ownMembers t) (v'.ownMembers t)
  | .classType c, ht => by
    obtain ⟨heq, hwithin⟩ := hv.hierarchy.inheritedMembers (Ty.within_classType.mp ht)
    unfold View.ownMembers
    rw [heq]
    exact .pure hwithin
  | .intersection cs, ht => by
    unfold View.ownMembers
    exact (hv.ownMemberGroups cs (Ty.within_intersection.mp ht)).bind fun groups hgroups =>
      hv.merge hgroups
  | .basic _, ht | .array _, ht | .list _, ht | .map _ _, ht | .mapEntry _ _, ht
  | .function _ _, ht => by
    unfold View.ownMembers
    exact .pure ht.builtinMembers

theorem ownMemberGroups (hv : v.Agrees P v') : (ts : List Ty) → TypesWithin P ts →
    Same P (fun groups => ∀ group ∈ groups, SymbolsWithin P group)
      (v.ownMemberGroups ts) (v'.ownMemberGroups ts)
  | [], _ => by
    unfold View.ownMemberGroups
    exact .pure (List.forall_mem_nil _)
  | t :: ts, hts => by
    unfold View.ownMemberGroups
    refine (hv.ownMembers t (hts t List.mem_cons_self)).bind fun group hgroup => ?_
    refine (hv.ownMemberGroups ts fun u hu => hts u (List.mem_cons_of_mem _ hu)).bind
      fun groups hgroups => .pure (List.forall_mem_cons.mpr ⟨hgroup, hgroups⟩)

end

theorem expandTarget (_ : v.Agrees P v') {s : Symbol} (hs : s.Within P) :
    Same P (Ty.Within P) (v.expandTarget s) (v'.expandTarget s) := by
  unfold View.expandTarget
  split
  · next id _ _ _ _ _ _ =>
      have hid : P id := hs
      exact .typeOf hid
  · exact .pure .basic

theorem expandsFor (hv : v.Agrees P v') {t : Ty} (ht : t.Within P) (ss : List Symbol)
    (hss : SymbolsWithin P ss) :
    Same P (SymbolsWithin P) (v.expandsFor t ss) (v'.expandsFor t ss) := by
  induction ss with
  | nil => exact .pure (List.forall_mem_nil _)
  | cons s ss ih =>
      have hs := hss s List.mem_cons_self
      refine (hv.expandTarget hs).bind fun target _ => ?_
      refine (ih fun u hu => hss u (List.mem_cons_of_mem _ hu)).bind fun others hothers => ?_
      rw [hv.hierarchy.rank t target ht]
      split
      · exact .pure (List.forall_mem_cons.mpr ⟨hs, hothers⟩)
      · exact .pure hothers

theorem namesakeMembers (hv : v.Agrees P v') (t : Ty) :
    v'.namesakeMembers t = v.namesakeMembers t ∧ SymbolsWithin P (v.namesakeMembers t) := by
  unfold View.namesakeMembers
  rw [hv.registry_eq]
  split
  · exact ⟨rfl, List.forall_mem_nil _⟩
  · have hclass : ∀ c ∈ v.registry.classes.filter (·.simpleName == t.text), c.Within P :=
      fun c hc => hv.registry.classes c (List.mem_filter.mp hc).1
    refine ⟨List.flatMap_congr fun c hc => hv.hierarchy.members_eq c (hclass c hc), ?_⟩
    intro s hs
    obtain ⟨c, hc, hs⟩ := List.mem_flatMap.mp hs
    exact hv.hierarchy.members_within c (hclass c hc) s hs

theorem membersOf (hv : v.Agrees P v') {t : Ty} (ht : t.Within P) :
    Same P (SymbolsWithin P) (v.membersOf t) (v'.membersOf t) := by
  unfold View.membersOf
  split
  · exact .pure (List.forall_mem_nil _)
  · refine (hv.ownMembers t ht).bind fun own hown => ?_
    rw [hv.registry_eq]
    refine (hv.expandsFor ht _ hv.registry.expands).bind fun expands hexpands => ?_
    obtain ⟨heq, hnamesakes⟩ := hv.namesakeMembers t
    rw [heq]
    exact .pure (List.forall_mem_append.mpr ⟨List.forall_mem_append.mpr ⟨hown, hexpands⟩,
      hnamesakes⟩)

theorem memberCandidates (hv : v.Agrees P v') {t : Ty} (ht : t.Within P) (name : Text) :
    Same P (SymbolsWithin P) (v.memberCandidates t name) (v'.memberCandidates t name) := by
  unfold View.memberCandidates
  split
  · exact .pure (List.forall_mem_nil _)
  · exact (hv.membersOf ht).bind fun ss hss => .pure fun s hs => hss s (List.mem_filter.mp hs).1

theorem memberNamed? (hv : v.Agrees P v') {t : Ty} (ht : t.Within P) (name : Text) :
    Same P (fun s => ∀ u ∈ s, u.Within P) (v.memberNamed? t name) (v'.memberNamed? t name) :=
  (hv.memberCandidates ht name).bind fun _ hss => .pure fun u hu =>
    hss u (List.mem_of_mem_head? hu)

theorem operatorCandidates (hv : v.Agrees P v') {t : Ty} (ht : t.Within P) (op : Operator) :
    Same P (SymbolsWithin P) (v.operatorCandidates t op) (v'.operatorCandidates t op) :=
  (hv.membersOf ht).bind fun _ hss => .pure fun s hs => hss s (List.mem_filter.mp hs).1

/-! ## Subtyping with casters -/

theorem castsAmong (hv : v.Agrees P v') (u : Ty) (ss : List Symbol) (hss : SymbolsWithin P ss) :
    Same P (fun _ => True) (v.context.castsAmong v.hierarchy u ss)
      (v'.context.castsAmong v'.hierarchy u ss) := by
  induction ss with
  | nil => exact .pure trivial
  | cons s ss ih =>
      have hrest := ih fun w hw => hss w (List.mem_cons_of_mem _ hw)
      unfold Context.castsAmong
      split
      · refine Same.bind (hv.symbolType (hss s List.mem_cons_self)) fun t ht => ?_
        cases ht with
        | @function ps result _ hresult =>
            dsimp only
            rw [hv.hierarchy.rank result u hresult]
            split
            · exact .pure trivial
            · exact hrest
        | _ => exact hrest
      · exact hrest

theorem casts (hv : v.Agrees P v') {t : Ty} (ht : t.Within P) (u : Ty) :
    Same P (fun _ => True) (v.context.casts v.hierarchy t u)
      (v'.context.casts v'.hierarchy t u) :=
  Same.bind (hv.membersOf ht) fun ss hss => hv.castsAmong u ss hss

/-- The part of a rank that is settled by inheritance and casters, once it is known
whether a constituent or an inherited class fits. -/
theorem rankFitted (hv : v.Agrees P v') {t u : Ty} (ht : t.Within P) {fits fits' : Inquiry Bool}
    (hfits : Same P (fun _ => True) fits fits') :
    Same P (fun _ => True)
      (do
        let fits ← fits
        if fits then return Rank.inherit
        else if ← v.context.casts v.hierarchy t u then return .inherit
        else return .mismatch)
      (do
        let fits ← fits'
        if fits then return Rank.inherit
        else if ← v'.context.casts v'.hierarchy t u then return .inherit
        else return .mismatch) := by
  refine hfits.bind fun b _ => ?_
  split
  · exact .pure trivial
  · refine (hv.casts ht u).bind fun c _ => ?_
    split <;> exact .pure trivial

mutual

theorem rank (hv : v.Agrees P v') : (t : Ty) → (u : Ty) → t.Within P →
    Same P (fun _ => True) (v.rank t u) (v'.rank t u)
  | .intersection cs, u, ht => by
    unfold View.rank Ty.rankIn
    split
    · exact .pure trivial
    · split
      · exact .pure trivial
      · exact hv.rankFitted ht (hv.anyFitsIn cs u (Ty.within_intersection.mp ht))
  | .classType c, u, ht => by
    unfold View.rank Ty.rankIn
    split
    · exact .pure trivial
    · split
      · exact .pure trivial
      · dsimp only
        split
        · rw [hv.hierarchy.inherits (Ty.within_classType.mp ht)]
          exact hv.rankFitted ht (.pure trivial)
        · exact hv.rankFitted ht (.pure trivial)
  | .basic _, u, ht | .array _, u, ht | .list _, u, ht | .map _ _, u, ht | .mapEntry _ _, u, ht
  | .function _ _, u, ht => by
    unfold View.rank Ty.rankIn
    split
    · exact .pure trivial
    · split
      · exact .pure trivial
      · exact hv.rankFitted ht (.pure trivial)

theorem anyFitsIn (hv : v.Agrees P v') : (cs : List Ty) → (u : Ty) → TypesWithin P cs →
    Same P (fun _ => True) (Ty.anyFitsIn v.hierarchy v.context cs u)
      (Ty.anyFitsIn v'.hierarchy v'.context cs u)
  | [], _, _ => by
    unfold Ty.anyFitsIn
    exact .pure trivial
  | c :: cs, u, hcs => by
    unfold Ty.anyFitsIn
    refine Same.bind (hv.rank c u (hcs c List.mem_cons_self)) fun r _ => ?_
    split
    · exact .pure trivial
    · exact hv.anyFitsIn cs u fun d hd => hcs d (List.mem_cons_of_mem _ hd)

end

end Agrees

end View

end Zensight
