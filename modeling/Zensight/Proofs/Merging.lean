import Mathlib.Data.List.FinRange
import Zensight.Proofs.Guard

/-!
# Merging lists of members

Of the members with one conflict key a merged list keeps the first, and it keeps the order. All
that follows from this needs nothing of what a key is, so it is shown for the first symbols of
each key in any one list (`Symbol.firsts`). The induction always has some keys `seen` already:
keeping is then the same as keeping among what has been kept before (`firsts_firsts`), and a list
goes on after another with the keys of the other seen (`firsts_append`). Together they let a part
of a list be merged in advance, which is what an intersection inside of another does.
-/

namespace Zensight

namespace Symbol

/-- The first symbol of each key that is not among those seen, in order. -/
def firsts (key : Symbol → Text) (seen : List Text) (ss : List Symbol) : List Symbol :=
  firstOfEachKey seen (ss.map fun s => (key s, s))

variable {key : Symbol → Text} {seen seen' : List Text} {ss ts : List Symbol}

@[simp] theorem firsts_nil : firsts key seen [] = [] := rfl

theorem firsts_cons (s : Symbol) :
    firsts key seen (s :: ss) =
      if key s ∈ seen then firsts key seen ss else s :: firsts key (key s :: seen) ss := by
  simp only [firsts, List.map_cons, firstOfEachKey, List.contains_iff_mem]

/-- Only which keys are seen matters. -/
theorem firsts_congr (h : ∀ k, k ∈ seen ↔ k ∈ seen') :
    firsts key seen ss = firsts key seen' ss := by
  induction ss generalizing seen seen' with
  | nil => rfl
  | cons s ss ih =>
      have hcons : ∀ k, k ∈ key s :: seen ↔ k ∈ key s :: seen' := by
        intro k
        rw [List.mem_cons, List.mem_cons, h]
      rw [firsts_cons, firsts_cons, ih h, ih hcons]
      simp only [h]

theorem firsts_append :
    firsts key seen (ss ++ ts) = firsts key seen ss ++ firsts key (seen ++ ss.map key) ts := by
  induction ss generalizing seen with
  | nil => simp
  | cons s ss ih =>
      rw [List.cons_append, firsts_cons, firsts_cons, ih, ih]
      split
      · next hs =>
          have hseen : firsts key (seen ++ ss.map key) ts =
              firsts key (seen ++ (s :: ss).map key) ts :=
            firsts_congr fun k => by grind
          rw [hseen]
      · have hseen : firsts key (key s :: seen ++ ss.map key) ts =
            firsts key (seen ++ (s :: ss).map key) ts :=
          firsts_congr fun k => by grind
        rw [hseen, List.cons_append]

/-- Keeping among what is kept drops what either of the two drops. -/
theorem firsts_firsts : firsts key seen (firsts key seen' ss) = firsts key (seen ++ seen') ss := by
  induction ss generalizing seen seen' with
  | nil => rfl
  | cons s ss ih =>
      by_cases hs' : key s ∈ seen'
      · have hs : key s ∈ seen ++ seen' := List.mem_append_right _ hs'
        rw [firsts_cons, firsts_cons, if_pos hs', if_pos hs, ih]
      · rw [firsts_cons s, if_neg hs', firsts_cons, firsts_cons, ih, ih]
        by_cases hs : key s ∈ seen
        · rw [if_pos hs, if_pos (List.mem_append_left _ hs)]
          exact firsts_congr fun k => by grind
        · have hnot : key s ∉ seen ++ seen' := by simp [hs, hs']
          rw [if_neg hs, if_neg hnot]
          congr 1
          exact firsts_congr fun k => by grind

theorem mem_map_firsts {k : Text} :
    k ∈ (firsts key seen ss).map key ↔ k ∈ ss.map key ∧ k ∉ seen := by
  induction ss generalizing seen with
  | nil => simp
  | cons s ss ih =>
      rw [firsts_cons]
      split
      · next hs =>
          rw [ih]
          grind
      · next hs =>
          rw [List.map_cons, List.mem_cons, ih]
          grind

/-- A symbol is kept if no other of its key is seen or stands before it. -/
theorem mem_firsts_iff {s : Symbol} :
    s ∈ firsts key seen ss ↔ ∃ earlier later, ss = earlier ++ s :: later ∧ key s ∉ seen ∧
      ∀ x ∈ earlier, key x ≠ key s := by
  constructor
  · intro hs
    induction ss generalizing seen with
    | nil => cases hs
    | cons t ss ih =>
        rw [firsts_cons] at hs
        split at hs
        · next ht =>
            obtain ⟨earlier, later, rfl, hseen, hearlier⟩ := ih hs
            have hne : key t ≠ key s := fun heq => hseen (heq ▸ ht)
            exact ⟨t :: earlier, later, rfl, hseen, List.forall_mem_cons.mpr ⟨hne, hearlier⟩⟩
        · next ht =>
            rcases List.mem_cons.mp hs with rfl | hs
            · exact ⟨[], ss, rfl, ht, List.forall_mem_nil _⟩
            · obtain ⟨earlier, later, rfl, hseen, hearlier⟩ := ih hs
              rw [List.mem_cons, not_or] at hseen
              have hne : key t ≠ key s := Ne.symm hseen.1
              exact ⟨t :: earlier, later, rfl, hseen.2, List.forall_mem_cons.mpr ⟨hne, hearlier⟩⟩
  · intro ⟨earlier, later, hss, hseen, hearlier⟩
    have hnew : key s ∉ seen ++ earlier.map key := by
      intro hmem
      rcases List.mem_append.mp hmem with hmem | hmem
      · exact hseen hmem
      · obtain ⟨x, hx, heq⟩ := List.mem_map.mp hmem
        exact hearlier x hx heq
    rw [hss, firsts_append, firsts_cons, if_neg hnew]
    simp

/-- Each symbol is kept, or one of its key that stands before it. -/
theorem exists_mem_firsts (key : Symbol → Text) {s : Symbol} {earlier later : List Symbol}
    (hss : ss = earlier ++ s :: later) :
    ∃ x ∈ firsts key [] ss, key x = key s ∧ (x = s ∨ x ∈ earlier) := by
  have hkey : key s ∈ (firsts key [] (earlier ++ [s])).map key := by
    rw [mem_map_firsts]
    simp
  obtain ⟨x, hx, heq⟩ := List.mem_map.mp hkey
  have hmem : x ∈ earlier ++ [s] := by
    obtain ⟨before, after, hsplit, -⟩ := mem_firsts_iff.mp hx
    rw [hsplit]
    simp
  refine ⟨x, ?_, heq, ?_⟩
  · rw [hss, List.append_cons, firsts_append]
    exact List.mem_append_left _ hx
  · rw [List.mem_append, List.mem_singleton] at hmem
    exact hmem.symm

/-- What stands in front may be merged in advance. -/
theorem firsts_absorb : firsts key seen (firsts key [] ss ++ ts) = firsts key seen (ss ++ ts) := by
  rw [firsts_append, firsts_append, firsts_firsts, List.append_nil]
  congr 1
  refine firsts_congr fun k => ?_
  rw [List.mem_append, List.mem_append, mem_map_firsts]
  simp

theorem merge_eq_firsts (typeOf : Symbol → Ty) (groups : List (List Symbol)) :
    merge typeOf groups = firsts (fun s => s.conflictKey (typeOf s)) [] groups.flatten := rfl

end Symbol

/-! ## Intersections of intersections -/

namespace Ty

mutual

/-- The constituents of a type that are no intersections themselves, in order. -/
def leaves : Ty → List Ty
  | intersection cs => leavesAll cs
  | t => [t]

def leavesAll : List Ty → List Ty
  | [] => []
  | t :: ts => t.leaves ++ leavesAll ts

end

mutual

/-- The members of a type if each leaf has its own and an intersection merges, by a given key,
those of its constituents. -/
def membersBy (key : Symbol → Text) (own : Ty → List Symbol) : Ty → List Symbol
  | intersection cs => Symbol.firsts key [] (allMembersBy key own cs)
  | t => own t

def allMembersBy (key : Symbol → Text) (own : Ty → List Symbol) : List Ty → List Symbol
  | [] => []
  | t :: ts => t.membersBy key own ++ allMembersBy key own ts

end

variable {key : Symbol → Text} {own : Ty → List Symbol}

mutual

theorem firsts_membersBy : (t : Ty) → {seen : List Text} → {rest : List Symbol} →
    Symbol.firsts key seen (t.membersBy key own ++ rest) =
      Symbol.firsts key seen (t.leaves.flatMap own ++ rest)
  | .intersection cs, _, _ => by
    rw [membersBy, leaves, Symbol.firsts_absorb]
    exact firsts_allMembersBy cs
  | .basic _, _, _ | .array _, _, _ | .list _, _, _ | .map _ _, _, _ | .mapEntry _ _, _, _
  | .function _ _, _, _ | .classType _, _, _ => by
    simp [membersBy, leaves]

theorem firsts_allMembersBy : (ts : List Ty) → {seen : List Text} → {rest : List Symbol} →
    Symbol.firsts key seen (allMembersBy key own ts ++ rest) =
      Symbol.firsts key seen ((leavesAll ts).flatMap own ++ rest)
  | [], _, _ => rfl
  | t :: ts, _, _ => by
    rw [allMembersBy, leavesAll, List.flatMap_append, List.append_assoc, List.append_assoc,
      firsts_membersBy t, Symbol.firsts_append, firsts_allMembersBy ts, ← Symbol.firsts_append]

end

/-- An intersection has the first member of each key among those of its leaves. -/
theorem membersBy_intersection (cs : List Ty) :
    (intersection cs).membersBy key own = Symbol.firsts key [] ((leavesAll cs).flatMap own) := by
  have h : Symbol.firsts key [] (allMembersBy key own cs ++ []) =
      Symbol.firsts key [] ((leavesAll cs).flatMap own ++ []) := firsts_allMembersBy cs
  rwa [List.append_nil, List.append_nil] at h

mutual

theorem leaves_of_mem_leaves : (t : Ty) → ∀ u ∈ t.leaves, u.leaves = [u]
  | .intersection cs => by
    rw [leaves]
    exact leaves_of_mem_leavesAll cs
  | .basic _ | .array _ | .list _ | .map _ _ | .mapEntry _ _ | .function _ _ | .classType _ => by
    simp [leaves]

theorem leaves_of_mem_leavesAll : (ts : List Ty) → ∀ u ∈ leavesAll ts, u.leaves = [u]
  | [] => by simp [leavesAll]
  | t :: ts => by
    intro u hu
    rw [leavesAll, List.mem_append] at hu
    rcases hu with hu | hu
    · exact leaves_of_mem_leaves t u hu
    · exact leaves_of_mem_leavesAll ts u hu

end

theorem leavesAll_eq_self {ts : List Ty} (h : ∀ t ∈ ts, t.leaves = [t]) : leavesAll ts = ts := by
  induction ts with
  | nil => rfl
  | cons t ts ih =>
      obtain ⟨ht, hts⟩ := List.forall_mem_cons.mp h
      rw [leavesAll, ht, ih hts, List.singleton_append]

mutual

theorem ownMembers?_eq_membersBy (h : Hierarchy) : (t : Ty) → (t.ownMembers? h).toList.flatten =
    t.membersBy (fun s => s.conflictKey (s.statedType?.getD .any))
      fun u => (u.ownMembers? h).toList.flatten
  | .intersection cs => by
    rw [ownMembers?, membersBy, Symbol.merge_eq_firsts, ownMemberGroups_eq_allMembersBy h cs]
    simp
  | .basic _ | .array _ | .list _ | .map _ _ | .mapEntry _ _ | .function _ _ | .classType _ => by
    simp [membersBy]

theorem ownMemberGroups_eq_allMembersBy (h : Hierarchy) : (ts : List Ty) →
    (ownMemberGroups h ts).flatten =
      allMembersBy (fun s => s.conflictKey (s.statedType?.getD .any))
        (fun u => (u.ownMembers? h).toList.flatten) ts
  | [] => rfl
  | t :: ts => by
    rw [ownMemberGroups, allMembersBy, List.flatten_append, ownMembers?_eq_membersBy h t,
      ownMemberGroups_eq_allMembersBy h ts]

end

end Ty

/-! ## Merging in a view -/

theorem Inquiry.run_mapM {α β : Type} (types : NodeRef → Ty) (f : α → Inquiry β) (xs : List α) :
    (xs.mapM f).run types = xs.map fun x => (f x).run types := by
  have hloop : ∀ (xs : List α) (acc : List β), (List.mapM.loop f xs acc).run types =
      acc.reverse ++ xs.map fun x => (f x).run types := by
    intro xs
    induction xs with
    | nil =>
        intro acc
        rw [List.map_nil, List.append_nil]
        rfl
    | cons x xs ih =>
        intro acc
        rw [List.mapM.loop, run_bind, ih]
        simp
  exact hloop xs []

namespace View

variable (v : View) (types : NodeRef → Ty)

/-- The type of a symbol, the types of nodes being known. -/
abbrev typeGiven (s : Symbol) : Ty := (v.symbolType s).run types

theorem run_conflictKey (s : Symbol) :
    (v.conflictKey s).run types = s.conflictKey (v.typeGiven types s) := by
  rw [conflictKey]
  split
  · rw [Inquiry.run_bind, Inquiry.run_pure]
  · next hkind =>
      simp only [Inquiry.run_pure, Symbol.conflictKey, if_neg hkind]

theorem run_merge (groups : List (List Symbol)) :
    (v.merge groups).run types = Symbol.merge (v.typeGiven types) groups := by
  rw [merge, Inquiry.run_bind, Inquiry.run_pure, Inquiry.run_mapM, Symbol.merge]
  congr 2
  funext s
  rw [Inquiry.run_bind, Inquiry.run_pure, run_conflictKey]

mutual

theorem run_ownMembers_eq_membersBy : (t : Ty) → (v.ownMembers t).run types =
    t.membersBy (fun s => s.conflictKey (v.typeGiven types s)) fun u => (v.ownMembers u).run types
  | .intersection cs => by
    rw [ownMembers, Ty.membersBy, Inquiry.run_bind, run_merge, Symbol.merge_eq_firsts,
      run_ownMemberGroups_eq_allMembersBy cs]
  | .basic _ | .array _ | .list _ | .map _ _ | .mapEntry _ _ | .function _ _ | .classType _ => by
    simp [Ty.membersBy]

theorem run_ownMemberGroups_eq_allMembersBy : (ts : List Ty) →
    ((v.ownMemberGroups ts).run types).flatten =
      Ty.allMembersBy (fun s => s.conflictKey (v.typeGiven types s))
        (fun u => (v.ownMembers u).run types) ts
  | [] => rfl
  | t :: ts => by
    rw [ownMemberGroups, Inquiry.run_bind, Inquiry.run_bind, Inquiry.run_pure, Ty.allMembersBy,
      List.flatten_cons, run_ownMembers_eq_membersBy t, run_ownMemberGroups_eq_allMembersBy ts]

end

end View

end Zensight
