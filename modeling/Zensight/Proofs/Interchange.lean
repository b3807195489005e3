import Zensight.Proofs.Equivalence
import Zensight.Proofs.Subtyping

/-!
# Equal types are interchangeable

How well a type fits is decided by comparing types, by their constituents and by what classes
declare. Comparing is an equivalence, so it does not tell equal types apart. What classes
declare could: two classes of one name count as equal, and each brings a declaration of its own.
Only the constituents of the type that is to fit are ever asked for what they declare, so it is
enough that these have the declarations which their names denote.
-/

namespace Zensight

namespace Ty

/-- The type itself, or one that it is an intersection of, however deeply nested. -/
inductive Comprises : Ty → Ty → Prop where
  | self (t : Ty) : Comprises t t
  | constituent {cs : List Ty} {c t : Ty} : c ∈ cs → Comprises c t → Comprises (.intersection cs) t

/-- The classes that the type comprises have the declarations that their names denote. -/
def Denoted (denotes : Text → Option ClassRef) (t : Ty) : Prop :=
  ∀ c, t.Comprises (.classType c) → c.Denoted denotes

theorem Denoted.constituent {denotes : Text → Option ClassRef} {cs : List Ty}
    (h : (intersection cs).Denoted denotes) : ∀ c ∈ cs, c.Denoted denotes :=
  fun _ hmem d hd => h d (.constituent hmem hd)

/-! ## Equal types are written alike -/

mutual

theorem text_eq_of_equal : (t u : Ty) → t.equal u = true → t.text = u.text
  | .basic a, u, h => by
    cases u with
    | basic b => rw [eq_of_beq h]
    | _ => cases h
  | .array t, u, h => by
    cases u with
    | array u =>
        rw [text, text, textThen, textThen, textThen_eq, textThen_eq, text_eq_of_equal t u h]
    | _ => cases h
  | .list t, u, h => by
    cases u with
    | list u =>
        rw [text, text, textThen, textThen, textThen_eq, textThen_eq, text_eq_of_equal t u h]
    | _ => cases h
  | .map k v, u, h => by
    cases u with
    | map l w =>
        rw [equal, Bool.and_eq_true] at h
        rw [text, text, textThen, textThen, textThen_eq k, textThen_eq l, textThen_eq v,
          textThen_eq w, text_eq_of_equal k l h.1, text_eq_of_equal v w h.2]
    | _ => cases h
  | .mapEntry k v, u, h => by
    cases u with
    | mapEntry l w => exact eq_of_beq h
    | _ => cases h
  | .function ps r, u, h => by
    cases u with
    | function qs r' => exact eq_of_beq h
    | _ => cases h
  | .intersection cs, u, h => by
    cases u with
    | intersection ds =>
        rw [text, text, textThen, textThen, textsThen_eq, textsThen_eq,
          texts_eq_of_equalAll cs ds h]
    | _ => cases h
  | .classType c, u, h => by
    cases u with
    | classType d => rw [text, text, textThen, textThen, eq_of_beq h]
    | _ => cases h

theorem texts_eq_of_equalAll : (ts us : List Ty) → equalAll ts us = true →
    ts.map text = us.map text
  | [], us, h => by
    cases us with
    | nil => rfl
    | cons u us => cases h
  | t :: ts, us, h => by
    cases us with
    | nil => cases h
    | cons u us =>
        rw [equalAll, Bool.and_eq_true] at h
        rw [List.map_cons, List.map_cons, text_eq_of_equal t u h.1, texts_eq_of_equalAll ts us h.2]

end

/-! ## Equal types fit alike -/

theorem equal_congr {t t' u u' : Ty} (ht : t.equal t' = true) (hu : u.equal u' = true) :
    t.equal u = t'.equal u' := by
  rw [Bool.eq_iff_iff, equal_iff_seen, equal_iff_seen, (equal_iff_seen t t').mp ht,
    (equal_iff_seen u u').mp hu]

theorem isAny_congr {t t' : Ty} (h : t.equal t' = true) : t.isAny = t'.isAny := by
  have hany : ∀ u : Ty, u.isAny = u.equal .any := by
    intro u
    rw [Bool.eq_iff_iff, isAny_iff]
    constructor
    · intro hu
      rw [hu]
      exact equal_refl _
    · intro hu
      cases u with
      | basic b => rw [eq_of_beq hu]
      | _ => cases hu
  rw [hany, hany]
  exact equal_congr h (equal_refl _)

variable {h : Hierarchy} {denotes : Text → Option ClassRef}

/-- Of the type that is wanted, a class looks at the name only. -/
theorem rank_classType_congr (c : ClassType) {u u' : Ty} (hu : u.equal u' = true) :
    (classType c).rank h u = (classType c).rank h u' := by
  have hself := equal_congr (equal_refl (classType c)) hu
  rw [rank.eq_def, rank.eq_def, hself, isAny_congr hu]
  cases u with
  | classType k =>
      cases u' with
      | classType l =>
          have hname : k.name = l.name := eq_of_beq hu
          simp only [hname]
      | _ => cases hu
  | _ => cases u' <;> first | rfl | cases hu

mutual

theorem rank_congr : (t t' : Ty) → {u u' : Ty} → t.Denoted denotes → t'.Denoted denotes →
    t.equal t' = true → u.equal u' = true → t.rank h u = t'.rank h u'
  | .classType c, t', u, u', hden, hden', ht, hu => by
    cases t' with
    | classType d =>
        -- One name with one declaration is one class.
        have hcd : c = d := (hden c (.self _)).eq_of_name (hden' d (.self _)) (eq_of_beq ht)
        rw [hcd]
        exact rank_classType_congr d hu
    | _ => cases ht
  | .intersection cs, t', u, u', hden, hden', ht, hu => by
    cases t' with
    | intersection ds =>
        rw [rank.eq_def, rank.eq_def, equal_congr ht hu, isAny_congr ht, isAny_congr hu]
        simp only [anyFits_congr cs ds hden.constituent hden'.constituent ht hu]
    | _ => cases ht
  | .basic _, t', u, u', _, _, ht, hu | .array _, t', u, u', _, _, ht, hu
  | .list _, t', u, u', _, _, ht, hu | .map _ _, t', u, u', _, _, ht, hu
  | .mapEntry _ _, t', u, u', _, _, ht, hu | .function _ _, t', u, u', _, _, ht, hu => by
    rw [rank.eq_def, rank.eq_def, equal_congr ht hu, isAny_congr ht, isAny_congr hu]
    cases t' <;> first | rfl | cases ht

theorem anyFits_congr : (cs ds : List Ty) → {u u' : Ty} → (∀ c ∈ cs, c.Denoted denotes) →
    (∀ d ∈ ds, d.Denoted denotes) → equalAll cs ds = true → u.equal u' = true →
    anyFits h cs u = anyFits h ds u'
  | [], ds, u, u', _, _, hds, _ => by
    cases ds with
    | nil => rfl
    | cons d ds => cases hds
  | c :: cs, ds, u, u', hden, hden', hds, hu => by
    cases ds with
    | nil => cases hds
    | cons d ds =>
        rw [equalAll, Bool.and_eq_true] at hds
        obtain ⟨hc, hcs⟩ := List.forall_mem_cons.mp hden
        obtain ⟨hd, hds'⟩ := List.forall_mem_cons.mp hden'
        rw [anyFits, anyFits, rank_congr c d hc hd hds.1 hu,
          anyFits_congr cs ds hcs hds' hds.2 hu]

end

/-- Counting as equal is an equivalence, equal types are written alike, and they fit alike: each
side of a question how well one type fits another may be replaced by an equal one, as long as the
classes among the constituents have the declarations that their names denote. -/
theorem equal_interchangeable (h : Hierarchy) (denotes : Text → Option ClassRef) :
    Equivalence (fun t u : Ty => t.equal u = true) ∧
    (∀ t u : Ty, t.equal u = true → t.text = u.text) ∧
    ∀ t t' u u' : Ty, t.Denoted denotes → t'.Denoted denotes →
      t.equal t' = true → u.equal u' = true → t.rank h u = t'.rank h u' :=
  ⟨⟨equal_refl, equal_symm, equal_trans⟩, text_eq_of_equal,
    fun t t' _ _ hden hden' => rank_congr t t' hden hden'⟩

end Ty

/-- An intersection with a class of `roundabout` at the end. -/
def roundaboutRow (t : Ty) : Ty :=
  .intersection [t, .intersection [.classType (roundabout.classNamed (txt "a"))]]

theorem roundaboutRow_denoted {t : Ty} (ht : t.Denoted roundabout.denotes) :
    (roundaboutRow t).Denoted roundabout.denotes := by
  intro c hc
  cases hc with
  | constituent hmem hc =>
      rcases List.mem_pair.mp hmem with rfl | rfl
      · exact ht c hc
      · cases hc with
        | constituent hmem hc =>
            cases List.mem_singleton.mp hmem
            cases hc
            exact roundabout.denoted_classNamed _

/-- Two map entries that are written alike, and a class with its declaration and without. -/
theorem roundabout_interchangeable :
    let t := roundaboutRow (.mapEntry .int (.array (.function [] .int)))
    let t' := roundaboutRow (.mapEntry .int (.function [] (.array .int)))
    let u := Ty.classType (roundabout.classNamed (txt "d"))
    let u' := Ty.classType { name := txt "d" }
    t.Denoted roundabout.denotes ∧ t'.Denoted roundabout.denotes ∧ t.equal t' = true ∧
      u.equal u' = true ∧ t.rank roundabout.hierarchy u = t'.rank roundabout.hierarchy u' ∧
      t.rank roundabout.hierarchy u = .inherit := by
  intro t t' u u'
  have ht : t.Denoted roundabout.denotes := roundaboutRow_denoted fun _ hc => by cases hc
  have ht' : t'.Denoted roundabout.denotes := roundaboutRow_denoted fun _ hc => by cases hc
  have htt : t.equal t' = true := by decide +kernel
  have huu : u.equal u' = true := by decide +kernel
  have hrank := (Ty.equal_interchangeable roundabout.hierarchy roundabout.denotes).2.2
  exact ⟨ht, ht', htt, huu, hrank t t' u u' ht ht' htt huu, by decide +kernel⟩

end Zensight
