import Zensight.Proofs.Legibility

/-!
# When equal types are built alike

Types that are built alike count as equal, whatever they are. The other way round a function or
a map entry is known from its text only, so it holds of types whose components are legible there
(`Ty.clear`). No other types could be let in: a type that is not legible is written like one
that is built otherwise (`exists_mistaken`), and functions that take the one or the other are equal.
-/

namespace Zensight.Ty

/-! ## Types that are built alike are equal -/

mutual

theorem textThen_bare : (t : Ty) → (s : Text) → t.bare.textThen s = t.textThen s
  | .basic _, _ => rfl
  | .classType _, _ => rfl
  | .array e, s => by rw [bare, textThen, textThen, textThen_bare e]
  | .list e, s => by rw [bare, textThen, textThen, textThen_bare e]
  | .map k v, s => by rw [bare, textThen, textThen, textThen_bare k, textThen_bare v]
  | .mapEntry k v, s => by rw [bare, textThen, textThen, textThen_bare k, textThen_bare v]
  | .function ps r, s => by
    rw [bare, textThen, textThen, bareAll_eq, textsThen_bare, textThen_bare r]
  | .intersection cs, s => by rw [bare, textThen, textThen, bareAll_eq, textsThen_bare]

theorem textsThen_bare (sep : Text) : (ts : List Ty) → (s : Text) →
    textsThen sep (ts.map bare) s = textsThen sep ts s
  | [], _ => rfl
  | [t], s => textThen_bare t s
  | t :: u :: ts, s => by
    have hrest := textsThen_bare sep (u :: ts) s
    simp only [List.map_cons, textsThen] at hrest ⊢
    rw [textThen_bare t, hrest]

end

theorem text_eq_of_same {t u : Ty} (h : Same t u) : t.text = u.text := by
  rw [text, text, ← textThen_bare t, (same_iff t u).mp h, textThen_bare]

mutual

theorem equal_of_same : (t u : Ty) → Same t u → t.equal u = true
  | .basic b, _, .basic _ => by simp [equal]
  | .array t, .array u, .array h => equal_of_same t u h
  | .list t, .list u, .list h => equal_of_same t u h
  | .map k v, .map l w, .map hk hv => by
    rw [equal, equal_of_same k l hk, equal_of_same v w hv, Bool.and_self]
  | _, _, .mapEntry hk hv => by
    rw [equal, text_eq_of_same (.mapEntry hk hv)]
    exact beq_self_eq_true _
  | _, _, .function hps hr => by
    rw [equal, text_eq_of_same (.function hps hr)]
    exact beq_self_eq_true _
  | .intersection cs, .intersection ds, .intersection h => equalAll_of_same cs ds h
  | _, _, .classType h => by rw [equal, h]; exact beq_self_eq_true _

theorem equalAll_of_same : (ts us : List Ty) → List.Forall₂ Same ts us → equalAll ts us = true
  | _, _, .nil => rfl
  | t :: ts, u :: us, .cons h hs => by
    rw [equalAll, equal_of_same t u h, equalAll_of_same ts us hs, Bool.and_self]

end

/-! ## Equal types that are built alike -/

mutual

/-- Are the components of all functions and map entries legible that are compared? -/
def clear : Ty → Bool
  | .basic _ | .classType _ => true
  | .array e | .list e => e.clear
  | .map k v => k.clear && v.clear
  | .mapEntry k v => k.legible && v.legible
  | .function ps r => legibleAll ps && r.legible
  | .intersection cs => clearAll cs

def clearAll : List Ty → Bool
  | [] => true
  | t :: ts => t.clear && clearAll ts

end

mutual

theorem same_of_equal : (t u : Ty) → t.clear = true → u.clear = true → t.equal u = true →
    Same t u
  | .basic a, .basic b, _, _, h => by
    obtain rfl : a = b := by simpa [equal] using h
    exact .basic a
  | .array t, .array u, ht, hu, h => .array (same_of_equal t u ht hu h)
  | .list t, .list u, ht, hu, h => .list (same_of_equal t u ht hu h)
  | .map k v, .map l w, ht, hu, h => by
    simp only [clear, equal, Bool.and_eq_true] at ht hu h
    exact .map (same_of_equal k l ht.1 hu.1 h.1) (same_of_equal v w ht.2 hu.2 h.2)
  | .mapEntry k v, .mapEntry l w, ht, hu, h => same_of_text ht hu (by simpa [equal] using h)
  | .function ps r, .function qs s, ht, hu, h => same_of_text ht hu (by simpa [equal] using h)
  | .intersection cs, .intersection ds, ht, hu, h => .intersection (same_of_equalAll cs ds ht hu h)
  | .classType c, .classType d, _, _, h => .classType (by simpa [equal] using h)

theorem same_of_equalAll : (ts us : List Ty) → clearAll ts = true → clearAll us = true →
    equalAll ts us = true → List.Forall₂ Same ts us
  | [], [], _, _, _ => .nil
  | t :: ts, u :: us, hts, hus, h => by
    simp only [clearAll, equalAll, Bool.and_eq_true] at hts hus h
    exact .cons (same_of_equal t u hts.1 hus.1 h.1) (same_of_equalAll ts us hts.2 hus.2 h.2)

end

/-! ## Types that are not legible -/

mutual

/-- Are the basic types and the names of classes all as they should be? -/
def wellNamed : Ty → Bool
  | .basic b => Basic.all.contains b
  | .array e | .list e => e.wellNamed
  | .map k v | .mapEntry k v => k.wellNamed && v.wellNamed
  | .function ps r => wellNamedAll ps && r.wellNamed
  | .intersection cs => wellNamedAll cs
  | .classType c => isClassName c.name

def wellNamedAll : List Ty → Bool
  | [] => true
  | t :: ts => t.wellNamed && wellNamedAll ts

end

theorem wellNamedAll_iff (ts : List Ty) :
    wellNamedAll ts = true ↔ ∀ t ∈ ts, t.wellNamed = true := by
  induction ts with
  | nil => simp [wellNamedAll]
  | cons t ts ih => simp [wellNamedAll, ih]

/-- A type built otherwise that is written the same. -/
structure Mistaken (t u : Ty) : Prop where
  wellNamed : u.wellNamed = true
  text_eq : ∀ s, u.textThen s = t.textThen s
  bare_ne : u.bare ≠ t.bare

/-- A row built otherwise that is written the same. -/
structure MistakenRow (sep : Text) (ts us : List Ty) : Prop where
  wellNamed : wellNamedAll us = true
  text_eq : ∀ s, textsThen sep us s = textsThen sep ts s
  bare_ne : us.map bare ≠ ts.map bare

theorem MistakenRow.cons {sep : Text} {ts us : List Ty} (h : MistakenRow sep ts us)
    (hts : ts ≠ []) (hus : us ≠ []) {t : Ty} (ht : t.wellNamed = true) :
    MistakenRow sep (t :: ts) (t :: us) where
  wellNamed := by rw [wellNamedAll, ht, h.wellNamed, Bool.and_self]
  text_eq s := by
    obtain ⟨t', ts, rfl⟩ := List.exists_cons_of_ne_nil hts
    obtain ⟨u', us, rfl⟩ := List.exists_cons_of_ne_nil hus
    rw [textsThen_cons, textsThen_cons, restThen, restThen, h.text_eq]
  bare_ne := by simpa using h.bare_ne

theorem Mistaken.cons {sep : Text} {t u : Ty} (h : Mistaken t u) {ts : List Ty}
    (hts : wellNamedAll ts = true) : MistakenRow sep (t :: ts) (u :: ts) where
  wellNamed := by rw [wellNamedAll, hts, h.wellNamed, Bool.and_self]
  text_eq s := by rw [textsThen_cons, textsThen_cons, h.text_eq]
  bare_ne := by simpa using h.bare_ne

theorem textsThen_join (sep : Text) {ts us : List Ty} (hts : ts ≠ []) (hus : us ≠ []) (s : Text) :
    textsThen sep (ts ++ us) s = textsThen sep ts (sep ++ textsThen sep us s) := by
  obtain ⟨u, us, rfl⟩ := List.exists_cons_of_ne_nil hus
  induction ts with
  | nil => exact absurd rfl hts
  | cons t ts ih =>
      rw [List.cons_append, textsThen_cons, textsThen_cons]
      cases ts with
      | nil => rfl
      | cons t' ts => exact congrArg (fun x => t.textThen (sep ++ x)) (ih (by simp))

theorem map_bare_ne {ts us : List Ty} (h : ts.length ≠ us.length) : ts.map bare ≠ us.map bare :=
  fun heq => h (by simpa using congrArg List.length heq)

/-- Legible constituents that are not so one behind another can be grouped otherwise. -/
theorem exists_regrouped {cs : List Ty} (hne : cs ≠ []) (hnamed : wellNamedAll cs = true)
    (hlegible : legibleAll cs = true) (hrow : legibleRow cs = false) :
    ∃ ds, ds ≠ [] ∧ MistakenRow (txt " & ") cs ds := by
  -- Of a legible intersection the constituents are at least two.
  have htwo {es : List Ty} (h : (intersection es).legible = true) : 2 ≤ es.length := by
    simp only [legible, Bool.and_eq_true, decide_eq_true_eq] at h
    exact h.1
  induction cs with
  | nil => exact absurd rfl hne
  | cons c cs ih =>
      rw [wellNamedAll_iff, List.forall_mem_cons] at hnamed
      rw [legibleAll_iff, List.forall_mem_cons] at hlegible
      cases cs with
      | nil =>
          cases c with
          | intersection es =>
              have hes := htwo hlegible.1
              refine ⟨es, List.ne_nil_of_length_pos (by omega), hnamed.1, fun _ => rfl, ?_⟩
              exact map_bare_ne (by rw [List.length_singleton]; omega)
          | _ => simp [legibleRow, isIntersection, hlegible.1] at hrow
      | cons d cs =>
          cases hc : c.isClosed with
          | true =>
              have hrest : legibleRow (d :: cs) = false := by
                simpa [legibleRow, hc, hlegible.1] using hrow
              obtain ⟨ds, hds, hmistaken⟩ := ih (by simp) ((wellNamedAll_iff _).mpr hnamed.2)
                ((legibleAll_iff _).mpr hlegible.2) hrest
              exact ⟨c :: ds, by simp, hmistaken.cons (by simp) hds hnamed.1⟩
          | false =>
              cases c with
              | function ps r =>
                  have hparts := hnamed.1
                  simp only [wellNamed, Bool.and_eq_true] at hparts
                  refine ⟨[.function ps (.intersection (r :: d :: cs))], by simp, ?_,
                    fun _ => rfl, map_bare_ne (by simp)⟩
                  have hrest := (wellNamedAll_iff _).mpr hnamed.2
                  simp [wellNamedAll, wellNamed, hparts] at hrest ⊢
                  exact hrest
              | intersection es =>
                  have hes := htwo hlegible.1
                  have hnil : es ≠ [] := List.ne_nil_of_length_pos (by omega)
                  refine ⟨es ++ d :: cs, by simp, ?_, textsThen_join _ hnil (by simp),
                    map_bare_ne (by simp; omega)⟩
                  have hparts := (wellNamedAll_iff es).mp hnamed.1
                  exact (wellNamedAll_iff _).mpr (List.forall_mem_append.mpr ⟨hparts, hnamed.2⟩)
              | _ => cases hc

/-! A suffix behind a function or an intersection goes to the result or the last constituent. -/

theorem textThen_suffixed (t : Ty) (o : Option Ty) (s : Text) :
    (t.suffixed o).textThen s = t.textThen (suffixesThen [o] s) := by
  cases o <;> rfl

theorem textsThen_concat_suffixed (sep : Text) (ts : List Ty) (t : Ty) (o : Option Ty) (s : Text) :
    textsThen sep (ts ++ [t.suffixed o]) s = textsThen sep (ts ++ [t]) (suffixesThen [o] s) := by
  cases ts with
  | nil => exact textThen_suffixed t o s
  | cons u us =>
      rw [textsThen_join sep (by simp) (by simp), textsThen_join sep (by simp) (by simp)]
      exact congrArg (fun x => textsThen sep (u :: us) (sep ++ x)) (textThen_suffixed t o s)

theorem wellNamed_suffixed {t : Ty} {o : Option Ty} :
    (t.suffixed o).wellNamed = true ↔ t.wellNamed = true ∧ ∀ k ∈ o, k.wellNamed = true := by
  cases o <;> simp [suffixed, wellNamed, and_comm]

theorem exists_mistaken_suffixed {t : Ty} {o : Option Ty} (ht : t.legible = true)
    (hopen : t.isClosed = false) (hnamed : (t.suffixed o).wellNamed = true) :
    ∃ u, Mistaken (t.suffixed o) u := by
  obtain ⟨hname, hkey⟩ := wellNamed_suffixed.mp hnamed
  cases t with
  | function ps r =>
      simp only [wellNamed, Bool.and_eq_true] at hname
      refine ⟨.function ps (r.suffixed o), ?_, fun s => ?_, ?_⟩
      · simpa [wellNamed, hname.1] using wellNamed_suffixed.mpr ⟨hname.2, hkey⟩
      · rw [textThen_suffixed, textThen, textThen, textThen_suffixed]
      · cases o <;> simp [suffixed, bare]
  | intersection cs =>
      have hne : cs ≠ [] := by
        rintro rfl
        cases ht
      obtain ⟨init, c, rfl⟩ := List.eq_nil_or_concat cs |>.resolve_left hne
      rw [List.concat_eq_append] at *
      rw [wellNamed, wellNamedAll_iff, List.forall_mem_append] at hname
      refine ⟨.intersection (init ++ [c.suffixed o]), ?_, fun s => ?_, ?_⟩
      · rw [wellNamed, wellNamedAll_iff, List.forall_mem_append]
        have hc := wellNamed_suffixed.mpr ⟨hname.2 c (by simp), hkey⟩
        exact ⟨hname.1, by simpa using hc⟩
      · rw [textThen_suffixed]
        exact textsThen_concat_suffixed _ init c o s
      · cases o <;> simp [suffixed, bare]
  | _ => cases hopen

mutual

/-- What is not legible is written like something built otherwise. -/
theorem exists_mistaken : (t : Ty) → t.wellNamed = true → t.legible = false → ∃ u, Mistaken t u
  | .basic b, hnamed, h => by simp_all [wellNamed, legible]
  | .classType c, hnamed, h => by simp_all [wellNamed, legible]
  | .array e, hnamed, h => by
    cases he : e.legible with
    | true => exact exists_mistaken_suffixed (o := none) he (by simpa [legible, he] using h) hnamed
    | false =>
        obtain ⟨e', hname, htext, hbare⟩ := exists_mistaken e hnamed he
        exact ⟨.array e', hname, fun s => htext _, by simpa [bare] using hbare⟩
  | .list e, hnamed, h => by
    obtain ⟨e', hname, htext, hbare⟩ := exists_mistaken e hnamed h
    exact ⟨.list e', hname, fun s => by rw [textThen, textThen, htext], by simpa [bare] using hbare⟩
  | .map k v, hnamed, h => by
    have hnamed' := hnamed
    simp only [wellNamed, Bool.and_eq_true] at hnamed'
    cases hk : k.legible with
    | false =>
        obtain ⟨k', hname, htext, hbare⟩ := exists_mistaken k hnamed'.1 hk
        refine ⟨.map k' v, by simp [wellNamed, hname, hnamed'], fun s => ?_, ?_⟩
        · rw [textThen, textThen, htext]
        · simp [bare, hbare]
    | true =>
        cases hv : v.legible with
        | true =>
            exact exists_mistaken_suffixed (o := some k) hv (by simpa [legible, hk, hv] using h)
              hnamed
        | false =>
            obtain ⟨v', hname, htext, hbare⟩ := exists_mistaken v hnamed'.2 hv
            refine ⟨.map k v', by simp [wellNamed, hname, hnamed'], fun s => ?_, ?_⟩
            · rw [textThen, textThen, htext]
            · simp [bare, hbare]
  | .mapEntry k v, hnamed, h => by
    simp only [wellNamed, Bool.and_eq_true] at hnamed
    cases hk : k.legible with
    | false =>
        obtain ⟨k', hname, htext, hbare⟩ := exists_mistaken k hnamed.1 hk
        refine ⟨.mapEntry k' v, by simp [wellNamed, hname, hnamed], fun s => ?_, ?_⟩
        · rw [textThen, textThen, htext]
        · simp [bare, hbare]
    | true =>
        obtain ⟨v', hname, htext, hbare⟩ :=
          exists_mistaken v hnamed.2 (by simpa [legible, hk] using h)
        refine ⟨.mapEntry k v', by simp [wellNamed, hname, hnamed], fun s => ?_, ?_⟩
        · rw [textThen, textThen, htext]
        · simp [bare, hbare]
  | .function ps r, hnamed, h => by
    simp only [wellNamed, Bool.and_eq_true] at hnamed
    cases hps : legibleAll ps with
    | false =>
        obtain ⟨qs, -, hname, htext, hbare⟩ := exists_mistakenRow (txt ",") ps hnamed.1 hps
        refine ⟨.function qs r, by simp [wellNamed, hname, hnamed], fun s => ?_, ?_⟩
        · rw [textThen, textThen, htext]
        · simp [bare, hbare]
    | true =>
        obtain ⟨r', hname, htext, hbare⟩ :=
          exists_mistaken r hnamed.2 (by simpa [legible, hps] using h)
        refine ⟨.function ps r', by simp [wellNamed, hname, hnamed], fun s => ?_, ?_⟩
        · rw [textThen, textThen, htext]
        · simp [bare, hbare]
  | .intersection [], _, _ =>
    ⟨.intersection [.intersection []], rfl, fun _ => rfl, by simp [bare]⟩
  | .intersection [c], hnamed, _ => by
    refine ⟨c, by simpa [wellNamed, wellNamedAll] using hnamed, fun _ => rfl, fun heq => ?_⟩
    have hsize := congrArg sizeOf heq
    simp [bare] at hsize
    omega
  | .intersection (c :: d :: cs), hnamed, h => by
    have hmistaken : ∃ ds, ds ≠ [] ∧ MistakenRow (txt " & ") (c :: d :: cs) ds := by
      cases hall : legibleAll (c :: d :: cs) with
      | false => exact exists_mistakenRow _ (c :: d :: cs) hnamed hall
      | true => exact exists_regrouped (by simp) hnamed hall (by simpa [legible] using h)
    obtain ⟨ds, -, hname, htext, hbare⟩ := hmistaken
    exact ⟨.intersection ds, hname, htext, by simpa [bare] using hbare⟩

theorem exists_mistakenRow (sep : Text) : (ts : List Ty) → wellNamedAll ts = true →
    legibleAll ts = false → ∃ us, us ≠ [] ∧ MistakenRow sep ts us
  | [], _, h => by cases h
  | t :: ts, hnamed, h => by
    simp only [wellNamedAll, Bool.and_eq_true] at hnamed
    cases ht : t.legible with
    | false =>
        obtain ⟨u, hu⟩ := exists_mistaken t hnamed.1 ht
        exact ⟨u :: ts, by simp, hu.cons hnamed.2⟩
    | true =>
        have hts : legibleAll ts = false := by simpa [legibleAll, ht] using h
        obtain ⟨us, hus, hmistaken⟩ := exists_mistakenRow sep ts hnamed.2 hts
        have hne : ts ≠ [] := by
          rintro rfl
          cases hts
        exact ⟨t :: us, by simp, hmistaken.cons hne hus hnamed.1⟩

end

/-- Equal types. Types that are built alike are equal, and equal types are built alike if the
components of the functions and the map entries among them are legible. More cannot be said of
what is compared by its text: for a component that is not legible there is another one, built
otherwise, with which the function or the map entry is equal. -/
theorem equal_iff_same (t u : Ty) :
    (Same t u → t.equal u = true) ∧
    (t.clear = true → u.clear = true → (t.equal u = true ↔ Same t u)) ∧
    (t.wellNamed = true → t.legible = false → ∃ v : Ty, v.wellNamed = true ∧ ¬ Same t v ∧
      (∀ r, (function [t] r).equal (function [v] r) = true) ∧
      ∀ k, (mapEntry k t).equal (mapEntry k v) = true) := by
  refine ⟨equal_of_same t u, fun ht hu => ⟨same_of_equal t u ht hu, equal_of_same t u⟩, ?_⟩
  intro hnamed hlegible
  obtain ⟨v, hv, htext, hbare⟩ := exists_mistaken t hnamed hlegible
  refine ⟨v, hv, fun hsame => hbare ((same_iff t v).mp hsame).symm, fun r => ?_, fun k => ?_⟩
  · simp [equal, text, textThen, textsThen, htext]
  · simp [equal, text, textThen, htext]

/-- An array of functions and a function that returns an array. -/
def mixedUp : Ty × Ty := (.array (.function [] .int), .function [] (.array .int))

/-- A function that takes the one is equal to a function that takes the other. -/
theorem mixedUp_equal :
    (function [mixedUp.1] .any).equal (function [mixedUp.2] .any) = true ∧
      ¬ Same (function [mixedUp.1] .any) (function [mixedUp.2] .any) := by
  refine ⟨by decide, fun h => ?_⟩
  rw [same_iff] at h
  simp [mixedUp, bare] at h

/-- A function of a map and of a function, with classes that are declared or not. -/
def elaborate (decl : Option ClassRef) : Ty :=
  .function
    [.map .string (.array (.classType ⟨txt "scripts.a.A", decl⟩)),
      .function [] (.intersection [.classType ⟨txt "scripts.a.A", decl⟩, .list .int])]
    (.mapEntry .int .bool)

theorem elaborate_equal_iff_same :
    (elaborate none).clear = true ∧ (elaborate (some (.listed 0))).clear = true ∧
      ((elaborate none).equal (elaborate (some (.listed 0))) = true ↔
        Same (elaborate none) (elaborate (some (.listed 0)))) ∧
      mixedUp.1.wellNamed = true ∧ mixedUp.1.legible = false ∧
      ∃ u : Ty, u.wellNamed = true ∧ ¬ Same mixedUp.1 u ∧
        (∀ r, (function [mixedUp.1] r).equal (function [u] r) = true) ∧
        ∀ k, (mapEntry k mixedUp.1).equal (mapEntry k u) = true :=
  ⟨by decide, by decide, (equal_iff_same _ _).2.1 (by decide) (by decide), by decide, by decide,
    (equal_iff_same _ mixedUp.2).2.2 (by decide) (by decide)⟩

end Zensight.Ty
