import Zensight.Proofs.Sameness

/-!
# Types that can be read back

The notation of types has no brackets that only group. `function()int[]` is a function with
an array as its result and an array of functions, and `A & B[]` an intersection and an array.
A type is `legible` if it is the one that is read: what takes a suffix or stands before another
constituent ends by itself, an intersection has two constituents at least, and the names are
no other type's. Two legible types that are written alike are built alike (`legible_determined`).

A legible type is a row of constituents, each a stem with suffixes behind it, and the marks
of the notation say where each of them ends. The proof goes along this decomposition and not
along the constructors: `T[]` has its component in front, so what is behind a component may
still belong to its type.
-/

namespace Zensight.Ty

/-- The bytes that part the words of a type. -/
def isMark (c : UInt8) : Bool := (txt "[]<>(), ").contains c

/-- May a class bear the name without being taken for something else? -/
def isClassName (name : Text) : Bool :=
  name != [] && name.all (!isMark ·) && !(Basic.all.map Basic.name).contains name

/-- Does the type end by itself, so that what follows does not belong to a component? -/
def isClosed : Ty → Bool
  | .function _ _ | .intersection _ => false
  | _ => true

def isIntersection : Ty → Bool
  | .intersection _ => true
  | _ => false

mutual

/-- Is the type the one that is read where it is written? -/
def legible : Ty → Bool
  | .basic b => Basic.all.contains b
  | .array e => e.isClosed && e.legible
  | .list e => e.legible
  | .map k v => k.legible && (v.isClosed && v.legible)
  | .mapEntry k v => k.legible && v.legible
  | .function ps r => legibleAll ps && r.legible
  | .intersection cs => 2 ≤ cs.length && legibleRow cs
  | .classType c => isClassName c.name

def legibleAll : List Ty → Bool
  | [] => true
  | t :: ts => t.legible && legibleAll ts

/-- Are these constituents legible one behind another? All but the last have to end by
themselves. -/
def legibleRow : List Ty → Bool
  | [] => true
  | [t] => !t.isIntersection && t.legible
  | t :: ts => (t.isClosed && t.legible) && legibleRow ts

end

theorem legibleAll_iff (ts : List Ty) : legibleAll ts = true ↔ ∀ t ∈ ts, t.legible = true := by
  induction ts with
  | nil => simp [legibleAll]
  | cons t ts ih => simp [legibleAll, ih]

/-! ## Words and marks -/

/-- The text is empty or begins with one of these bytes. -/
def Starts (bytes s : Text) : Prop := ∀ c ∈ s.head?, c ∈ bytes

/-- What may follow a whole type. -/
def closing : Text := txt "],>)"

/-- What may follow a constituent. -/
def stopping : Text := txt "],>) "

/-- What may follow a stem. -/
def trailing : Text := txt "],>) ["

theorem Starts.mono {a b s : Text} (h : Starts a s) (hab : a ⊆ b) : Starts b s :=
  fun c hc => hab (h c hc)

theorem Starts.cons {a s : Text} {c : UInt8} (hc : c ∈ a) : Starts a (c :: s) := by
  rintro d hd
  cases hd
  exact hc

/-- Where a word ends is seen from the mark behind it. -/
theorem word_append {w w' s s' : Text} (hw : ∀ c ∈ w, isMark c = false)
    (hw' : ∀ c ∈ w', isMark c = false) (hs : ∀ c ∈ s.head?, isMark c = true)
    (hs' : ∀ c ∈ s'.head?, isMark c = true) (h : w ++ s = w' ++ s') : w = w' ∧ s = s' := by
  have hmark {c : UInt8} {w s s' : Text} (hc : isMark c = false)
      (hs : ∀ c ∈ s.head?, isMark c = true) (h : s = c :: w ++ s') : False := by
    rw [hs c (by rw [h]; rfl)] at hc
    cases hc
  induction w generalizing w' with
  | nil =>
      cases w' with
      | nil => exact ⟨rfl, h⟩
      | cons c w' => exact (hmark (hw' c List.mem_cons_self) hs h).elim
  | cons c w ih =>
      cases w' with
      | nil => exact (hmark (hw c List.mem_cons_self) hs' h.symm).elim
      | cons d w' =>
          rw [List.forall_mem_cons] at hw hw'
          rw [List.cons_append, List.cons_append, List.cons.injEq] at h
          obtain ⟨rfl, h⟩ := h
          obtain ⟨rfl, hrest⟩ := ih hw.2 hw'.2 h
          exact ⟨rfl, hrest⟩

/-- The word that a type begins with. -/
def word : Ty → Text
  | .basic b => b.name
  | .classType c => c.name
  | .mapEntry _ _ => txt "Map.Entry"
  | .function _ _ => txt "function"
  | _ => []

/-- What a type has behind its word, and then the text `s`. -/
def behindWord : Ty → Text → Text
  | .list e, s => byte '[' :: e.textThen (byte ']' :: s)
  | .mapEntry k v, s => byte '<' :: k.textThen (byte ',' :: v.textThen (byte '>' :: s))
  | .function ps r, s => byte '(' :: textsThen (txt ",") ps (byte ')' :: r.textThen s)
  | _, s => s

/-- Is the type no array, map or intersection, which begin with a component? -/
def isStem : Ty → Bool
  | .array _ | .map _ _ | .intersection _ => false
  | _ => true

theorem textThen_word {t : Ty} (h : t.isStem = true) (s : Text) :
    t.textThen s = t.word ++ t.behindWord s := by
  cases t with
  | array | map | intersection => cases h
  | _ => rfl

theorem isWord_of_all {w : Text} (h : w.all (!isMark ·) = true) : ∀ c ∈ w, isMark c = false := by
  simpa using h

theorem basic_name_isWord (b : Basic) : ∀ c ∈ b.name, isMark c = false := by
  cases b <;> exact isWord_of_all rfl

theorem basic_name_ne_nil (b : Basic) : b.name ≠ [] := by
  cases b <;> simp only [Basic.name] <;> decide

theorem basic_name_inj {a b : Basic} (ha : a ∈ Basic.all) (hb : b ∈ Basic.all)
    (h : a.name = b.name) : a = b := by
  have hall : ∀ a ∈ Basic.all, ∀ b ∈ Basic.all, a.name = b.name → a = b := by decide
  exact hall a ha b hb h

theorem isClassName_iff {name : Text} : isClassName name = true ↔
    name ≠ [] ∧ (∀ c ∈ name, isMark c = false) ∧ ∀ b ∈ Basic.all, b.name ≠ name := by
  simp [isClassName, and_assoc]

theorem word_isWord {t : Ty} (h : t.legible = true) : ∀ c ∈ t.word, isMark c = false := by
  cases t with
  | basic b => exact basic_name_isWord b
  | classType c => exact (isClassName_iff.mp h).2.1
  | mapEntry | function => exact isWord_of_all rfl
  | _ => simp [word]

theorem behindWord_starts {t : Ty} {s : Text} (hs : Starts trailing s) :
    ∀ c ∈ (t.behindWord s).head?, isMark c = true := by
  have hsub : ∀ c ∈ trailing, isMark c = true := List.all_eq_true.mp (by decide)
  cases t with
  | list | mapEntry | function => simp [behindWord]; decide
  | _ => exact fun c hc => hsub c (hs c hc)

/-- A legible type does not begin like what follows one. -/
theorem textThen_opens : (t : Ty) → t.legible = true → (s : Text) →
    ∃ c rest, t.textThen s = c :: rest ∧ c ∉ closing
  | .basic b, h, s => by
    have hopens : ∀ b ∈ Basic.all, ∃ c ∈ b.name.head?, c ∉ closing := by decide
    obtain ⟨c, hc, hnot⟩ := hopens b (by simpa [legible] using h)
    obtain ⟨rest, hname⟩ := List.head?_eq_some_iff.mp hc
    exact ⟨c, rest ++ s, by rw [textThen, hname]; rfl, hnot⟩
  | .classType c, h, s => by
    obtain ⟨hne, hword, -⟩ := isClassName_iff.mp h
    obtain ⟨d, rest, hname⟩ := List.exists_cons_of_ne_nil hne
    refine ⟨d, rest ++ s, by rw [textThen, hname]; rfl, fun hd => ?_⟩
    have hmark : ∀ d ∈ closing, isMark d = true := List.all_eq_true.mp (by decide)
    have hplain := hword d (by simp [hname])
    rw [hmark d hd] at hplain
    cases hplain
  | .array e, h, s => textThen_opens e (by simp_all [legible]) _
  | .map k v, h, s => textThen_opens v (by simp_all [legible]) _
  | .list e, _, s => ⟨byte '[', e.textThen (txt "]" ++ s), rfl, by decide⟩
  | .mapEntry k v, _, s => ⟨byte 'M', _, rfl, by decide⟩
  | .function ps r, _, s => ⟨byte 'f', _, rfl, by decide⟩
  | .intersection [], h, s => by cases h
  | .intersection [c], h, s => by cases h
  | .intersection (c :: d :: cs), h, s => textThen_opens c (by simp_all [legible, legibleRow]) _

/-! ## Types in a row -/

/-- Types that follow others: each behind a separator. -/
def restThen (sep : Text) : List Ty → Text → Text
  | [], s => s
  | t :: ts, s => sep ++ textsThen sep (t :: ts) s

theorem textsThen_cons (sep : Text) (t : Ty) (ts : List Ty) (s : Text) :
    textsThen sep (t :: ts) s = t.textThen (restThen sep ts s) := by
  cases ts <;> rfl

/-- Rows that are written alike are built alike, if one type of a row tells where it ends. -/
theorem texts_determined {sep s s' : Text} {A B : List Ty → Prop}
    (hA : ∀ t t' ts, A (t :: t' :: ts) → A (t' :: ts))
    (hB : ∀ u u' us, B (u :: u' :: us) → B (u' :: us))
    (hs : ∀ r, s ≠ sep ++ r) (hs' : ∀ r, s' ≠ sep ++ r)
    (hstep : ∀ t ts u us, A (t :: ts) → B (u :: us) →
      t.textThen (restThen sep ts s) = u.textThen (restThen sep us s') →
      t.bare = u.bare ∧ restThen sep ts s = restThen sep us s')
    {t u : Ty} {ts us : List Ty} (ht : A (t :: ts)) (hu : B (u :: us))
    (h : textsThen sep (t :: ts) s = textsThen sep (u :: us) s') :
    (t :: ts).map bare = (u :: us).map bare ∧ s = s' := by
  induction ts generalizing t u us with
  | nil =>
      rw [textsThen_cons, textsThen_cons] at h
      obtain ⟨hbare, hrest⟩ := hstep t [] u us ht hu h
      cases us with
      | nil => exact ⟨by simp [hbare], hrest⟩
      | cons u' us => exact absurd hrest (hs _)
  | cons t' ts ih =>
      rw [textsThen_cons, textsThen_cons] at h
      obtain ⟨hbare, hrest⟩ := hstep t (t' :: ts) u us ht hu h
      cases us with
      | nil => exact absurd hrest.symm (hs' _)
      | cons u' us =>
          obtain ⟨hmap, hend⟩ :=
            ih (hA t t' ts ht) (hB u u' us hu) (List.append_cancel_left hrest)
          exact ⟨congrArg₂ List.cons hbare hmap, hend⟩

/-! ## Stems -/

/-- Whatever legible type is written the same, with whatever may follow behind both, is built
like `t`, and the same follows. -/
def Determined (t : Ty) : Prop :=
  ∀ ⦃u : Ty⦄ ⦃s s' : Text⦄, u.legible = true → Starts closing s → Starts closing s' →
    t.textThen s = u.textThen s' → t.bare = u.bare ∧ s = s'

/-- All smaller legible types are determined. -/
def Below (t : Ty) : Prop :=
  ∀ c : Ty, sizeOf c < sizeOf t → c.legible = true → Determined c

theorem not_starts {a s s' : Text} {c : UInt8} (hs : Starts a s) (hc : c ∉ a)
    (h : s = c :: s') : False :=
  hc (hs c (by rw [h]; rfl))

theorem params_determined {ps qs : List Ty} (hps : ∀ p ∈ ps, p.legible = true ∧ Determined p)
    (hqs : ∀ q ∈ qs, q.legible = true) {s s' : Text}
    (h : textsThen (txt ",") ps (byte ')' :: s) = textsThen (txt ",") qs (byte ')' :: s')) :
    ps.map bare = qs.map bare ∧ s = s' := by
  have hclosing (ts : List Ty) (s : Text) :
      Starts closing (restThen (txt ",") ts (byte ')' :: s)) := by
    cases ts <;> exact .cons (by decide)
  have hnot (q : Ty) (qs : List Ty) (hq : q.legible = true) (s s' : Text) :
      byte ')' :: s ≠ textsThen (txt ",") (q :: qs) s' := by
    intro heq
    obtain ⟨c, rest, htext, hc⟩ := textThen_opens q hq (restThen (txt ",") qs s')
    rw [textsThen_cons, htext] at heq
    injection heq with hbyte
    exact hc (hbyte ▸ by decide)
  cases ps with
  | nil =>
      cases qs with
      | nil => exact ⟨rfl, by simpa [textsThen] using h⟩
      | cons q qs => exact absurd h (hnot q qs (hqs q List.mem_cons_self) _ _)
  | cons p ps =>
      cases qs with
      | nil => exact absurd h.symm (hnot p ps (hps p List.mem_cons_self).1 _ _)
      | cons q qs =>
          have hcomma (s r : Text) : byte ')' :: s ≠ txt "," ++ r := by
            intro heq
            injection heq with hbyte
            exact absurd hbyte (by decide)
          obtain ⟨hmap, hend⟩ := texts_determined
            (A := fun ts => ∀ t ∈ ts, t.legible = true ∧ Determined t)
            (B := fun us => ∀ u ∈ us, u.legible = true)
            (fun t t' ts hts u hu => hts u (List.mem_cons_of_mem _ hu))
            (fun u u' us hus v hv => hus v (List.mem_cons_of_mem _ hv))
            (hcomma s) (hcomma s')
            (fun t ts u us ht hu heq => (ht t List.mem_cons_self).2 (hu u List.mem_cons_self)
              (hclosing ts s) (hclosing us s') heq) hps hqs h
          exact ⟨hmap, by simpa using hend⟩

theorem mapEntry_determined {k v l w : Ty} (hk : Determined k) (hv : Determined v)
    (hl : l.legible = true) (hw : w.legible = true) {s s' : Text}
    (h : k.textThen (byte ',' :: v.textThen (byte '>' :: s)) =
      l.textThen (byte ',' :: w.textThen (byte '>' :: s'))) :
    k.bare = l.bare ∧ v.bare = w.bare ∧ s = s' := by
  obtain ⟨hkey, hrest⟩ := hk hl (.cons (by decide)) (.cons (by decide)) h
  injection hrest with _ hrest
  obtain ⟨hvalue, hrest⟩ := hv hw (.cons (by decide)) (.cons (by decide)) hrest
  exact ⟨hkey, hvalue, by simpa using hrest⟩

/-- Stems that are written alike. The mark behind the first word tells them apart. -/
theorem stem_determined {t u : Ty} (hbelow : Below t) (hst : t.isStem = true)
    (hsu : u.isStem = true) (ht : t.legible = true) (hu : u.legible = true) {s s' : Text}
    (hs : Starts trailing s) (hs' : Starts trailing s')
    (hclosing : t.isClosed = false → u.isClosed = false → Starts closing s ∧ Starts closing s')
    (h : t.textThen s = u.textThen s') : t.bare = u.bare ∧ s = s' := by
  rw [textThen_word hst, textThen_word hsu] at h
  obtain ⟨hword, hrest⟩ := word_append (word_isWord ht) (word_isWord hu)
    (behindWord_starts hs) (behindWord_starts hs') h
  have hentry : [] ≠ txt "Map.Entry" := by decide
  have hfunction : [] ≠ txt "function" := by decide
  have hapart : txt "Map.Entry" ≠ txt "function" := by decide
  cases t with
  | array | map | intersection => cases hst
  | basic a =>
      have ha : a ∈ Basic.all := by simpa [legible] using ht
      cases u with
      | array | map | intersection => cases hsu
      | basic b =>
          obtain rfl := basic_name_inj ha (by simpa [legible] using hu) hword
          exact ⟨rfl, hrest⟩
      | classType d => exact absurd hword ((isClassName_iff.mp hu).2.2 a ha)
      | list e => exact absurd hword (basic_name_ne_nil a)
      | mapEntry k v => exact (not_starts hs (by decide) hrest).elim
      | function ps r => exact (not_starts hs (by decide) hrest).elim
  | classType c =>
      obtain ⟨hne, -, hother⟩ := isClassName_iff.mp ht
      cases u with
      | array | map | intersection => cases hsu
      | basic b => exact absurd hword.symm (hother b (by simpa [legible] using hu))
      | classType d =>
          have hname : c.name = d.name := hword
          exact ⟨by rw [bare, bare, hname], hrest⟩
      | list e => exact absurd hword hne
      | mapEntry k v => exact (not_starts hs (by decide) hrest).elim
      | function ps r => exact (not_starts hs (by decide) hrest).elim
  | list e =>
      cases u with
      | array | map | intersection => cases hsu
      | basic b => exact absurd hword.symm (basic_name_ne_nil b)
      | classType d => exact absurd hword.symm (isClassName_iff.mp hu).1
      | list f =>
          injection hrest with _ hrest
          have he : Determined e := hbelow e (by simp) ht
          have hclose (s : Text) : Starts closing (byte ']' :: s) := .cons (by decide)
          have hf : f.legible = true := hu
          obtain ⟨hbare, hend⟩ := he hf (hclose s) (hclose s') hrest
          exact ⟨by rw [bare, bare, hbare], by simpa using hend⟩
      | mapEntry k v => exact absurd hword hentry
      | function ps r => exact absurd hword hfunction
  | mapEntry k v =>
      cases u with
      | array | map | intersection => cases hsu
      | basic b => exact (not_starts hs' (by decide) hrest.symm).elim
      | classType d => exact (not_starts hs' (by decide) hrest.symm).elim
      | list f => exact absurd hword hentry.symm
      | mapEntry l w =>
          simp only [legible, Bool.and_eq_true] at ht hu
          injection hrest with _ hrest
          obtain ⟨hkey, hvalue, hend⟩ := mapEntry_determined
            (hbelow k (by rw [mapEntry.sizeOf_spec]; omega) ht.1)
            (hbelow v (by rw [mapEntry.sizeOf_spec]; omega) ht.2) hu.1 hu.2 hrest
          exact ⟨by rw [bare, bare, hkey, hvalue], hend⟩
      | function ps r => exact absurd hword hapart
  | function ps r =>
      cases u with
      | array | map | intersection => cases hsu
      | basic b => exact (not_starts hs' (by decide) hrest.symm).elim
      | classType d => exact (not_starts hs' (by decide) hrest.symm).elim
      | list f => exact absurd hword hfunction.symm
      | mapEntry l w => exact absurd hword hapart.symm
      | function qs r' =>
          simp only [legible, Bool.and_eq_true, legibleAll_iff] at ht hu
          injection hrest with _ hrest
          have hps : ∀ p ∈ ps, p.legible = true ∧ Determined p := by
            intro p hp
            have hlt := List.sizeOf_lt_of_mem hp
            exact ⟨ht.1 p hp, hbelow p (by rw [function.sizeOf_spec]; omega) (ht.1 p hp)⟩
          obtain ⟨hparams, hrest⟩ := params_determined hps hu.1 hrest
          have hr : Determined r := hbelow r (by rw [function.sizeOf_spec]; omega) ht.2
          obtain ⟨hs, hs'⟩ := hclosing rfl rfl
          obtain ⟨hresult, hend⟩ := hr hu.2 hs hs' hrest
          exact ⟨by rw [bare, bare, bareAll_eq, bareAll_eq, hparams, hresult], hend⟩

/-! ## Suffixes -/

/-- A type without the suffixes at its end. -/
def stem : Ty → Ty
  | .array e => e.stem
  | .map _ v => v.stem
  | t => t

/-- The suffixes at the end of a type: of a map its key, of an array nothing. -/
def suffixes : Ty → List (Option Ty)
  | .array e => e.suffixes ++ [none]
  | .map k v => v.suffixes ++ [some k]
  | _ => []

/-- Suffixes as they are written, and then the text `s`. -/
def suffixesThen : List (Option Ty) → Text → Text
  | [], s => s
  | none :: rest, s => byte '[' :: byte ']' :: suffixesThen rest s
  | some k :: rest, s => byte '[' :: k.textThen (byte ']' :: suffixesThen rest s)

/-- The type with one more suffix. -/
def suffixed (t : Ty) : Option Ty → Ty
  | none => .array t
  | some k => .map k t

theorem suffixesThen_append (ks ls : List (Option Ty)) (s : Text) :
    suffixesThen (ks ++ ls) s = suffixesThen ks (suffixesThen ls s) := by
  induction ks with
  | nil => rfl
  | cons k ks ih => cases k <;> simp [suffixesThen, ih]

theorem textThen_stem : (t : Ty) → (s : Text) →
    t.textThen s = t.stem.textThen (suffixesThen t.suffixes s)
  | .array e, s => by
    rw [suffixes, suffixesThen_append]
    exact textThen_stem e _
  | .map k v, s => by
    rw [suffixes, suffixesThen_append]
    exact textThen_stem v _
  | .basic _, _ | .list _, _ | .mapEntry _ _, _ | .function _ _, _ | .intersection _, _
  | .classType _, _ => rfl

theorem bare_eq_suffixed : (t : Ty) →
    t.bare = (t.suffixes.map (Option.map bare)).foldl suffixed t.stem.bare
  | .array e => by simp [bare, suffixes, stem, suffixed, ← bare_eq_suffixed e]
  | .map k v => by simp [bare, suffixes, stem, suffixed, ← bare_eq_suffixed v]
  | .basic _ | .list _ | .mapEntry _ _ | .function _ _ | .intersection _ | .classType _ => rfl

theorem stem_spec : (t : Ty) → t.isClosed = true → t.legible = true →
    t.stem.isStem = true ∧ t.stem.isClosed = true ∧ t.stem.legible = true ∧
      sizeOf t.stem ≤ sizeOf t
  | .array e, _, h => by
    simp only [legible, Bool.and_eq_true] at h
    obtain ⟨hstem, hclosed, hlegible, hsize⟩ := stem_spec e h.1 h.2
    exact ⟨hstem, hclosed, hlegible, by simp [stem]; omega⟩
  | .map k v, _, h => by
    simp only [legible, Bool.and_eq_true] at h
    obtain ⟨hstem, hclosed, hlegible, hsize⟩ := stem_spec v h.2.1 h.2.2
    exact ⟨hstem, hclosed, hlegible, by simp [stem]; omega⟩
  | .basic _, _, h | .list _, _, h | .mapEntry _ _, _, h | .classType _, _, h =>
    ⟨rfl, rfl, h, Nat.le_refl _⟩

theorem mem_suffixes : (t : Ty) → t.legible = true → ∀ k, some k ∈ t.suffixes →
    k.legible = true ∧ sizeOf k < sizeOf t
  | .array e, h, k, hk => by
    simp only [legible, Bool.and_eq_true] at h
    obtain ⟨hlegible, hsize⟩ := mem_suffixes e h.2 k (by simpa [suffixes] using hk)
    exact ⟨hlegible, by simp; omega⟩
  | .map l v, h, k, hk => by
    simp only [legible, Bool.and_eq_true] at h
    simp only [suffixes, List.mem_append, List.mem_singleton, Option.some.injEq] at hk
    rcases hk with hk | rfl
    · obtain ⟨hlegible, hsize⟩ := mem_suffixes v h.2.2 k hk
      exact ⟨hlegible, by simp; omega⟩
    · exact ⟨h.1, by simp; omega⟩
  | .basic _, _, _, hk | .list _, _, _, hk | .mapEntry _ _, _, _, hk | .function _ _, _, _, hk
  | .intersection _, _, _, hk | .classType _, _, _, hk => by cases hk

theorem suffixes_determined {ks ls : List (Option Ty)}
    (hks : ∀ k, some k ∈ ks → k.legible = true ∧ Determined k)
    (hls : ∀ l, some l ∈ ls → l.legible = true) {s s' : Text} (hs : Starts stopping s)
    (hs' : Starts stopping s') (h : suffixesThen ks s = suffixesThen ls s') :
    ks.map (Option.map bare) = ls.map (Option.map bare) ∧ s = s' := by
  have hnot (k : Ty) (hk : k.legible = true) (s s' : Text) : byte ']' :: s ≠ k.textThen s' := by
    intro heq
    obtain ⟨c, rest, htext, hc⟩ := textThen_opens k hk s'
    rw [htext] at heq
    injection heq with hbyte
    exact hc (hbyte ▸ by decide)
  induction ks generalizing ls with
  | nil =>
      match ls with
      | [] => exact ⟨rfl, h⟩
      | none :: ls => exact (not_starts hs (by decide) h).elim
      | some l :: ls => exact (not_starts hs (by decide) h).elim
  | cons k ks ih =>
      have hrest {l : Option Ty} {ls : List (Option Ty)}
          (hls : ∀ m, some m ∈ l :: ls → m.legible = true)
          (hkl : k.map bare = l.map bare) (h : suffixesThen ks s = suffixesThen ls s') :
          (k :: ks).map (Option.map bare) = (l :: ls).map (Option.map bare) ∧ s = s' := by
        obtain ⟨hmap, hend⟩ := ih (fun m hm => hks m (List.mem_cons_of_mem _ hm))
          (fun m hm => hls m (List.mem_cons_of_mem _ hm)) h
        exact ⟨congrArg₂ List.cons hkl hmap, hend⟩
      match k, ls with
      | none, [] => exact (not_starts hs' (by decide) h.symm).elim
      | some k, [] => exact (not_starts hs' (by decide) h.symm).elim
      | none, none :: ls => exact hrest hls rfl (by simpa [suffixesThen] using h)
      | none, some l :: ls =>
          injection h with _ h
          exact absurd h (hnot l (hls l List.mem_cons_self) _ _)
      | some k, none :: ls =>
          injection h with _ h
          exact absurd h.symm (hnot k (hks k List.mem_cons_self).1 _ _)
      | some k, some l :: ls =>
          injection h with _ h
          have hclose (s : Text) : Starts closing (byte ']' :: s) := .cons (by decide)
          obtain ⟨hbare, h⟩ := (hks k List.mem_cons_self).2 (hls l List.mem_cons_self)
            (hclose _) (hclose _) h
          exact hrest hls (congrArg some hbare) (by simpa using h)

/-! ## Constituents -/

theorem stopping_subset : stopping ⊆ trailing := by decide

theorem closing_subset : closing ⊆ stopping := by decide

/-- What follows a suffix or a stem. -/
theorem suffixesThen_starts (ks : List (Option Ty)) {s : Text} (hs : Starts stopping s) :
    Starts trailing (suffixesThen ks s) :=
  match ks with
  | [] => hs.mono stopping_subset
  | none :: _ => .cons (by decide)
  | some _ :: _ => .cons (by decide)

theorem closed_determined {t u : Ty} (hbelow : Below t) (hct : t.isClosed = true)
    (hcu : u.isClosed = true) (ht : t.legible = true) (hu : u.legible = true) {s s' : Text}
    (hs : Starts stopping s) (hs' : Starts stopping s') (h : t.textThen s = u.textThen s') :
    t.bare = u.bare ∧ s = s' := by
  rw [textThen_stem t, textThen_stem u] at h
  obtain ⟨hst, hclosed, hlt, hsize⟩ := stem_spec t hct ht
  obtain ⟨hsu, -, hlu, -⟩ := stem_spec u hcu hu
  have hstem : Below t.stem := fun c hc => hbelow c (by omega)
  obtain ⟨hbare, hrest⟩ := stem_determined hstem hst hsu hlt hlu (suffixesThen_starts _ hs)
    (suffixesThen_starts _ hs') (fun hopen => by rw [hclosed] at hopen; cases hopen) h
  have hks : ∀ k, some k ∈ t.suffixes → k.legible = true ∧ Determined k := by
    intro k hk
    obtain ⟨hk, hlt⟩ := mem_suffixes t ht k hk
    exact ⟨hk, hbelow k hlt hk⟩
  obtain ⟨hmap, hend⟩ :=
    suffixes_determined hks (fun l hl => (mem_suffixes u hu l hl).1) hs hs' hrest
  exact ⟨by rw [bare_eq_suffixed t, bare_eq_suffixed u, hbare, hmap], hend⟩

theorem bare_isClosed (t : Ty) : t.bare.isClosed = t.isClosed := by
  cases t <;> rfl

/-- A type that is no intersection, where nothing follows that belongs to a component. -/
structure IsConstituent (t : Ty) (s : Text) : Prop where
  legible : t.legible = true
  single : t.isIntersection = false
  stops : Starts stopping s
  closes : t.isClosed = true ∨ Starts closing s

theorem isStem_of_open {t : Ty} (hsingle : t.isIntersection = false) (hopen : t.isClosed = false) :
    t.isStem = true := by
  cases t with
  | function => rfl
  | intersection => cases hsingle
  | _ => cases hopen

theorem constituent_determined {t u : Ty} (hbelow : Below t) {s s' : Text}
    (ht : t.IsConstituent s) (hu : u.IsConstituent s') (h : t.textThen s = u.textThen s') :
    t.bare = u.bare ∧ s = s' := by
  have htrailing {t : Ty} {s : Text} (h : t.IsConstituent s) : Starts trailing s :=
    h.stops.mono stopping_subset
  -- A function and a stem that ends by itself are not written alike.
  have hmixed {t u : Ty} {s s' : Text} (hbelow : Below t) (hst : t.isStem = true)
      (hsu : u.isStem = true) (ht : t.legible = true) (hu : u.legible = true)
      (hs : Starts trailing s) (hs' : Starts trailing s') (hne : t.isClosed ≠ u.isClosed)
      (h : t.textThen s = u.textThen s') : False := by
    obtain ⟨hbare, -⟩ := stem_determined hbelow hst hsu ht hu hs hs'
      (fun hopen hopen' => absurd (hopen.trans hopen'.symm) hne) h
    exact hne (by rw [← bare_isClosed, hbare, bare_isClosed])
  cases hct : t.isClosed <;> cases hcu : u.isClosed
  · have hs := ht.closes.resolve_left (by simp [hct])
    have hs' := hu.closes.resolve_left (by simp [hcu])
    exact stem_determined hbelow (isStem_of_open ht.single hct) (isStem_of_open hu.single hcu)
      ht.legible hu.legible (htrailing ht) (htrailing hu) (fun _ _ => ⟨hs, hs'⟩) h
  · obtain ⟨hsu, hclosed, hlu, -⟩ := stem_spec u hcu hu.legible
    rw [textThen_stem u] at h
    exact (hmixed hbelow (isStem_of_open ht.single hct) hsu ht.legible hlu (htrailing ht)
      (suffixesThen_starts _ hu.stops) (by rw [hct, hclosed]; decide) h).elim
  · obtain ⟨hst, hclosed, hlt, hsize⟩ := stem_spec t hct ht.legible
    have hstem : Below t.stem := fun c hc => hbelow c (by omega)
    rw [textThen_stem t] at h
    exact (hmixed hstem hst (isStem_of_open hu.single hcu) hlt hu.legible
      (suffixesThen_starts _ ht.stops) (htrailing hu) (by rw [hcu, hclosed]; decide) h).elim
  · exact closed_determined hbelow hct hcu ht.legible hu.legible ht.stops hu.stops h

/-- The constituents of an intersection; any other type is the only one. -/
def constituents : Ty → List Ty
  | .intersection cs => cs
  | t => [t]

theorem textThen_constituents (t : Ty) (s : Text) :
    t.textThen s = textsThen (txt " & ") t.constituents s := by
  cases t <;> rfl

theorem legibleRow_constituents {t : Ty} (h : t.legible = true) :
    t.constituents ≠ [] ∧ legibleRow t.constituents = true := by
  cases t with
  | intersection cs =>
      simp only [legible, Bool.and_eq_true, decide_eq_true_eq] at h
      refine ⟨fun hnil => ?_, h.2⟩
      rw [constituents] at hnil
      simp [hnil] at h
  | _ => exact ⟨by simp [constituents], by simpa [constituents, legibleRow, isIntersection] using h⟩

theorem legibleRow_tail {t u : Ty} {ts : List Ty} (h : legibleRow (t :: u :: ts) = true) :
    legibleRow (u :: ts) = true := by
  simp only [legibleRow, Bool.and_eq_true] at h
  exact h.2

theorem legibleRow_head {t : Ty} {ts : List Ty} (h : legibleRow (t :: ts) = true) {s : Text}
    (hs : Starts closing s) : t.IsConstituent (restThen (txt " & ") ts s) := by
  cases ts with
  | nil =>
      simp only [legibleRow, Bool.and_eq_true, Bool.not_eq_true'] at h
      exact ⟨h.2, h.1, hs.mono closing_subset, .inr hs⟩
  | cons u ts =>
      simp only [legibleRow, Bool.and_eq_true] at h
      have hsingle : t.isIntersection = false := by
        cases t with
        | intersection => cases h.1.1
        | _ => rfl
      exact ⟨h.1.2, hsingle, .cons (by decide), .inl h.1.1⟩

theorem sizeOf_constituents {t c : Ty} (h : c ∈ t.constituents) : sizeOf c ≤ sizeOf t := by
  cases t with
  | intersection cs =>
      have hmem : c ∈ cs := h
      have hlt := List.sizeOf_lt_of_mem hmem
      rw [intersection.sizeOf_spec]
      omega
  | _ => exact Nat.le_of_eq (congrArg sizeOf (List.mem_singleton.mp h))

theorem bare_of_constituents {t u : Ty} (ht : t.legible = true) (hu : u.legible = true)
    (h : t.constituents.map bare = u.constituents.map bare) : t.bare = u.bare := by
  have hlength := congrArg List.length h
  simp only [List.length_map] at hlength
  cases t with
  | intersection cs =>
      simp only [legible, Bool.and_eq_true, decide_eq_true_eq] at ht
      cases u with
      | intersection ds => rw [bare, bare, bareAll_eq, bareAll_eq]; exact congrArg _ h
      | _ => simp only [constituents, List.length_singleton] at hlength; omega
  | _ =>
      cases u with
      | intersection ds =>
          simp only [legible, Bool.and_eq_true, decide_eq_true_eq] at hu
          simp only [constituents, List.length_singleton] at hlength
          omega
      | _ => simpa [constituents] using h

theorem determined_of_below {t : Ty} (hbelow : Below t) (ht : t.legible = true) :
    Determined t := by
  intro u s s' hu hs hs' h
  obtain ⟨hne, hrow⟩ := legibleRow_constituents ht
  obtain ⟨hne', hrow'⟩ := legibleRow_constituents hu
  have hitems : ∀ c ∈ t.constituents, Below c := fun c hc d hd =>
    hbelow d (Nat.lt_of_lt_of_le hd (sizeOf_constituents hc))
  have hbreak {s : Text} (hs : Starts closing s) (r : Text) : s ≠ txt " & " ++ r :=
    fun heq => not_starts hs (by decide) heq
  rw [textThen_constituents t, textThen_constituents u] at h
  obtain ⟨c, cs, hcs⟩ := List.exists_cons_of_ne_nil hne
  obtain ⟨d, ds, hds⟩ := List.exists_cons_of_ne_nil hne'
  rw [hcs] at h hrow hitems
  rw [hds] at h hrow'
  obtain ⟨hmap, hend⟩ := texts_determined
    (A := fun cs => legibleRow cs = true ∧ ∀ c ∈ cs, Below c)
    (B := fun ds => legibleRow ds = true)
    (fun c c' cs hcs => ⟨legibleRow_tail hcs.1, fun b hb => hcs.2 b (List.mem_cons_of_mem _ hb)⟩)
    (fun d d' ds hds => legibleRow_tail hds) (hbreak hs) (hbreak hs')
    (fun c cs d ds hc hd heq => constituent_determined (hc.2 c List.mem_cons_self)
      (legibleRow_head hc.1 hs) (legibleRow_head hd hs') heq)
    ⟨hrow, hitems⟩ hrow' h
  exact ⟨bare_of_constituents ht hu (by rw [hcs, hds, hmap]), hend⟩

/-- A legible type is known from how it is written. -/
theorem legible_determined (t : Ty) (ht : t.legible = true) : Determined t :=
  determined_of_below (fun c _ hc => legible_determined c hc) ht
termination_by sizeOf t

theorem same_of_text {t u : Ty} (ht : t.legible = true) (hu : u.legible = true)
    (h : t.text = u.text) : Same t u := by
  have hend : Starts closing [] := by simp [Starts]
  exact (same_iff t u).mpr (legible_determined t ht hu hend hend h).1

end Zensight.Ty
