import Zensight.Proofs.Numbering
import Zensight.Proofs.RoundTrip.Trees
import Zensight.Proofs.Spans

/-!
# The types of a script

Which tokens make a type is ambiguous: brackets behind a function type could be taken as a suffix
of the whole type as well as of its result. The rules of reading decide for the result, so of the
trees that the grammar allows only those of `IsType` come up. `Reads.types` puts that together
from what the phrases say of a type and what is known of the shapes of nodes.
-/

namespace Zensight

/-- A text that is scanned as one word. -/
def Text.isWord : Text → Bool
  | [] => false
  | c :: w => isLetter c && w.all fun b => isLetter b || isDigit b

/-- If it is the name of a type, is it made of words? -/
def Form.isWorded : Form → Bool
  | namedType path => path.all Text.isWord
  | _ => true

def Node.IsWorded (n : Node) : Prop := n.form.isWorded = true

@[simp] theorem Node.isWorded_of {form : Form} {span : Span} {parts : List (Role × Node)} :
    (Node.of form span parts).IsWorded ↔ form.isWorded = true := Iff.rfl

@[simp] theorem Node.isWorded_leaf {form : Form} {span : Span} :
    (Node.leaf form span).IsWorded ↔ form.isWorded = true := Iff.rfl

theorem Token.Kind.Spells.isWord {w : Text} (h : Token.Kind.ident.Spells w) : w.isWord = true := by
  obtain ⟨hne, hall, -, hfirst⟩ := h.word rfl
  obtain ⟨c, w, rfl⟩ := List.exists_cons_of_ne_nil hne
  simp only [Text.isWord, Bool.and_eq_true, List.all_eq_true, Bool.or_eq_true]
  exact ⟨hfirst c rfl, fun b hb => hall b (List.mem_cons_of_mem c hb)⟩

theorem Dotted.words {ts : List Token} {path : List Text} (h : Dotted ts path) (hs : Spelt ts) :
    path ≠ [] ∧ ∀ w ∈ path, w.isWord = true ∧ Token.Kind.ofWord w = .ident := by
  have hname {t : Token} (hk : t.kind = .ident) (ht : t.kind.Spells t.literal) :
      t.literal.isWord = true ∧ Token.Kind.ofWord t.literal = .ident := by
    rw [hk] at ht
    exact ⟨ht.isWord, (ht.word rfl).2.2.1⟩
  induction h with
  | one hk => simpa using hname hk (by simpa using hs)
  | more _ _ hk ih =>
      simp only [spelt_append, spelt_cons, spelt_nil, and_true] at hs
      refine ⟨by simp, fun w hw => ?_⟩
      rcases List.mem_append.mp hw with hw | hw
      · exact (ih hs.1).2 w hw
      · rw [List.mem_singleton.mp hw]
        exact hname hk hs.2.2

/-! ## Atoms -/

/-- Does the phrase stand for types without intersections? -/
def Phrase.isAtomic : Phrase → Bool
  | namedType | typeAtom => true
  | separated _ item => item.isAtomic
  | _ => false

theorem Reads.atoms {p : Phrase} {ts : List Token} {ns : List Node} (h : Reads p ts ns) :
    p.isAtomic = true → ∀ n ∈ ns, n.form.isAtom = true := by
  induction h with
  | separatedOne _ ih | typeName _ ih => exact ih
  | separatedMore _ _ _ _ ih₁ ih₂ =>
      intro hp n hn
      exact (List.mem_append.mp hn).elim (ih₁ hp n) (ih₂ hp n)
  | namedType | primitiveType | listType | funcType | arrayType | mapType =>
      intro _ n hn
      rw [List.mem_singleton.mp hn]
      rfl
  | _ => intro hp; cases hp

theorem Reads.atom {ts : List Token} {n : Node} (h : Reads .typeAtom ts [n]) :
    n.form.isAtom = true :=
  h.atoms rfl n (List.mem_singleton_self n)

/-! ## Types -/

theorem IsType.form_ne_badType {t : Node} (h : IsType t) : t.form ≠ .badType := by
  cases h <;> simp [Node.of, Node.leaf, Node.form]

/-- A type that brackets follow is no function type: those would belong to the result. -/
theorem IsType.takesSuffix {t : Node} (h : IsType t) (hatom : t.form.isAtom = true)
    (hbears : t.BearsSuffix) : t.form.takesSuffix = true := by
  cases h with
  | @func params result _ _ hresult =>
      obtain ⟨bad, hmem, hbad⟩ := hbears rfl
      rw [Node.of, Node.parts, Parts.toList_ofList] at hmem
      obtain rfl : bad = result := by simpa using hmem
      exact absurd hbad hresult.form_ne_badType
  | intersection => cases hatom
  | _ => rfl

/-- If the node is a type and is shaped as reading leaves it, it is one of those that are read
back. -/
def Node.TypedAsRead (n : Node) : Prop := n.form.isType = true → n.Shaped → IsType n

theorem Node.typedAsRead_of {form : Form} {span : Span} {parts : List (Role × Node)}
    (h : ¬ form.isType = true) : (Node.of form span parts).TypedAsRead :=
  fun htype => absurd htype h

theorem Node.typedAsRead_leaf {form : Form} {span : Span} (h : ¬ form.isType = true) :
    (Node.leaf form span).TypedAsRead :=
  fun htype => absurd htype h

/-- A type made of types that are such. -/
theorem Node.typedAsRead_compound {form : Form} {span : Span} {parts : List (Role × Node)}
    (hform : form.isCompound = true) (hparts : ∀ part ∈ parts, part.2.All TypedAsRead)
    (h : (∀ part ∈ parts, IsType part.2) → form.Requires parts → IsType (.of form span parts)) :
    ∀ n ∈ [Node.of form span parts], n.All TypedAsRead := by
  refine List.forall_mem_singleton.mpr (all_of.mpr ⟨fun _ hshaped => ?_, hparts⟩)
  obtain ⟨⟨-, hrequires⟩, hshaped⟩ := shaped_of.mp hshaped
  refine h (fun part hpart => ?_) hrequires
  exact (hparts part hpart).self (Form.isType_of_requires hform hrequires part hpart)
    (hshaped part hpart)

/-- The types in every phrase. -/
theorem Reads.types {p : Phrase} {ts : List Token} {ns : List Node} (h : Reads p ts ns) :
    Spelt ts → ∀ n ∈ ns, n.All Node.TypedAsRead := by
  induction h with
  | namedType hpath =>
      intro hs n hn
      obtain ⟨hne, hwords⟩ := hpath.words hs
      rw [List.mem_singleton.mp hn, Node.all_leaf]
      exact fun _ _ => .named hne fun w hw => (hwords w hw).2
  | primitiveType hk =>
      intro hs n hn
      rw [List.mem_singleton.mp hn, Node.all_leaf]
      exact fun _ _ => .primitive hk
  | @listType _ e lb rb _ _ _ ih =>
      intro hs
      simp only [List.cons_append, spelt_cons, spelt_append] at hs
      refine Node.typedAsRead_compound rfl (by simpa using ih hs.2.1) fun htypes _ => ?_
      exact .list (htypes _ List.mem_cons_self)
  | funcType _ _ _ _ hres ih₁ ih₂ =>
      intro hs
      simp only [List.cons_append, spelt_cons, spelt_append] at hs
      refine Node.typedAsRead_compound rfl ?_ fun htypes _ => ?_
      · refine List.forall_mem_append.mpr ⟨Rule.forall_mem_several.mpr (ih₁ hs.2.2.1), ?_⟩
        simpa using ih₂ hs.2.2.2.2
      · obtain ⟨hparams, hresult⟩ := List.forall_mem_append.mp htypes
        exact .func (Rule.forall_mem_several.mp hparams) (hresult _ List.mem_cons_self) hres.atom
  | arrayType he _ _ ih =>
      intro hs
      simp only [spelt_append] at hs
      refine Node.typedAsRead_compound rfl (by simpa using ih hs.1) fun htypes hrequires => ?_
      have htype := htypes _ List.mem_cons_self
      refine .array htype (htype.takesSuffix he.atom ?_)
      exact (hrequires _ List.mem_cons_self).2 (by simp)
  | mapType hv _ _ _ ih₁ ih₂ =>
      intro hs
      simp only [List.append_assoc, List.cons_append, spelt_cons, spelt_append] at hs
      refine Node.typedAsRead_compound rfl (by simp_all)
        fun htypes hrequires => ?_
      have hvalue := htypes _ List.mem_cons_self
      refine .map hvalue (hvalue.takesSuffix hv.atom ?_)
        (htypes _ (List.mem_cons_of_mem _ List.mem_cons_self))
      exact (hrequires _ List.mem_cons_self).2 (by simp)
  | intersection h ih =>
      intro hs
      refine Node.typedAsRead_compound rfl (Rule.forall_mem_several.mpr (ih hs)) fun htypes _ => ?_
      exact .intersection (Rule.forall_mem_several.mp htypes) (h.atoms rfl)
  | _ =>
      simp_all [Node.typedAsRead_of, Node.typedAsRead_leaf, Form.isType, Token.nameNode, or_imp,
        forall_and]

theorem Reads.worded {p : Phrase} {ts : List Token} {ns : List Node} (h : Reads p ts ns) :
    Spelt ts → ∀ n ∈ ns, n.All Node.IsWorded := by
  induction h with
  | namedType hpath =>
      intro hs n hn
      rw [List.mem_singleton.mp hn, Node.all_leaf, Node.isWorded_leaf]
      exact List.all_eq_true.mpr fun w hw => ((hpath.words hs).2 w hw).1
  | _ => simp_all [Form.isWorded, Token.nameNode, or_imp, forall_and]

/-- A node below another one stands behind it. -/
theorem Node.exists_getElem?_of_mem {tree t m : Node} {n : Nat} (ht : tree.preorder[n]? = some t)
    (hm : m ∈ t.preorder) : ∃ k, n ≤ k ∧ tree.preorder[k]? = some m := by
  obtain ⟨before, after, hsplit, rfl⟩ := tree.preorder_stretch ht
  obtain ⟨j, hj⟩ := List.mem_iff_getElem?.mp hm
  refine ⟨before.length + j, Nat.le_add_right _ _, ?_⟩
  rw [hsplit, List.getElem?_append_right (Nat.le_add_right _ _), Nat.add_sub_cancel_left,
    List.getElem?_append_left (List.getElem?_eq_some_iff.mp hj).1, hj]

/-- Every type of a script without faults is one of those that are read back, and its names are
words. -/
theorem Text.parse_types {source : Text} (h : source.parse.2.hasErrors = false) {n : Nat} {t : Node}
    (ht : source.parse.1.preorder[n]? = some t) (htype : t.form.isType = true) :
    IsType t ∧ t.All Node.IsWorded := by
  obtain ⟨body, eof, -, -, hspelt, -, htree⟩ := Text.parse_reads h
  have htyped : source.parse.1.All Node.TypedAsRead :=
    htree.all (fun _ _ => Node.typedAsRead_of (by simp [Form.isType])) fun hp hsub =>
      hp.types fun t ht => hspelt t (hsub ht)
  have hworded : source.parse.1.All Node.IsWorded :=
    htree.all (fun _ _ => rfl) fun hp hsub => hp.worded fun t ht => hspelt t (hsub ht)
  have hfile := source.parse_isFile
  have hshaped : t.Shaped := by
    intro m hm
    obtain ⟨k, hle, hk⟩ := Node.exists_getElem?_of_mem ht hm
    refine hfile.fits hk fun hzero => ?_
    rw [(hfile.form_eq_file_iff ht).mpr (Nat.le_zero.mp (hzero ▸ hle))] at htype
    cases htype
  refine ⟨htyped t (List.mem_of_getElem? ht) htype hshaped, fun m hm => ?_⟩
  obtain ⟨k, -, hk⟩ := Node.exists_getElem?_of_mem ht hm
  exact hworded m (List.mem_of_getElem? hk)

end Zensight
