import Zensight.Proofs.Defaults
import Zensight.Proofs.Pending
import Zensight.Proofs.RoundTrip
import Zensight.Proofs.WrittenTypes.Spelling

/-!
# Types are written as they are read

A type in a script has two spellings: that of its tree, and that of the type which the tree
stands for. Both are right. Reading the first one gives the tree again, because no type in the
tree of a script without faults is nested in a way that its spelling cannot show. And the second
one is the same text, as long as no name is looked up on the way.

A type asks for the types that it is made of, which have higher numbers. So a type that is
reached in this way is never pending, and `View.Echoes` goes up from the parts to the whole.
-/

namespace Zensight

/-! ## Reading the spelling -/

/-- What comes of reading a type at the beginning of a text: the type, and the reader behind it. -/
def Text.readType (s : Text) : Option (Node × Reader) :=
  let reader := Reader.ofText s
  (Grammar.upTo reader.ahead.length).type.run reader

/-- A type is read off its own spelling, to the end and without a fault. -/
theorem IsType.readType_typeText {t : Node} (h : IsType t) (hworded : t.All Node.IsWorded) :
    ∃ t' s, t.typeText.readType = some (t', s) ∧ t'.bare = t.bare ∧
      s.ahead.map Token.kind = [.eof] ∧ s.report = {} := by
  obtain ⟨ls, hcuts, hallow⟩ := h.spellsOut hworded [] [] Token.endsWord_nil .nil
  rw [List.append_nil, List.append_nil] at hcuts
  obtain ⟨ts, us, hscan, hts, hus⟩ := List.map_eq_append_iff.mp hcuts.scan
  obtain ⟨eof, rest, rfl, heof, hrest⟩ := List.map_eq_cons_iff.mp hus
  rw [List.map_eq_nil_iff.mp hrest] at hscan
  have hkind : eof.kind = .eof := congrArg Prod.fst heof
  have hat : (Reader.ofText t.typeText).At (ts ++ [eof]) {} := ⟨hscan, rfl⟩
  have hread := (Grammar.upTo_complete _).type.regains h (hallow ts hts) (by rw [hkind]; rfl) hat
    (Nat.le_of_eq (congrArg List.length hat.ahead_eq.symm))
  obtain ⟨t', s, heq, ht', hs⟩ := hread
  exact ⟨t', s, heq, ht', by rw [hs.ahead_eq, List.map_singleton, hkind], hs.report_eq⟩

/-! ## What types stand for -/

namespace Ty

theorem text_array (e : Ty) : (array e).text = e.text ++ txt "[]" := by
  rw [text, textThen, textThen_eq, List.append_nil]

theorem text_list (e : Ty) : (list e).text = txt "[" ++ (e.text ++ txt "]") := by
  rw [text, textThen, textThen_eq, List.append_nil]

theorem text_map (k v : Ty) :
    (map k v).text = v.text ++ (txt "[" ++ (k.text ++ txt "]")) := by
  rw [text, textThen, textThen_eq, textThen_eq, List.append_nil]

theorem text_function (ps : List Ty) (r : Ty) : (function ps r).text =
    txt "function(" ++ (Text.join (txt ",") (ps.map text) ++ (txt ")" ++ r.text)) := by
  rw [text, textThen, textsThen_eq, text]

theorem text_intersection (cs : List Ty) :
    (intersection cs).text = Text.join (txt " & ") (cs.map text) := by
  rw [text, textThen, textsThen_eq, List.append_nil]

end Ty

theorem Token.Kind.text_primitiveType {k : Kind} (h : k.isPrimitive = true) :
    k.primitiveType.text = k.name := by
  revert k
  decide

namespace View

variable {v : View} {id : ScriptId}

/-- Among the pending nodes of the script are only such as come before this one. -/
def PendingBefore (pending : List NodeRef) (id : ScriptId) (n : Nat) : Prop :=
  ∀ k ∈ pending, k.script = id → k.node < n

/-- What the node stands for is written as the node is spelled. -/
def Echoes (v : View) (id : ScriptId) (t : Node) : Prop :=
  ∀ (n : Nat) (pending : List NodeRef) (type : Ty), (v.script id).tree.preorder[n]? = some t →
    PendingBefore pending id n → Resolves v pending ⟨id, n⟩ type → type.text = t.typeText

theorem Told.of_typesOf_cons {pending : List NodeRef} {n : NodeRef} {ns : List NodeRef}
    {types : List Ty} (h : v.Told pending (typesOf (n :: ns)) types) :
    ∃ type rest, types = type :: rest ∧ Resolves v pending n type ∧
      v.Told pending (typesOf ns) rest := by
  obtain ⟨type, htype, h⟩ := h.of_bind
  obtain ⟨rest, hrest, h⟩ := h.of_bind
  exact ⟨type, rest, h.of_pure, htype.of_typeOf, hrest⟩

section

variable {n : Nat} {m : Node} {pending : List NodeRef} {role : Role}
  (hs : (v.script id).IsOutlined) (hm : (v.script id).tree.preorder[n]? = some m)
  (hpending : PendingBefore pending id n)

include hs hpending in
/-- To the parts of a node, the node is one that comes before. -/
theorem PendingBefore.part {c : Nat} (hc : c ∈ ((v.script id).entry n).all role) :
    PendingBefore (⟨id, n⟩ :: pending) id c := by
  have hlt : n < c := (hs.mem_parts_iff.mp (Entry.mem_all_iff.mp hc)).part.1
  refine List.forall_mem_cons.mpr ⟨fun _ => hlt, fun k hk hscript => ?_⟩
  exact Nat.lt_trans (hpending k hk hscript) hlt

include hs hm hpending

theorem text_of_partTypes {ps : List Node} (hps : m.parts.all role = ps)
    (hechoes : ∀ p ∈ ps, v.Echoes id p) {types : List Ty}
    (h : v.Told (⟨id, n⟩ :: pending) (v.partTypes ⟨id, n⟩ role) types) :
    types.map Ty.text = ps.map Node.typeText := by
  have hall : ∀ {cs : List NodeId} {ps : List Node} {types : List Ty},
      cs.map ((v.script id).tree.preorder[·]?) = ps.map some →
      (∀ c ∈ cs, PendingBefore (⟨id, n⟩ :: pending) id c) → (∀ p ∈ ps, v.Echoes id p) →
      v.Told (⟨id, n⟩ :: pending) (typesOf (cs.map fun c => ⟨id, c⟩)) types →
      types.map Ty.text = ps.map Node.typeText := by
    intro cs
    induction cs with
    | nil =>
        intro ps types hps _ _ h
        rw [List.map_eq_nil_iff.mp hps.symm, h.of_pure]
        rfl
    | cons c cs ih =>
        intro ps types hps hbefore hechoes h
        obtain ⟨p, ps, rfl, hp, hps⟩ := List.map_eq_cons_iff.mp hps.symm
        obtain ⟨type, rest, rfl, htype, hrest⟩ := h.of_typesOf_cons
        obtain ⟨hc, hcs⟩ := List.forall_mem_cons.mp hbefore
        obtain ⟨hpe, hpse⟩ := List.forall_mem_cons.mp hechoes
        rw [List.map_cons, List.map_cons, hpe c _ type hp.symm hc htype, ih hps.symm hcs hpse hrest]
  have hnumbers := hs.getElem?_all hm role
  rw [hps] at hnumbers
  exact hall hnumbers (fun c hc => hpending.part hs hc) hechoes h

theorem text_of_partType {e : Node} (he : m.parts.all role = [e]) (hecho : v.Echoes id e)
    {type : Ty} (h : v.Told (⟨id, n⟩ :: pending) (v.partType ⟨id, n⟩ role) type) :
    type.text = e.typeText := by
  have hnumbers := hs.getElem?_all hm role
  rw [he, List.map_cons] at hnumbers
  obtain ⟨c, cs, hcs, hc, -⟩ := List.map_eq_cons_iff.mp hnumbers
  have hpart : v.part? ⟨id, n⟩ role = some ⟨id, c⟩ := by
    rw [part?, entry, Entry.get?, hcs]
    rfl
  have hmem : c ∈ ((v.script id).entry n).all role := by
    rw [hcs]
    exact List.mem_cons_self
  rw [partType, hpart] at h
  exact hecho c _ type hc (hpending.part hs hmem) h.of_typeOf

end

/-- It is enough to look at the rule: the node itself is not pending. -/
theorem Echoes.of_rule {t : Node} (hs : (v.script id).IsOutlined)
    (h : ∀ (n : Nat) (pending : List NodeRef) (type : Ty),
      (v.script id).tree.preorder[n]? = some t → PendingBefore pending id n →
      (v.entry ⟨id, n⟩).form = t.form → v.Told (⟨id, n⟩ :: pending) (v.rule ⟨id, n⟩) type →
      type.text = t.typeText) : v.Echoes id t := by
  intro n pending type hn hpending htype
  have hnot : ⟨id, n⟩ ∉ pending := fun hmem => Nat.lt_irrefl n (hpending _ hmem rfl)
  exact h n pending type hn hpending (hs.form_eq hn) (htype.told hnot)

end View

/-- Is it the form of a type that is given by its name? -/
def Form.isNamed : Form → Bool
  | namedType _ => true
  | _ => false

open View in
/-- What a type without names stands for is written as the type is spelled. -/
theorem IsType.echoes {v : View} {id : ScriptId} {t : Node} (h : IsType t)
    (hs : (v.script id).IsOutlined)
    (hnames : t.All fun m => m.form.isNamed = false) : v.Echoes id t := by
  induction h with
  | @primitive kind span hk =>
      refine .of_rule hs fun n pending type hn hpending hform htold => ?_
      rw [View.rule, hform] at htold
      rw [htold.of_pure, Node.typeText, Node.leaf, Node.typeTextThen, List.append_nil]
      exact Token.Kind.text_primitiveType hk
  | named => cases Node.all_leaf.mp hnames
  | @list e span _ ih =>
      have he := ih ((Node.all_of.mp hnames).2 _ List.mem_cons_self)
      refine .of_rule hs fun n pending type hn hpending hform htold => ?_
      rw [View.rule, hform] at htold
      obtain ⟨element, helement, htold⟩ := htold.of_bind
      rw [htold.of_pure, Ty.text_list, Node.typeText_listType,
        text_of_partType hs hn hpending rfl he helement]
  | @func params result span _ _ _ ihparams ihresult =>
      have hparts := (Node.all_of.mp hnames).2
      have hresult := ihresult (hparts _ (List.mem_append_right _ List.mem_cons_self))
      have hparams : ∀ p ∈ params, v.Echoes id p := fun p hp => ihparams p hp
        (hparts (.param, p) (List.mem_append_left _ (List.mem_map_of_mem hp)))
      refine .of_rule hs fun n pending type hn hpending hform htold => ?_
      rw [View.rule, hform] at htold
      obtain ⟨r, hr, htold⟩ := htold.of_bind
      obtain ⟨ps, hps, htold⟩ := htold.of_bind
      rw [htold.of_pure, Ty.text_function, Node.typeText_funcType,
        text_of_partType hs hn hpending Parts.all_result hresult hr,
        text_of_partTypes hs hn hpending Parts.all_params hparams hps]
  | @array e span _ _ ih =>
      have he := ih ((Node.all_of.mp hnames).2 _ List.mem_cons_self)
      refine .of_rule hs fun n pending type hn hpending hform htold => ?_
      rw [View.rule, hform] at htold
      obtain ⟨element, helement, htold⟩ := htold.of_bind
      rw [htold.of_pure, Ty.text_array, Node.typeText_arrayType,
        text_of_partType hs hn hpending rfl he helement]
  | @map value key span _ _ _ ihv ihk =>
      have hparts := (Node.all_of.mp hnames).2
      have hvalue := ihv (hparts _ List.mem_cons_self)
      have hkey := ihk (hparts _ (List.mem_cons_of_mem _ List.mem_cons_self))
      refine .of_rule hs fun n pending type hn hpending hform htold => ?_
      rw [View.rule, hform] at htold
      obtain ⟨k, hk, htold⟩ := htold.of_bind
      obtain ⟨w, hw, htold⟩ := htold.of_bind
      rw [htold.of_pure, Ty.text_map, Node.typeText_mapType,
        text_of_partType hs hn hpending rfl hkey hk, text_of_partType hs hn hpending rfl hvalue hw]
  | @intersection first second rest span _ _ ih =>
      have hparts := (Node.all_of.mp hnames).2
      have hechoes : ∀ t ∈ first :: second :: rest, v.Echoes id t := fun t ht => ih t ht
        (hparts (.constituent, t) (List.mem_map_of_mem ht))
      refine .of_rule hs fun n pending type hn hpending hform htold => ?_
      rw [View.rule, hform] at htold
      obtain ⟨ts, hts, htold⟩ := htold.of_bind
      rw [htold.of_pure, Ty.text_intersection, Node.typeText_intersectionType,
        text_of_partTypes hs hn hpending Parts.all_constituents hechoes hts]

/-- Every type in the tree of a script without faults can be read off its spelling: what is read
has its structure, nothing is left over and nothing is reported. And a type in which no other
one is named stands for one that is written in the same way, whatever is known besides. -/
theorem Text.parse_types_legible (source : Text) (hclean : source.parse.2.hasErrors = false)
    {n : Nat} {t : Node} (hn : source.parse.1.preorder[n]? = some t)
    (ht : t.form.isType = true) :
    (∃ t' s, t.typeText.readType = some (t', s) ∧ t'.bare = t.bare ∧
      s.ahead.map Token.kind = [.eof] ∧ s.report = {}) ∧
    ((∀ m ∈ t.preorder, m.form.isNamed = false) →
      ∀ (v : View) (id : ScriptId) (path package : Text),
        v.script id = Script.parse path package source →
        (v.typeOf ⟨id, n⟩).text = t.typeText) := by
  obtain ⟨htype, hworded⟩ := Text.parse_types hclean hn ht
  refine ⟨htype.readType_typeText hworded, fun hnames v id path package hscript => ?_⟩
  have hs : (v.script id).IsOutlined := by
    rw [hscript]
    exact Script.parse_isOutlined path package source
  have htree : (v.script id).tree = source.parse.1 := by
    rw [hscript]
    rfl
  rw [← htree] at hn
  exact htype.echoes hs hnames n [] _ hn (List.forall_mem_nil _) (v.typeOf_resolves ⟨id, n⟩)

/-- A script with a type of every kind that needs no name. -/
def layeredScript : Text :=
  txt "var table as function(int [], [string],) bool[string]&any[][any] = null;"

/-- How its type is spelled: with other blanks, and without the comma that ends the list. -/
def layeredType : Text := txt "function(int[],[string])bool[string] & any[][any]"

theorem layeredScript_types_legible :
    ∃ t, layeredScript.parse.1.preorder[3]? = some t ∧
      (∃ t' s, layeredType.readType = some (t', s) ∧ t'.bare = t.bare ∧
        s.ahead.map Token.kind = [.eof] ∧ s.report = {}) ∧
      ((View.ofEnvironment { root := [], scripts := #[Script.parse [] [] layeredScript] }).typeOf
        ⟨0, 3⟩).text = layeredType := by
  have hparse : layeredScript.parse.2.hasErrors = false ∧
      ∃ t ∈ layeredScript.parse.1.preorder[3]?, t.form.isType = true ∧
        t.typeText = layeredType ∧ ∀ m ∈ t.preorder, m.form.isNamed = false := by decide +kernel
  obtain ⟨hclean, t, hn, ht, htext, hnames⟩ := hparse
  have hlegible := Text.parse_types_legible layeredScript hclean hn ht
  rw [htext] at hlegible
  exact ⟨t, hn, hlegible.1, hlegible.2 hnames _ 0 [] [] rfl⟩

end Zensight
