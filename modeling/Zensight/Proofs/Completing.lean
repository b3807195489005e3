import Zensight.Proofs.Paths
import Zensight.Proofs.Placement
import Zensight.Proofs.Tables
import Zensight.Query.Completion

/-!
# Completion finds every access

The dot of an access is the first token that starts where its receiver has ended, or behind.
Asked for just behind the dot, or anywhere in a name that follows it, completion looks at the
byte before: going down to it leads to the access or to its name (`Text.parse_seeks`), neither of
which the receiver hides, and from the name the next step up is the access. Nothing else counts,
so it makes no difference what is broken around the access.
-/

namespace Zensight

namespace Tokens

variable {t : Tokens} {i d j : Nat} {receiver name : Node}

/-- The first token that starts no earlier than another one has ended is the next one. -/
theorem find?_eq (ht : t.Legal) (h : 0 < d) (hd : d < t.body.length) :
    (t.body ++ [t.final]).find? (fun u => !u.place.isBefore (t (d - 1)).stop) = some (t d) := by
  have hsplit : t.body ++ [t.final] =
      t.body.take d ++ t d :: (t.body.drop (d + 1) ++ [t.final]) := by
    have hnth : t d = t.body[d] := by simp [nth, hd]
    rw [hnth, ← List.cons_append, ← List.drop_eq_getElem_cons hd, ← List.append_assoc,
      List.take_append_drop]
  have hnext := stop_le (ht.kind_ne (d - 1)) (show d - 1 < d by omega)
  rw [List.find?_eq_some_iff_append]
  refine ⟨(Bool.not_eq_true' _).mpr (Bool.eq_false_iff.mpr hnext), _, _, hsplit, fun u hu => ?_⟩
  obtain ⟨k, hk, hku⟩ := List.mem_take_iff_getElem.mp hu
  have hkt : u = t k := by
    rw [← hku]
    simp [nth, show k < t.body.length by omega]
  have hbefore := place_before_stop (show k < t.body.length by omega) (ht.kind_ne k)
  have hle := stop_le_stop (ht.kind_ne k) (show k ≤ d - 1 by omega)
  rw [hkt, Bool.not_not]
  rw [Place.isBefore_iff] at hbefore ⊢
  rw [Place.le_iff] at hle
  omega

/-- A dot is one byte wide. -/
theorem stop_dot (h : (t d).kind = .dot) :
    (t d).stop = ⟨(t d).place.line, (t d).place.column + 1⟩ := by
  have hd : d < t.body.length := lt_of_kind_ne (by rw [h]; decide)
  have hfixed : (t d).literal = (t d).kind.name :=
    (t.spelt _ (nth_of_lt hd).1).fixed (by rw [h]; rfl)
  rw [Token.stop, hfixed, h]
  rfl

/-- A name that is there does not look like one that is missing. -/
theorem not_isPlaceholder (h : (t i).kind.IsWord) : Rule.isPlaceholder (t i).literal = false := by
  have hi := lt_of_kind_ne h.ne_eof
  have hspells := t.spelt _ (nth_of_lt hi).1
  have hne := literal_ne_nil hi h.ne_illegal
  have hmissing : (t i).literal ≠ Rule.missingName := by
    rcases h with h | h
    · intro hmissing
      have hletter := (hspells.word h).2.1 (byte '<') (by rw [hmissing]; decide)
      exact absurd hletter (by decide)
    · rw [hspells.fixed (Token.Kind.isFixed_of_isKeyword h)]
      intro hmissing
      have hword := Token.Kind.name_of_isKeyword h
      rw [hmissing] at hword
      rw [← hword] at h
      revert h
      decide
  simpa [Rule.isPlaceholder] using ⟨hne, hmissing⟩

theorem Access.dot_lt (h : t.Access i d j receiver name) : d < t.body.length :=
  lt_of_kind_ne (by rw [h.dot]; decide)

theorem Access.lt_stop (h : t.Access i d j receiver name) : d < j := by
  cases h.names <;> omega

end Tokens

/-! ## The access at a place -/

namespace Script

variable {s : Script} {t : Tokens} {n : NodeId} {i d j : Nat} {receiver name : Node}

/-- The node numbered `n` is an access that stands on the tokens from `i` to `j`, and it is on
the way to every place on them. -/
structure AccessAt (s : Script) (t : Tokens) (n : NodeId) (i d j : Nat)
    (receiver name : Node) : Prop where
  node : ∃ m, s.tree.preorder[n]? = some m ∧ m.form = .memberExpr ∧
    m.parts = .ofList [(.operand, receiver), (.name, name)]
  access : t.Access i d j receiver name
  legal : t.Legal
  nodeAt_eq : ∀ q : Place, t.Shows (i, j) q → s.nodeAt q.line q.column =
    ((Parts.ofList [(.operand, receiver), (.name, name)]).idAtFrom q.line q.column (n + 1)).getD n

theorem exists_accessAt {path package source : Text} (ht : t.Legal)
    (hs : s = parse path package source) (hscan : Token.scan source = t.body ++ [t.final])
    (hform : s.form n = .memberExpr) :
    ∃ i d j receiver name, s.AccessAt t n i d j receiver name := by
  have hparsed : s.Parsed := ⟨path, package, source, hs⟩
  have htree : s.tree = source.parse.1 := by
    rw [hs]
    rfl
  have hn : n < s.size := by
    by_contra hn
    rw [form, entry, Array.getElem?_eq_none (Nat.le_of_not_lt hn)] at hform
    cases hform
  obtain ⟨m, hm⟩ := hparsed.isOutlined.exists_node hn
  have hmform : m.form = .memberExpr := (hparsed.isOutlined.form_eq hm).symm.trans hform
  have hpos : 0 < n := by
    refine Nat.pos_of_ne_zero fun hzero => ?_
    rw [(hparsed.isFile.form_eq_file_iff hm).mpr hzero] at hmform
    cases hmform
  obtain ⟨⟨i, j⟩, hon, hseeks⟩ := Text.parse_seeks ht hscan hpos (htree ▸ hm)
  cases hon with
  | intro runs hspan hjoins _ _ _ =>
      rw [hmform] at hjoins
      obtain ⟨d, receiver, name, hparts, haccess⟩ := hjoins
      refine ⟨i, d, j, receiver, name, ⟨m, hm, hmform, hparts⟩, haccess, ht, fun q hq => ?_⟩
      rw [nodeAt, htree, hseeks q hq, Option.getD_some]
      obtain ⟨form, span, parts⟩ := m
      cases hparts
      rfl

theorem ancestry_eq_cons (s : Script) (fuel : Nat) (n : NodeId) :
    ∃ rest, s.ancestry fuel n = n :: rest := by
  cases fuel <;> exact ⟨_, rfl⟩

theorem ancestry_of_parent {c p : NodeId} (h : s.parent? c = some p) (fuel : Nat) :
    ∃ rest, s.ancestry (fuel + 1) c = c :: p :: rest := by
  obtain ⟨rest, hrest⟩ := s.ancestry_eq_cons fuel p
  refine ⟨rest, ?_⟩
  rw [ancestry, h]
  exact congrArg (c :: ·) hrest

namespace AccessAt

theorem stop_eq (h : s.AccessAt t n i d j receiver name) :
    receiver.span.stop = (t (d - 1)).stop :=
  h.access.stop_eq (h.legal.kind_ne _)

/-- The numbers of the receiver and of the name. -/
theorem numbered_eq (h : s.AccessAt t n i d j receiver name) :
    ∃ m, s.tree.preorder[n]? = some m ∧ m.form = .memberExpr ∧
      m.parts.numbered (n + 1) = [(.operand, n + 1), (.name, n + 1 + receiver.size)] ∧
      m.parts.preorder = receiver.preorder ++ name.preorder := by
  obtain ⟨m, hm, hform, hparts⟩ := h.node
  refine ⟨m, hm, hform, by rw [hparts]; rfl, ?_⟩
  rw [hparts]
  simp [Parts.ofList, Parts.preorder]

theorem receiver_eq (h : s.AccessAt t n i d j receiver name) :
    s.tree.preorder[n + 1]? = some receiver := by
  obtain ⟨m, hm, -, hnumbered, hpreorder⟩ := h.numbered_eq
  rw [Node.getElem?_part hm (r := .operand) (by simp [hnumbered]), hpreorder, Nat.sub_self,
    List.getElem?_append_left (by simp [receiver.size_eq]), receiver.getElem?_preorder_zero]

theorem name_eq (h : s.AccessAt t n i d j receiver name) :
    s.tree.preorder[n + 1 + receiver.size]? = some name := by
  obtain ⟨m, hm, -, hnumbered, hpreorder⟩ := h.numbered_eq
  rw [Node.getElem?_part hm (r := .name) (by simp [hnumbered]), hpreorder,
    List.getElem?_append_right (by simp), receiver.length_preorder, Nat.add_sub_cancel_left,
    Nat.sub_self, name.getElem?_preorder_zero]

variable (hs : s.Parsed) (h : s.AccessAt t n i d j receiver name)
include hs h

theorem form_eq : s.form n = .memberExpr := by
  obtain ⟨m, hm, hform, -⟩ := h.node
  exact (hs.isOutlined.form_eq hm).trans hform

theorem get?_operand : (s.entry n).get? .operand = some (n + 1) := by
  obtain ⟨m, hm, -, hnumbered, -⟩ := h.numbered_eq
  rw [hs.isOutlined.entry_eq hm, Entry.get?, Entry.all, Node.entryAt, hnumbered]
  rfl

theorem get?_name : (s.entry n).get? .name = some (n + 1 + receiver.size) := by
  obtain ⟨m, hm, -, hnumbered, -⟩ := h.numbered_eq
  rw [hs.isOutlined.entry_eq hm, Entry.get?, Entry.all, Node.entryAt, hnumbered]
  rfl

theorem span_receiver : (s.entry (n + 1)).span = receiver.span := by
  rw [hs.isOutlined.entry_eq h.receiver_eq]
  rfl

theorem span_name : (s.entry (n + 1 + receiver.size)).span = name.span := by
  rw [hs.isOutlined.entry_eq h.name_eq]
  rfl

theorem identName_name : s.identName (n + 1 + receiver.size) = name.identName := by
  rw [identName, hs.isOutlined.form_eq h.name_eq]
  rfl

theorem parent?_name : s.parent? (n + 1 + receiver.size) = some n := by
  obtain ⟨m, hm, -, hnumbered, -⟩ := h.numbered_eq
  refine (hs.parent?_eq_some_iff _ n).mpr ⟨.name, hs.isOutlined.mem_parts_iff.mpr ⟨m, hm, ?_⟩⟩
  simp [hnumbered]

/-- Behind its receiver an access is one that may be completed. -/
theorem isAccessBefore {q : Place} {column : Int} (hq : (t d).place ≤ q)
    (hcolumn : column = q.column + 1) : s.isAccessBefore q.line column n = true := by
  have hstop : receiver.span.stop ≤ q := by
    have hlt := h.access.lt
    rw [h.stop_eq]
    exact Place.le_trans (Tokens.stop_le (h.legal.kind_ne _) (by omega)) hq
  have hform : (s.entry n).form = .memberExpr := h.form_eq hs
  rw [Script.isAccessBefore, hform, h.get?_operand hs]
  simp only [h.span_receiver hs]
  rw [Place.le_iff] at hstop
  simp only [Bool.or_eq_true, decide_eq_true_eq, Bool.and_eq_true, beq_iff_eq]
  omega

/-- From the dot of an access to its end, the access is the one that is completed. -/
theorem accessAt?_eq {q : Place} {line column : Int} (hq : (t d).place ≤ q)
    (hbefore : q.isBefore (t (j - 1)).stop = true) (hpos : 0 < q.column)
    (hline : line = q.line) (hcolumn : column = q.column + 1) :
    s.accessAt? line column = some n := by
  subst hline
  have hlt := h.access.lt
  have hbehind : s.isAccessBefore q.line column n = true := h.isAccessBefore hs hq hcolumn
  have hdj := h.access.lt_stop
  have hshows : t.Shows (i, j) q :=
    ⟨by dsimp only; omega, Place.le_trans (Tokens.place_le (by dsimp only; omega)) hq, hbefore⟩
  have hreceiver : receiver.span.contains q.line q.column = false := by
    rw [Bool.eq_false_iff]
    intro hcontains
    have hstop := Tokens.stop_le (h.legal.kind_ne (d - 1)) (show d - 1 < d by omega)
    have hinside := (Span.contains_iff.mp hcontains).2
    rw [h.stop_eq, Place.isBefore_iff] at hinside
    rw [Place.le_iff] at hstop hq
    omega
  have hnode := h.nodeAt_eq q hshows
  rw [accessAt?, if_neg (by omega), show column - 1 = q.column by omega, hnode]
  simp only [Parts.ofList, Parts.idAtFrom, hreceiver, Bool.false_eq_true, if_false]
  split
  · -- In the name: the access is one step up.
    have hleaf : name.idAtFrom q.line q.column (n + 1 + receiver.size) = n + 1 + receiver.size := by
      cases h.access.names <;> rfl
    have hname : s.isAccessBefore q.line column (n + 1 + receiver.size) = false := by
      have hform := hs.isOutlined.form_eq h.name_eq
      rw [form] at hform
      rw [Script.isAccessBefore, hform]
      cases h.access.names <;> rfl
    obtain ⟨rest, hrest⟩ := ancestry_of_parent (h.parent?_name hs) (n + receiver.size)
    rw [← Nat.add_right_comm] at hrest
    rw [Option.getD_some, hleaf, hrest, List.find?_cons_of_neg (by simp [hname]),
      List.find?_cons_of_pos hbehind]
  · obtain ⟨rest, hrest⟩ := s.ancestry_eq_cons n n
    rw [Option.getD_none, hrest, List.find?_cons_of_pos hbehind]

/-- Right behind the dot. -/
theorem accessAt?_dot :
    s.accessAt? (t d).place.line ((t d).place.column + 1) = some n := by
  have hd := h.access.dot_lt
  have hdj := h.access.lt_stop
  have hpos := t.column_pos _ (Tokens.nth_of_lt hd).1
  refine h.accessAt?_eq hs (Place.le_refl _) ?_ hpos rfl rfl
  have hbefore := Tokens.place_before_stop hd (h.legal.kind_ne d)
  have hle := Tokens.stop_le_stop (h.legal.kind_ne d) (show d ≤ j - 1 by omega)
  rw [Place.isBefore_iff] at *
  rw [Place.le_iff] at hle
  omega

/-- Within a name that is there. -/
theorem accessAt?_name {k : Nat} (hk : k < name.identName.length) :
    s.accessAt? name.span.start.line (name.span.start.column + k + 1) = some n := by
  have hnames := h.access.names
  cases hnames with
  | missing => cases hk
  | word hword =>
      have hd : d + 1 < t.body.length := Tokens.lt_of_kind_ne hword.ne_eof
      have hle := Tokens.place_le (t := t) (show d ≤ d + 1 by omega)
      have hpos := t.column_pos _ (Tokens.nth_of_lt hd).1
      have hq : (t d).place ≤ ⟨(t (d + 1)).place.line, (t (d + 1)).place.column + k⟩ := by
        rw [Place.le_iff] at hle ⊢
        dsimp only
        omega
      refine h.accessAt?_eq hs hq ?_ (Nat.lt_of_lt_of_le hpos (Nat.le_add_right _ k)) rfl rfl
      rw [Place.isBefore_iff]
      exact .inr ⟨rfl, Nat.add_lt_add_left hk _⟩

theorem typedName_eq (line column : Int) : s.typedName n line column =
    if name.identName ≠ Rule.missingName ∧ (name.span.start.line : Int) = line ∧
        column > name.span.start.column then
      name.identName.take (column - name.span.start.column).toNat
    else [] := by
  rw [typedName, h.get?_name hs]
  simp only [h.identName_name hs, h.span_name hs]

/-- Nothing has been typed of a name that is missing. -/
theorem typedName_missing (hmissing : Rule.isPlaceholder name.identName = true)
    (line column : Int) : s.typedName n line column = [] := by
  have hname : name.identName = [] := by
    cases h.access.names with
    | missing => rfl
    | word hword =>
        have hnot : Rule.isPlaceholder (t (d + 1)).literal = false :=
          Tokens.not_isPlaceholder hword
        exact absurd (hnot.symm.trans hmissing) Bool.false_ne_true
  rw [h.typedName_eq hs, hname, List.take_nil, ite_self]

/-- The first bytes of a name are what has been typed behind them. -/
theorem typedName_take {k : Nat} (hk : k ≤ name.identName.length) :
    s.typedName n name.span.start.line (name.span.start.column + k) = name.identName.take k := by
  rw [h.typedName_eq hs]
  split
  · congr 1
    omega
  · next hnot =>
      cases k with
      | zero => rfl
      | succ k =>
          refine absurd ⟨fun hmissing => ?_, rfl, by omega⟩ hnot
          cases h.access.names with
          | missing => cases hk
          | word hword =>
              have hplaceholder : Rule.isPlaceholder (t (d + 1)).literal = false :=
                Tokens.not_isPlaceholder hword
              rw [show (t (d + 1)).literal = Rule.missingName from hmissing] at hplaceholder
              cases hplaceholder

end AccessAt

end Script

namespace Environment

variable {e : Environment} {id : ScriptId} {t : Tokens} {n : NodeId} {i d j : Nat}
  {receiver name : Node}

/-- A member as it is offered. -/
def completion (e : Environment) (m : Symbol) : Completion :=
  { name := m.name, kind := m.kind, type := e.view.answer (e.view.symbolType m) }

/-- The members of a type that an access may name, in their order. -/
def accessible (e : Environment) (type : Ty) : List Symbol :=
  (e.view.answer (e.view.membersOf type)).filter (·.kind != .operator)

/-- What is offered at a place are the members of the receiver that begin with what is typed. -/
theorem completions?_eq_map (e : Environment) (id : ScriptId) (line column : Int) :
    e.completions? id line column = ((e.script id).accessAt? line column).map fun access =>
      ((e.accessible (e.view.answer (e.view.partType ⟨id, access⟩ .operand))).filter fun m =>
        (e.script id).typedName access line column <+: m.name).map e.completion := by
  have hbegins (typed : Text) (m : Symbol) :
      decide (typed <+: m.name) = m.name.startsWith typed := by
    rw [Bool.eq_iff_iff, decide_eq_true_iff, Text.startsWith_iff]
  rw [completions?]
  simp only [hbegins, Option.bind_eq_bind, accessible, List.filter_filter, Bool.and_comm]
  cases (e.script id).accessAt? line column <;> rfl

theorem completions?_eq (hs : (e.script id).Parsed)
    (h : (e.script id).AccessAt t n i d j receiver name) {line column : Int} {typed : Text}
    (haccess : (e.script id).accessAt? line column = some n)
    (htyped : (e.script id).typedName n line column = typed) :
    e.completions? id line column =
      some (((e.accessible (e.view.typeOf ⟨id, n + 1⟩)).filter fun m =>
        typed <+: m.name).map e.completion) := by
  have hpart : e.view.part? ⟨id, n⟩ .operand = some ⟨id, n + 1⟩ := by
    rw [View.part?]
    exact congrArg (Option.map _) (h.get?_operand hs)
  have htype : e.view.answer (e.view.partType ⟨id, n⟩ .operand) = e.view.typeOf ⟨id, n + 1⟩ := by
    rw [View.partType, hpart]
    rfl
  rw [completions?_eq_map, haccess, Option.map_some, htyped, htype]

/-- Completion finds every access to a member in a script without illegal tokens, whatever else is
wrong with it. The dot of the access is the first token where its receiver has ended. If the name
is missing, the members of the type of the receiver are offered just behind the dot, in their
order and without the operators. If the dot stands directly before the name, then behind the first
`k` bytes of the name those members are offered whose names begin with them. -/
theorem completions_at_access {path package source : Text}
    (hscript : e.script id = Script.parse path package source)
    (hlegal : ∀ u ∈ Token.scan source, u.kind ≠ .illegal)
    (hform : (e.script id).form n = .memberExpr) :
    ∃ receiver name dot,
      ((e.script id).entry n).get? .operand = some receiver ∧
      ((e.script id).entry n).get? .name = some name ∧
      (Token.scan source).find? (fun u =>
        !u.place.isBefore ((e.script id).entry receiver).span.stop) = some dot ∧
      dot.kind = .dot ∧
      (Rule.isPlaceholder ((e.script id).identName name) = true →
        e.completions? id dot.place.line (dot.place.column + 1) =
          some ((e.accessible (e.view.typeOf ⟨id, receiver⟩)).map e.completion)) ∧
      (dot.stop = ((e.script id).entry name).span.start →
        ∀ k ≤ ((e.script id).identName name).length,
          e.completions? id ((e.script id).entry name).span.start.line
              (((e.script id).entry name).span.start.column + k) =
            some (((e.accessible (e.view.typeOf ⟨id, receiver⟩)).filter fun m =>
              ((e.script id).identName name).take k <+: m.name).map e.completion)) := by
  obtain ⟨t, hscan⟩ := source.exists_tokens
  have ht : t.Legal := fun u hu => hlegal u (by simp [hscan, hu])
  obtain ⟨i, d, j, receiver, name, h⟩ := Script.exists_accessAt ht hscript hscan hform
  have hs : (e.script id).Parsed := ⟨path, package, source, hscript⟩
  have haccess := h.access
  refine ⟨n + 1, n + 1 + receiver.size, t d, h.get?_operand hs, h.get?_name hs, ?_, haccess.dot,
    fun hmissing => ?_, fun hdirect k hk => ?_⟩
  · rw [h.span_receiver hs, h.stop_eq, hscan]
    exact Tokens.find?_eq ht (Nat.zero_lt_of_lt haccess.lt) haccess.dot_lt
  · rw [h.identName_name hs] at hmissing
    rw [completions?_eq hs h (h.accessAt?_dot hs) (h.typedName_missing hs hmissing _ _)]
    simp
  · rw [h.span_name hs] at hdirect ⊢
    rw [h.identName_name hs] at hk ⊢
    refine completions?_eq hs h ?_ (h.typedName_take hs hk)
    cases k with
    | zero =>
        -- Nothing has been typed yet: the place before is that of the dot.
        rw [← hdirect, Tokens.stop_dot haccess.dot]
        exact h.accessAt?_dot hs
    | succ k =>
        have hcolumn : (name.span.start.column + (k + 1 : Nat) : Int) =
            name.span.start.column + k + 1 := by omega
        rw [hcolumn]
        exact h.accessAt?_name hs hk

/-- A script that breaks off behind a broken condition. One of its accesses has no name. -/
def unfinishedScript : Text :=
  txt "zenClass A\x7bval x;operator!()\x7b\x7dval go;\x7d" ++ txt "val a as A;if(a.\n;)[a.go"

def unfinished : Environment :=
  ((({ root := txt "scripts" } : Environment).intern
    (Script.parse (txt "a") (txt "scripts.a") unfinishedScript)).2).replace 0

theorem script_unfinished :
    unfinished.script 0 = Script.parse (txt "a") (txt "scripts.a") unfinishedScript := rfl

/-- The two accesses, with the numbers of their receivers and names and with their dots. -/
theorem unfinished_accesses :
    ((∀ u ∈ Token.scan unfinishedScript, u.kind ≠ .illegal) ∧
      unfinishedScript.parse.2.hasErrors = true ∧
      (unfinished.accessible (unfinished.view.typeOf ⟨0, 15⟩)).map (·.name) =
        [txt "x", txt "go"]) ∧
    ((unfinished.script 0).form 14 = .memberExpr ∧
      ((unfinished.script 0).entry 14).get? .operand = some 15 ∧
      ((unfinished.script 0).entry 14).get? .name = some 16 ∧
      (Token.scan unfinishedScript).find? (fun u =>
        !u.place.isBefore ((unfinished.script 0).entry 15).span.stop) =
          some ⟨.dot, txt ".", ⟨1, 54⟩⟩ ∧
      Rule.isPlaceholder ((unfinished.script 0).identName 16) = true) ∧
    (unfinished.script 0).form 21 = .memberExpr ∧
      ((unfinished.script 0).entry 21).get? .operand = some 22 ∧
      ((unfinished.script 0).entry 21).get? .name = some 23 ∧
      (Token.scan unfinishedScript).find? (fun u =>
        !u.place.isBefore ((unfinished.script 0).entry 22).span.stop) =
          some ⟨.dot, txt ".", ⟨2, 5⟩⟩ ∧
      (unfinished.script 0).identName 23 = txt "go" ∧
      ((unfinished.script 0).entry 23).span.start = ⟨2, 6⟩ := by
  decide +kernel

theorem unfinished_completions :
    unfinishedScript.parse.2.hasErrors = true ∧
    (unfinished.accessible (unfinished.view.typeOf ⟨0, 15⟩)).map (·.name) = [txt "x", txt "go"] ∧
    unfinished.completions? 0 1 55 =
      some ((unfinished.accessible (unfinished.view.typeOf ⟨0, 15⟩)).map unfinished.completion) ∧
    ∀ k : Nat, k ≤ 2 → unfinished.completions? 0 2 (6 + k) =
      some (((unfinished.accessible (unfinished.view.typeOf ⟨0, 22⟩)).filter fun m =>
        (txt "go").take k <+: m.name).map unfinished.completion) := by
  obtain ⟨⟨hlegal, herrors, hmembers⟩, ⟨hform, hoperand, hname, hdot, hmissing⟩,
    hform', hoperand', hname', hdot', hgo, hstart⟩ := unfinished_accesses
  refine ⟨herrors, hmembers, ?_, ?_⟩
  · obtain ⟨receiver, name, dot, hr, hn, hd, -, hoffers, -⟩ :=
      completions_at_access script_unfinished hlegal hform
    cases hoperand.symm.trans hr
    cases hname.symm.trans hn
    cases hdot.symm.trans hd
    exact hoffers hmissing
  · obtain ⟨receiver, name, dot, hr, hn, hd, -, -, hoffers⟩ :=
      completions_at_access script_unfinished hlegal hform'
    cases hoperand'.symm.trans hr
    cases hname'.symm.trans hn
    cases hdot'.symm.trans hd
    rw [hgo, hstart] at hoffers
    exact hoffers rfl

end Environment

end Zensight
