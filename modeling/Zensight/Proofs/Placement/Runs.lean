import Zensight.Proofs.Categories
import Zensight.Proofs.Placement.Steps

/-!
# Nodes and the tokens they stand on

In a script with faults spans do not nest: a placeholder may lie on a token that it leaves to
the next rule, and a node may end behind the one it is part of. What still holds is said in
numbers of tokens. Every node stands on a run of tokens, from the one that its rule starts at
to the one that its rule stops before; if no token is illegal, it covers its run and reaches at
most one token past it (`Span.On`). The runs of its parts lie inside its own and do not meet
(`Node.On`). Of an access it is known besides where its dot stands, and that its receiver ends
with the token before.

Nodes are put together from parts in a row, each of the category that its role asks for
(`Tokens.Lays`), and then belong to a category themselves (`Node.Takes`).
-/

namespace Zensight

/-- The span of a node whose rule starts at the token `i` and stops before the token `j`. It
may reach over the token `j`, but no further. -/
structure Span.On (t : Tokens) (i j : Nat) (span : Span) : Prop where
  le : i ≤ j
  start_eq : span.start = (t i).place
  forward : span.IsForward
  covers : t.Legal → ∀ k, i ≤ k → k < j → (t k).stop ≤ span.stop
  ends : t.Legal → ∀ k, j < k → span.stop ≤ (t k).place

/-- A span from the token `i` to the one before `j`, as it is taken when `j` is next. It ends
with that token unless it is illegal. -/
structure Span.Since (t : Tokens) (i j : Nat) (span : Span) : Prop where
  on : span.On t i j
  eq : (t (j - 1)).kind ≠ .illegal → span = t.span i j

namespace Span

variable {t : Tokens} {i j a b : Nat}

theorem On.span (h : i ≤ j) : (t.span i j).On t i j := by
  refine ⟨h, rfl, ?_, fun ht k _ hkj => ?_, fun ht k hjk => ?_⟩
  · exact Place.le_trans (Tokens.place_le (Nat.le_max_left i _)) (Token.place_le_stop _)
  · exact Tokens.stop_le_stop (ht.kind_ne k) (by omega)
  · exact Tokens.stop_le (ht.kind_ne _) (by omega)

theorem On.empty : (Span.empty (t i)).On t i i := by
  refine ⟨Nat.le_refl i, rfl, Place.le_refl _, fun _ k hik hki => ?_, fun _ k hik => ?_⟩
  · omega
  · exact Tokens.place_le (Nat.le_of_lt hik)

/-- From the start of one node to the end of a later one. -/
theorem On.between {first last : Node} (hfirst : first.span.On t i a)
    (hlast : last.span.On t b j) (h : i ≤ b) : (Span.between first last).On t i j := by
  have hreach : (t b).place ≤ last.span.stop := hlast.start_eq ▸ hlast.forward
  refine ⟨Nat.le_trans h hlast.le, hfirst.start_eq, ?_, fun ht k _ hkj => ?_, hlast.ends⟩
  · show first.span.start ≤ last.span.stop
    rw [hfirst.start_eq]
    exact Place.le_trans (Tokens.place_le h) hreach
  · rcases Nat.lt_or_ge k b with hkb | hbk
    · exact Place.le_trans (Tokens.stop_le (ht.kind_ne k) hkb) hreach
    · exact hlast.covers ht k hbk hkj

theorem Since.reaching {stop : Place} (hij : i ≤ j) (hj : j ≤ t.body.length)
    (hstop : (t i).place ≤ stop) (hsame : i = j → stop = (t i).stop) :
    (Span.reaching (t i).place stop (t (j - 1)).stop).Since t i j := by
  have heq : (t (j - 1)).kind ≠ .illegal →
      Span.reaching (t i).place stop (t (j - 1)).stop = t.span i j := by
    intro hlegal
    rw [Tokens.span, Span.reaching]
    rcases Nat.eq_or_lt_of_le hij with rfl | hlt
    · rw [hsame rfl, show max i (i - 1) = i by omega]
      split
      · rfl
      · next hlater =>
          -- A token that ends behind the next one is the next one itself.
          cases i with
          | zero => rfl
          | succ i =>
              have hle := Tokens.stop_le hlegal (Nat.lt_succ_self i)
              rw [Place.le_iff] at hle
              exact (hlater hle).elim
    · have hbefore := Tokens.place_before_stop (by omega) hlegal
      have hle := Tokens.place_le (t := t) (show i ≤ j - 1 by omega)
      rw [show max i (j - 1) = j - 1 by omega, if_neg]
      rw [Place.isBefore_iff] at hbefore
      rw [Place.le_iff] at hle
      omega
  have hon : (t.span i j).On t i j := .span hij
  refine ⟨⟨hij, Span.start_reaching .., reaching_forward hstop _, fun ht => ?_, fun ht => ?_⟩, heq⟩
  · rw [heq (ht.kind_ne _)]
    exact hon.covers ht
  · rw [heq (ht.kind_ne _)]
    exact hon.ends ht

end Span

namespace Read.Moves

variable {β : Type} {t : Tokens} {i k : Nat} {f : Span → Read β} {Q : Nat → β → Prop}

/-- The span from a token passed, or about to be passed, to the one passed last. -/
theorem since (hk : k ≤ i) (hf : ∀ span, span.Since t k i → Moves t i (f span) Q) :
    Moves t i (Read.spanSince (t k) >>= f) Q := by
  intro r b s hr heq
  obtain ⟨span, r', hspan, hfspan⟩ := bind_eq_some heq
  cases hspan
  rw [hr.previous_eq] at hfspan
  exact hf _ (.reaching hk hr.le (Token.place_le_stop _) fun _ => rfl) r b s hr hfspan

/-- The span from the start of a node to the token passed last. -/
theorem sinceNode {n : Node} (hn : n.span.start = (t k).place) (hk : k < i)
    (hf : ∀ span, span.Since t k i → Moves t i (f span) Q) :
    Moves t i (Read.spanSinceNode n >>= f) Q := by
  intro r b s hr heq
  obtain ⟨span, r', hspan, hfspan⟩ := bind_eq_some heq
  cases hspan
  rw [hr.previous_eq, hn] at hfspan
  exact hf _ (.reaching (Nat.le_of_lt hk) hr.le (Place.le_refl _) (by omega)) r b s hr hfspan

end Read.Moves

/-- May a token of this kind be a name behind a dot? -/
def Token.Kind.IsWord (kind : Kind) : Prop := kind = .ident ∨ kind.isKeyword = true

theorem Token.Kind.IsWord.ne_eof {kind : Kind} (h : kind.IsWord) : kind ≠ .eof := by
  rcases h with rfl | h
  · decide
  · exact ne_eof_of_isFixed (isFixed_of_isKeyword h)

theorem Token.Kind.IsWord.ne_illegal {kind : Kind} (h : kind.IsWord) : kind ≠ .illegal := by
  rintro rfl
  rcases h with h | h <;> cases h

/-- The node is the token `i` as a name, or it stands for a name that is missing there. -/
inductive Tokens.Names (t : Tokens) (i : Nat) : Nat → Node → Prop where
  | missing : t.Names i i (.leaf (.ident []) (.empty (t i)))
  | word : (t i).kind.IsWord →
      t.Names i (i + 1) (.leaf (.ident (t i).literal) (t.span i (i + 1)))

/-- The access to a member that starts at the token `i` and has its dot at `d`. -/
structure Tokens.Access (t : Tokens) (i d j : Nat) (receiver name : Node) : Prop where
  lt : i < d
  dot : (t d).kind = .dot
  stop_eq : (t (d - 1)).kind ≠ .illegal → receiver.span.stop = (t (d - 1)).stop
  names : t.Names (d + 1) j name

/-- What is known of the parts of a node of this form besides their runs. -/
def Form.Joins (t : Tokens) (i j : Nat) (parts : Parts) : Form → Prop
  | memberExpr => ∃ d receiver name,
      parts = .ofList [(.operand, receiver), (.name, name)] ∧ t.Access i d j receiver name
  | _ => True

/-- Two runs that do not meet. -/
def Apart (a b : Nat × Nat) : Prop := a.2 ≤ b.1 ∨ b.2 ≤ a.1

/-- The node stands on a run of tokens, and its parts on runs inside it that do not meet. -/
inductive Node.On (t : Tokens) : Node → Nat × Nat → Prop where
  | intro {n : Node} {run : Nat × Nat} (runs : List (Nat × Nat)) :
      n.span.On t run.1 run.2 → n.form.Joins t run.1 run.2 n.parts →
      List.Forall₂ (Node.On t) n.children runs → runs.Pairwise Apart →
      (∀ r ∈ runs, run.1 ≤ r.1 ∧ r.2 ≤ run.2) → Node.On t n run

theorem Node.On.span_on {t : Tokens} {n : Node} {run : Nat × Nat} (h : n.On t run) :
    n.span.On t run.1 run.2 := by
  cases h
  assumption

/-- A phrase of the category that stands on the tokens from `i` to before `j`. -/
structure Node.Takes (t : Tokens) (c : Category) (i j : Nat) (n : Node) : Prop where
  on : n.On t (i, j)
  isA : n.IsA c

theorem Node.Takes.le {t : Tokens} {c : Category} {i j : Nat} {n : Node} (h : n.Takes t c i j) :
    i ≤ j := h.on.span_on.le

/-! ## Nodes in a row -/

/-- Things on runs one behind another, between two tokens. -/
inductive Runs {α : Type} (P : Nat → Nat → α → Prop) : Nat → Nat → List α → Prop where
  | nil {i j : Nat} : i ≤ j → Runs P i j []
  | cons {i a b j : Nat} {x : α} {xs : List α} : i ≤ a → a ≤ b → P a b x → Runs P b j xs →
      Runs P i j (x :: xs)

namespace Runs

variable {α : Type} {P : Nat → Nat → α → Prop} {i j a b : Nat} {xs ys : List α}

theorem le (h : Runs P i j xs) : i ≤ j := by
  induction h with
  | nil h => exact h
  | cons hia hab _ _ ih => exact Nat.le_trans hia (Nat.le_trans hab ih)

theorem mono (h : Runs P i j xs) (hai : a ≤ i) (hjb : j ≤ b) : Runs P a b xs := by
  induction h generalizing a with
  | nil h => exact .nil (Nat.le_trans hai (Nat.le_trans h hjb))
  | cons hia hab hx _ ih => exact .cons (Nat.le_trans hai hia) hab hx (ih (Nat.le_refl _) hjb)

theorem append (h : Runs P i a xs) (h' : Runs P a j ys) : Runs P i j (xs ++ ys) := by
  induction h with
  | nil h => exact h'.mono h (Nat.le_refl j)
  | cons hia hab hx _ ih => exact .cons hia hab hx (ih h')

theorem mem (h : Runs P i j xs) : ∀ x ∈ xs, ∃ a b, P a b x := by
  induction h with
  | nil _ => simp
  | cons _ _ hx _ ih => exact List.forall_mem_cons.mpr ⟨⟨_, _, hx⟩, ih⟩

end Runs

/-- Nodes of a category in a row. -/
def Tokens.Row (t : Tokens) (c : Category) : Nat → Nat → List Node → Prop :=
  Runs fun a b n => n.Takes t c a b

/-- The parts of a node in a row, each of the category that the form asks for in its role. -/
def Tokens.Lays (t : Tokens) (form : Form) : Nat → Nat → List (Role × Node) → Prop :=
  Runs fun a b part => form.admits part.1 = true ∧ part.2.Takes t (form.expects part.1) a b

namespace Tokens

variable {t : Tokens} {i j a b : Nat} {c : Category} {form : Form} {role : Role} {n : Node}
  {parts others : List (Role × Node)}

theorem Row.nil (h : i ≤ j) : t.Row c i j [] := Runs.nil h

theorem Row.one (hn : n.Takes t c a b) (h : i ≤ a) : t.Row c i b [n] :=
  .cons h hn.le hn (.nil (Nat.le_refl b))

theorem Row.append {ms ns : List Node} (h : t.Row c i a ms) (h' : t.Row c a j ns) :
    t.Row c i j (ms ++ ns) := Runs.append h h'

theorem Row.mono {ns : List Node} (h : t.Row c i j ns) (hai : a ≤ i) (hjb : j ≤ b) :
    t.Row c a b ns := Runs.mono h hai hjb

theorem Row.toList {n : Option Node} (hij : i ≤ j) (h : ∀ m ∈ n, m.Takes t c i j) :
    t.Row c i j n.toList := by
  cases n with
  | none => exact .nil hij
  | some n => exact .one (h n rfl) (Nat.le_refl i)

namespace Lays

theorem nil (h : i ≤ j) : t.Lays form i j [] := Runs.nil h

theorem cons (h : i ≤ a) (hrole : form.admits role = true)
    (hn : n.Takes t (form.expects role) a b) (hrest : t.Lays form b j parts) :
    t.Lays form i j ((role, n) :: parts) :=
  Runs.cons h hn.le ⟨hrole, hn⟩ hrest

theorem one (h : i ≤ a) (hrole : form.admits role = true)
    (hn : n.Takes t (form.expects role) a b) : t.Lays form i b [(role, n)] :=
  cons h hrole hn (nil (Nat.le_refl b))

theorem append (h : t.Lays form i a parts) (h' : t.Lays form a j others) :
    t.Lays form i j (parts ++ others) := Runs.append h h'

theorem several {ns : List Node} (hrole : form.admits role = true)
    (h : t.Row (form.expects role) i j ns) : t.Lays form i j (Rule.several role ns) := by
  induction h with
  | nil h => exact nil h
  | cons hia _ hn _ ih => exact cons hia hrole hn ih

theorem optional {n : Option Node} (hrole : form.admits role = true)
    (h : t.Row (form.expects role) i j n.toList) : t.Lays form i j (Rule.optional role n) := by
  rw [Rule.optional_eq]
  exact several hrole h

theorem mono (h : t.Lays form i j parts) (hjb : j ≤ b) : t.Lays form i b parts :=
  Runs.mono h (Nat.le_refl i) hjb

theorem filling (h : t.Lays form i j parts) : Filling form parts := by
  intro part hpart
  obtain ⟨a, b, hrole, hn⟩ := Runs.mem h part hpart
  exact ⟨hrole, hn.isA⟩

theorem runs (h : t.Lays form i j parts) : ∃ runs : List (Nat × Nat),
    List.Forall₂ (Node.On t) (parts.map (·.2)) runs ∧ runs.Pairwise (fun a b => a.2 ≤ b.1) ∧
      ∀ r ∈ runs, i ≤ r.1 ∧ r.2 ≤ j := by
  induction h with
  | nil h => exact ⟨[], .nil, .nil, by simp⟩
  | @cons i a b j part parts hia hab hn hrest ih =>
      obtain ⟨runs, hruns, hpairwise, hinside⟩ := ih
      have hbj := Runs.le hrest
      refine ⟨(a, b) :: runs, .cons hn.2.on hruns,
        .cons (fun r hr => (hinside r hr).1) hpairwise, ?_⟩
      intro r hr
      rcases List.mem_cons.mp hr with rfl | hr
      · exact ⟨hia, hbj⟩
      · have hr := hinside r hr
        omega

/-- A node with its parts in a row. -/
theorem takes {span : Span} (h : t.Lays form i j parts) (hspan : span.On t i j)
    (hform : form.BelongsTo c) (hrequires : form.Requires parts)
    (hjoins : form.Joins t i j (.ofList parts)) : (Node.of form span parts).Takes t c i j := by
  obtain ⟨runs, hruns, hpairwise, hinside⟩ := h.runs
  refine ⟨.intro runs hspan hjoins ?_ (hpairwise.imp .inl) hinside,
    h.filling.node hspan.forward hform hrequires⟩
  rwa [Node.children_of]

end Lays

end Tokens

/-- A node made of two nodes. -/
theorem Node.Takes.pair {t : Tokens} {i j a b : Nat} {c : Category} {form : Form}
    {role role' : Role} {left right : Node} (h : a ≤ b)
    (hrole : form.admits role = true) (hleft : left.Takes t (form.expects role) i a)
    (hrole' : form.admits role' = true) (hright : right.Takes t (form.expects role') b j)
    (hform : form.BelongsTo c) (hrequires : form.Requires [(role, left), (role', right)])
    (hjoins : form.Joins t i j (.ofList [(role, left), (role', right)])) :
    (Node.of form (.between left right) [(role, left), (role', right)]).Takes t c i j := by
  have hspan : (Span.between left right).On t i j :=
    .between hleft.on.span_on hright.on.span_on (Nat.le_trans hleft.le h)
  exact Tokens.Lays.takes (.cons (Nat.le_refl i) hrole hleft (.one h hrole' hright)) hspan hform
    hrequires hjoins

theorem Span.On.leaf {t : Tokens} {i j : Nat} {form : Form} {span : Span} {c : Category}
    (h : span.On t i j) (hform : form.BelongsTo c) (hrequires : form.Requires [])
    (hjoins : form.Joins t i j .nil) : (Node.leaf form span).Takes t c i j :=
  (Tokens.Lays.nil h.le).takes h hform hrequires hjoins

theorem Tokens.Names.takes {t : Tokens} {i j : Nat} {n : Node} (h : t.Names i j n) :
    n.Takes t .memberName i j := by
  cases h with
  | missing => exact Span.On.empty.leaf ⟨_, rfl⟩ trivial trivial
  | word _ => exact (Span.On.span (Nat.le_succ i)).leaf ⟨_, rfl⟩ trivial trivial

namespace Read.Moves

variable {t : Tokens} {i k : Nat} {form : Form} {parts : List (Role × Node)} {c : Category}

/-- A rule that ends with a node over the tokens it has passed. -/
theorem node (h : t.Lays form k i parts) (hform : form.BelongsTo c)
    (hrequires : form.Requires parts) (hjoins : form.Joins t k i (.ofList parts)) :
    Moves t i (do return Node.of form (← Read.spanSince (t k)) parts) fun j n => n.Takes t c k j :=
  .since (Runs.le h) fun _ hspan => .pure (h.takes hspan.on hform hrequires hjoins)

theorem leaf (h : k ≤ i) (hform : form.BelongsTo c) (hrequires : form.Requires [])
    (hjoins : form.Joins t k i .nil) :
    Moves t i (do return Node.leaf form (← Read.spanSince (t k))) fun j n => n.Takes t c k j :=
  .since h fun _ hspan => .pure (hspan.on.leaf hform hrequires hjoins)

end Read.Moves

end Zensight
