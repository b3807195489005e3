import Mathlib.Data.List.Induction
import Zensight.Proofs.Phrases

/-!
# Nodes that stand in a row

Where tokens stand one behind another, so do nodes that are made of different
runs of them: `Holds` says that some tokens have room for the nodes of a list,
each on a run of its own, and from it follows what is said of spans. A `Row` is
put together as the tokens of a phrase are, piece by piece.

The end of a token is where its literal ends, and the literal of an illegal
token says nothing of the bytes it takes. Such a token may stand inside a bracket
handler, so all that is asked of the tokens of a phrase is that none ends it.
-/

namespace Zensight

/-- The first token starts no later, and has ended where the other one starts. -/
structure Token.Precedes (t u : Token) : Prop where
  starts : t.place ≤ u.place
  ends : t.kind ≠ .illegal → t.stop ≤ u.place

/-- Tokens as they stand in a script. -/
structure Laid (ts : List Token) : Prop where
  inOrder : ts.Pairwise Token.Precedes
  wide : ∀ t ∈ ts, t.kind ≠ .illegal → t.place.isBefore t.stop = true

/-- Does not end with an illegal token. -/
def Firm (ts : List Token) : Prop := ∀ t ∈ ts.getLast?, t.kind ≠ .illegal

/-- The first span ends before the second one starts. -/
def Span.Precedes (a b : Span) : Prop := a.stop ≤ b.start

/-- The first span lies inside the second one. -/
def Span.Inside (a b : Span) : Prop := b.start ≤ a.start ∧ a.stop ≤ b.stop

/-- The span reaches from the first token to the end of the last one. -/
def Span.Covers (span : Span) (ts : List Token) : Prop :=
  ∃ first last, ts.head? = some first ∧ ts.getLast? = some last ∧ last.kind ≠ .illegal ∧
    span = ⟨first.place, last.stop⟩

namespace Laid

variable {ts us : List Token} {t first last : Token}

theorem sublist (h : Laid ts) (hsub : us.Sublist ts) : Laid us :=
  ⟨h.inOrder.sublist hsub, fun t ht => h.wide t (hsub.subset ht)⟩

theorem left (h : Laid (ts ++ us)) : Laid ts := h.sublist (List.sublist_append_left ts us)

theorem right (h : Laid (ts ++ us)) : Laid us := h.sublist (List.sublist_append_right ts us)

theorem precedes (h : Laid (ts ++ us)) : ∀ t ∈ ts, ∀ u ∈ us, t.Precedes u :=
  (List.pairwise_append.mp h.inOrder).2.2

theorem head_le (h : Laid ts) (hfirst : ts.head? = some first) (ht : t ∈ ts) :
    first.place ≤ t.place := by
  obtain ⟨rest, rfl⟩ := List.head?_eq_some_iff.mp hfirst
  rcases List.mem_cons.mp ht with rfl | ht
  · exact Place.le_refl _
  · exact ((List.pairwise_cons.mp h.inOrder).1 t ht).starts

theorem le_last (h : Laid ts) (hlast : ts.getLast? = some last) (hok : last.kind ≠ .illegal)
    (ht : t ∈ ts) (htok : t.kind ≠ .illegal) : t.stop ≤ last.stop := by
  have hwide := h.wide last (List.mem_of_getLast? hlast) hok
  obtain ⟨init, rfl⟩ := List.getLast?_eq_some_iff.mp hlast
  rcases List.mem_append.mp ht with ht | ht
  · have hends := (h.precedes t ht last (by simp)).ends htok
    rw [Place.isBefore_iff] at hwide
    rw [Place.le_iff] at *
    omega
  · rw [List.mem_singleton.mp ht]
    exact Place.le_refl _

theorem head_before (h : Laid ts) (hfirst : ts.head? = some first)
    (hlast : ts.getLast? = some last) (hok : last.kind ≠ .illegal) :
    first.place.isBefore last.stop = true := by
  have hmem := List.mem_of_getLast? hlast
  have hwide := h.wide last hmem hok
  have hle := h.head_le hfirst hmem
  rw [Place.le_iff] at hle
  rw [Place.isBefore_iff] at *
  omega

end Laid

namespace Firm

variable {ts us : List Token} {t : Token}

theorem nil : Firm [] := by simp [Firm]

theorem append (hts : Firm ts) (hus : Firm us) : Firm (ts ++ us) := by
  intro t ht
  cases us using List.reverseRecOn with
  | nil => exact hts t (by simpa using ht)
  | append_singleton us u => exact hus t (by simpa using ht)

end Firm

namespace Span.Covers

variable {span other : Span} {ts us mid : List Token}

theorem ofTokens (hl : Laid ts) (hfirm : Firm ts) (hne : ts ≠ []) :
    (Span.ofTokens ts).Covers ts := by
  obtain ⟨first, rest, rfl⟩ := List.exists_cons_of_ne_nil hne
  have hlast : (first :: rest).getLast? = some (rest.getLast?.getD first) :=
    List.getLast?_cons
  have hok := hfirm _ hlast
  have hbefore := hl.head_before rfl hlast hok
  refine ⟨first, _, rfl, hlast, hok, ?_⟩
  rw [Span.ofTokens, Span.reaching, if_neg]
  rw [Place.isBefore_iff] at hbefore
  omega

/-- From the start of one span to the end of one behind it. -/
theorem between (hts : span.Covers ts) (hus : other.Covers us) :
    (⟨span.start, other.stop⟩ : Span).Covers (ts ++ mid ++ us) := by
  obtain ⟨first, _, hfirst, _, _, rfl⟩ := hts
  obtain ⟨_, last, _, hlast, hok, rfl⟩ := hus
  refine ⟨first, last, ?_, ?_, hok, rfl⟩
  · simp [List.head?_append, hfirst]
  · simp [List.getLast?_append, hlast]

/-- From the start of a span to the end of a token behind it. -/
theorem reaching {last : Token} (hts : span.Covers ts) (hok : last.kind ≠ .illegal)
    (hl : Laid (ts ++ mid ++ [last])) :
    (Span.reaching span.start span.start last.stop).Covers (ts ++ mid ++ [last]) := by
  obtain ⟨first, _, hfirst, _, _, rfl⟩ := hts
  have hhead : (ts ++ mid ++ [last]).head? = some first := by simp [List.head?_append, hfirst]
  have hlast : (ts ++ mid ++ [last]).getLast? = some last := by simp
  have hbefore := hl.head_before hhead hlast hok
  refine ⟨first, last, hhead, hlast, hok, ?_⟩
  rw [Place.isBefore_iff] at hbefore
  rw [Span.reaching, if_neg]
  dsimp only
  omega

theorem start_before (h : span.Covers ts) (hl : Laid ts) :
    span.start.isBefore span.stop = true := by
  obtain ⟨first, last, hfirst, hlast, hok, rfl⟩ := h
  exact hl.head_before hfirst hlast hok

theorem inside (hts : span.Covers ts) (hus : other.Covers us) (hsub : us.Sublist ts)
    (hl : Laid ts) : other.Inside span := by
  obtain ⟨first, last, hfirst, hlast, hok, rfl⟩ := hts
  obtain ⟨first', last', hfirst', hlast', hok', rfl⟩ := hus
  have hmem := hsub.subset (List.mem_of_mem_head? hfirst')
  have hmem' := hsub.subset (List.mem_of_getLast? hlast')
  exact ⟨hl.head_le hfirst hmem, hl.le_last hlast hok hmem' hok'⟩

theorem precedes (hts : span.Covers ts) (hus : other.Covers us) (hl : Laid (ts ++ us)) :
    span.Precedes other := by
  obtain ⟨_, last, _, hlast, hok, rfl⟩ := hts
  obtain ⟨first, _, hfirst, _, _, rfl⟩ := hus
  exact (hl.precedes last (List.mem_of_getLast? hlast) first (List.mem_of_mem_head? hfirst)).ends hok

end Span.Covers

/-! ## Nodes and their children -/

namespace Node

/-- The nodes right below a node, in the order they are listed. -/
def children (n : Node) : List Node := n.parts.toList.map (·.2)

/-- The children of a node in lists that are each in the order of the script. A
script lists its imports before its statements. -/
def groups (n : Node) : List (List Node) :=
  match n.form with
  | .file => [n.parts.all .importing, n.parts.all .statement]
  | _ => [n.children]

/-- The span is not empty, those of the children lie inside it, no two of them
meet, and they come in order. -/
structure Nests (n : Node) : Prop where
  nonempty : n.span.start.isBefore n.span.stop = true
  inside : ∀ c ∈ n.children, c.span.Inside n.span
  disjoint : n.children.Pairwise fun a b => a.span.Precedes b.span ∨ b.span.Precedes a.span
  listed : n.children = n.groups.flatten
  ordered : ∀ group ∈ n.groups, group.Pairwise fun a b => a.span.Precedes b.span

end Node

theorem Parts.toList_ofList (parts : List (Role × Node)) : (Parts.ofList parts).toList = parts := by
  induction parts with
  | nil => rfl
  | cons part parts ih => rw [ofList, toList, ih]

@[simp] theorem Node.children_of (form : Form) (span : Span) (parts : List (Role × Node)) :
    (Node.of form span parts).children = parts.map (·.2) := by
  rw [children, Node.of, Node.parts, Parts.toList_ofList]

@[simp] theorem Rule.map_snd_several (role : Role) (ns : List Node) :
    (Rule.several role ns).map (·.2) = ns := by
  simp [Rule.several, Function.comp_def]

/-- Tokens with room for nodes one after another, each on a run of its own. -/
inductive Holds : List Token → List Node → Prop where
  | nil {ts : List Token} : Holds ts []
  | cons {before us after : List Token} {n : Node} {ns : List Node} :
      n.span.Covers us → n.All Node.Nests → Holds after ns →
      Holds (before ++ us ++ after) (n :: ns)

namespace Holds

variable {ts us : List Token} {ms ns : List Node}

theorem behind (ts : List Token) (h : Holds us ns) : Holds (ts ++ us) ns := by
  cases h with
  | nil => exact .nil
  | @cons before us after n ns hspan hall hrest =>
      rw [← List.append_assoc, ← List.append_assoc]
      exact .cons hspan hall hrest

theorem append (hts : Holds ts ms) (hus : Holds us ns) : Holds (ts ++ us) (ms ++ ns) := by
  induction hts with
  | nil => exact hus.behind _
  | cons hspan hall _ ih =>
      rw [List.append_assoc]
      exact .cons hspan hall ih

theorem mem (h : Holds ts ns) :
    ∀ n ∈ ns, n.All Node.Nests ∧ ∃ us, us.Sublist ts ∧ n.span.Covers us := by
  induction h with
  | nil => simp
  | @cons before us after n ns hspan hall _ ih =>
      intro m hm
      rcases List.mem_cons.mp hm with rfl | hm
      · refine ⟨hall, us, ?_, hspan⟩
        rw [List.append_assoc]
        exact (List.sublist_append_left us after).trans (List.sublist_append_right before _)
      · obtain ⟨hall, vs, hsub, hspan⟩ := ih m hm
        exact ⟨hall, vs, hsub.trans (List.sublist_append_right _ after), hspan⟩

theorem pairwise (h : Holds ts ns) (hl : Laid ts) :
    ns.Pairwise fun a b => a.span.Precedes b.span := by
  induction h with
  | nil => exact .nil
  | @cons before us after n ns hspan _ hrest ih =>
      refine .cons (fun m hm => ?_) (ih hl.right)
      obtain ⟨-, vs, hsub, hm⟩ := hrest.mem m hm
      rw [List.append_assoc] at hl
      exact hspan.precedes hm (hl.right.sublist ((List.Sublist.refl us).append hsub))

/-- Nodes on earlier tokens come before nodes on later ones. -/
theorem precedes (hts : Holds ts ms) (hus : Holds us ns) (hl : Laid (ts ++ us)) :
    ∀ a ∈ ms, ∀ b ∈ ns, a.span.Precedes b.span :=
  (List.pairwise_append.mp ((hts.append hus).pairwise hl)).2.2

end Holds

/-- A node on tokens that hold its children. Scripts are nodes of another kind. -/
theorem Node.nests_of_holds {ts : List Token} {n : Node} (hform : n.form ≠ .file) (hl : Laid ts)
    (hspan : n.span.Covers ts) (hholds : Holds ts n.children) : n.Nests := by
  have hpairwise := hholds.pairwise hl
  have hgroups : n.groups = [n.children] := by
    rw [groups]
    split
    · next hfile => exact absurd hfile hform
    · rfl
  refine ⟨hspan.start_before hl, fun c hc => ?_, hpairwise.imp .inl, ?_, ?_⟩
  · obtain ⟨-, us, hsub, hc⟩ := hholds.mem c hc
    exact hspan.inside hc hsub hl
  · rw [hgroups]
    simp
  · rw [hgroups]
    simpa using hpairwise

/-- Tokens of a script that hold nodes in a row. -/
structure Row (ts : List Token) (ns : List Node) : Prop where
  firm : Firm ts
  holds : Laid ts → Holds ts ns

namespace Row

variable {ts us : List Token} {ms ns : List Node} {t : Token}

theorem nil : Row [] [] := ⟨.nil, fun _ => .nil⟩

theorem append (hts : Row ts ms) (hus : Row us ns) : Row (ts ++ us) (ms ++ ns) :=
  ⟨hts.firm.append hus.firm, fun hl => (hts.holds hl.left).append (hus.holds hl.right)⟩

/-- A token that no node stands for. -/
theorem token (h : t.kind ≠ .illegal) : Row [t] [] :=
  ⟨by simpa [Firm] using h, fun _ => .nil⟩

theorem sign {kind : Token.Kind} (h : t.kind = kind) (hkind : kind.isFixed = true) :
    Row [t] [] := by
  refine token fun hillegal => ?_
  rw [← h, hillegal] at hkind
  cases hkind

/-- A node that takes all the tokens that hold its children. -/
theorem node {form : Form} {span : Span} {parts : List (Role × Node)}
    (h : Row ts (parts.map (·.2))) (hform : form ≠ .file) (hspan : Laid ts → span.Covers ts) :
    Row ts [.of form span parts] := by
  refine ⟨h.firm, fun hl => ?_⟩
  have hholds := h.holds hl
  have hnests : (Node.of form span parts).Nests :=
    Node.nests_of_holds hform hl (hspan hl) (by rwa [Node.children_of])
  have hall : (Node.of form span parts).All Node.Nests := by
    rw [Node.all_of]
    refine ⟨hnests, fun part hpart => ?_⟩
    exact (hholds.mem part.2 (List.mem_map_of_mem hpart)).1
  have hone : Holds ([] ++ ts ++ []) [Node.of form span parts] := .cons (hspan hl) hall .nil
  rwa [List.nil_append, List.append_nil] at hone

theorem ofTokens {form : Form} {parts : List (Role × Node)} (h : Row ts (parts.map (·.2)))
    (hform : form ≠ .file) (hne : ts ≠ []) : Row ts [.of form (.ofTokens ts) parts] :=
  h.node hform fun hl => .ofTokens hl h.firm hne

theorem name (h : t.kind ≠ .illegal) : Row [t] [t.nameNode] := by
  have hrow : Row [t] (([] : List (Role × Node)).map (·.2)) := token h
  exact hrow.ofTokens (fun hform => by cases hform) (by simp)

end Row

end Zensight
