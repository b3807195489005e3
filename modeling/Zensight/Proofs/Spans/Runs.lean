import Zensight.Proofs.Spans.Rows

/-!
# The tokens behind a node

Every node of a script without faults is made of a run of its tokens, wherever the node stands in
the tree (`ReadsFile.made`). What the run has to do with the node differs from form to form, and
`Node.StandsOn` says it for those where more than the span is asked for: a declaration has a token
of its own before all its parts, a parameter begins with its name, and a bracket handler keeps the
texts of the tokens between its brackets.
-/

namespace Zensight

/-- Is it a declaration that begins with a keyword or a sign? -/
def Form.isLed : Form → Bool
  | importDecl _ | varDecl _ | funcDecl _ | expandFuncDecl | classDecl | constructorDecl
  | operatorDecl _ => true
  | _ => false

/-- Does `Node.StandsOn` ask nothing of nodes of this form? -/
def Form.isPlain : Form → Bool
  | param | bracketHandler _ => false
  | form => !form.isLed

/-- The tokens that a node is made of. -/
inductive Node.StandsOn : List Token → Node → Prop where
  | led {t : Token} {rest : List Token} {form : Form} {parts : List (Role × Node)} :
      form.isLed = true → t.kind ≠ .illegal → Row rest (parts.map (·.2)) →
      StandsOn (t :: rest) (.of form (.ofTokens (t :: rest)) parts)
  | param {t : Token} {rest : List Token} {parts : List (Role × Node)} :
      t.kind ≠ .illegal → Row rest (parts.map (·.2)) →
      StandsOn (t :: rest)
        (.of .param (.ofTokens (t :: rest)) ((.name, t.nameNode) :: parts))
  | handler {less greater : Token} {inner : List Token} :
      less.kind = .less → (∀ t ∈ inner, t.kind.endsHandler = false) → greater.kind = .greater →
      StandsOn (less :: inner ++ [greater])
        (.leaf (.bracketHandler (inner.flatMap (·.literal)))
          (.ofTokens (less :: inner ++ [greater])))
  | plain {ts : List Token} {form : Form} {span : Span} {parts : List (Role × Node)} :
      form.isPlain = true → StandsOn ts (.of form span parts)

/-- All nodes of the trees are made of runs of the tokens. -/
def Makes (ts : List Token) (ns : List Node) : Prop :=
  ∀ n ∈ ns, n.All fun m => ∃ us, us <:+: ts ∧ m.StandsOn us

namespace Makes

variable {ts us : List Token} {ms ns : List Node} {form : Form} {span : Span}
  {parts : List (Role × Node)} {t : Token}

theorem nil : Makes ts [] := by simp [Makes]

theorem mono (h : Makes us ns) (hrun : us <:+: ts) : Makes ts ns := by
  intro n hn m hm
  obtain ⟨vs, hvs, hstands⟩ := h n hn m hm
  exact ⟨vs, hvs.trans hrun, hstands⟩

theorem append (hts : Makes ts ms) (hus : Makes us ns) : Makes (ts ++ us) (ms ++ ns) :=
  List.forall_mem_append.mpr
    ⟨hts.mono (List.prefix_append ts us).isInfix, hus.mono (List.suffix_append ts us).isInfix⟩

/-- A node that is made of all the tokens, of which its parts are made too. -/
theorem node (h : Makes ts (parts.map (·.2))) (hstands : Node.StandsOn ts (.of form span parts)) :
    Makes ts [.of form span parts] := by
  refine List.forall_mem_singleton.mpr (Node.all_of.mpr ⟨⟨ts, List.infix_refl ts, hstands⟩, ?_⟩)
  exact fun part hpart => h part.2 (List.mem_map_of_mem hpart)

theorem plain (h : Makes ts (parts.map (·.2))) (hform : form.isPlain = true) :
    Makes ts [.of form span parts] :=
  h.node (.plain hform)

theorem name : Makes [t] [t.nameNode] := by
  have hnone : Makes [t] (([] : List (Role × Node)).map (·.2)) := nil
  exact hnone.plain rfl

end Makes

/-- Tokens of a script that hold nodes in a row, and that all the nodes below are made of. -/
structure Lined (ts : List Token) (ns : List Node) : Prop extends Row ts ns where
  made : Makes ts ns

namespace Lined

variable {ts us : List Token} {ms ns : List Node} {t : Token}

theorem ofRow (h : Row ts []) : Lined ts [] := ⟨h, .nil⟩

theorem nil : Lined [] [] := .ofRow .nil

theorem append (hts : Lined ts ms) (hus : Lined us ns) : Lined (ts ++ us) (ms ++ ns) :=
  ⟨hts.toRow.append hus.toRow, hts.made.append hus.made⟩

theorem token (h : t.kind ≠ .illegal) : Lined [t] [] := .ofRow (.token h)

theorem sign {kind : Token.Kind} (h : t.kind = kind) (hkind : kind.isFixed = true) :
    Lined [t] [] :=
  .ofRow (.sign h hkind)

theorem name (h : t.kind ≠ .illegal) : Lined [t] [t.nameNode] := ⟨.name h, .name⟩

end Lined

end Zensight
