import Zensight.Proofs.Parsing.Statements
import Zensight.Proofs.Scanning

/-!
# What reading a whole script comes to

The rules unfolded `n` times are sound wherever at most `n` tokens are ahead:
every rule passes a token before it refers back, so one unfolding is spent on at
least one token. A script is read with as many unfoldings as it has tokens, and
what its tokens make is then a phrase of the grammar whenever no fault is
reported.
-/

namespace Zensight

open Read

theorem Grammar.unfold_sound {g : Grammar} {n : Nat} (hg : g.Sound n) :
    g.unfold.Sound (n + 1) where
  type := Rule.type_sound hg
  typeAtom := Rule.typeAtom_sound hg
  expression := Rule.expression_sound hg
  ternary := Rule.ternary_sound hg
  unary := Rule.unary_sound hg
  binary _ hleast _ ho hlen := Rule.binary_ends hg hleast ho hlen
  statement := Rule.statement_sound hg

theorem Grammar.upTo_sound (n : Nat) : (upTo n).Sound n := by
  induction n with
  | zero =>
      -- No open reader has nothing ahead.
      have hnone : ∀ {α : Type} {m : Read α} {D : List Token → α → Prop}, Read.Sound 0 m D :=
        fun r ho hlen =>
          absurd (List.length_eq_zero_iff.mp (Nat.le_zero.mp hlen)) ho.ahead_ne_nil
      exact ⟨hnone, hnone, hnone, hnone, hnone, fun _ _ r ho hlen =>
        absurd (List.length_eq_zero_iff.mp (Nat.le_zero.mp hlen)) ho.ahead_ne_nil, hnone⟩
  | succ n ih => exact unfold_sound ih

variable {r : Reader} {g : Grammar} {n : Nat}

theorem Grammar.topLevelItem_ends (hg : g.Sound n) (ho : r.Open)
    (hlen : r.ahead.length ≤ n + 1) :
    Ends (topLevelItem g) r (Yields (fun ts new =>
      (∃ imp, new = ([imp], []) ∧ Reads .importing ts [imp]) ∨
        ∃ stmts, new = ([], stmts) ∧ Reads .statement ts stmts) r) := by
  refine (Ends.check ?_).bind
  split
  next =>
    refine (Rule.importDecl_ends ho).reads fun imp s ts hs _ => ?_
    exact .pure ⟨ts, hs.imp fun h => .inl ⟨imp, rfl, h⟩⟩
  next =>
    refine (Rule.statement_sound hg r ho hlen).reads fun stmt s ts hs _ => ?_
    exact .pure ⟨ts, hs.imp fun h => .inr ⟨_, rfl, h⟩⟩

/-- The imports and the statements of a script, and the end of it next. -/
theorem Grammar.topLevel_ends (hg : g.Sound n) (ho : r.Open) (hlen : r.ahead.length ≤ n + 1) :
    Ends (topLevel g) r fun items s =>
      Yields (fun ts items => ReadsTopLevel ts items.1 items.2) r items s ∧
        s.current.kind = .eof := by
  refine Ends.iterate (Yields (fun ts items => ReadsTopLevel ts items.1 items.2) r)
    ⟨[], (Reader.Leads.refl ho).imp fun _ => .nil⟩ ?_
  rintro items s ⟨ts, hs⟩
  have hle := hs.ahead_le
  refine (Ends.check ?_).bind
  split
  next heof => exact .pure ⟨⟨ts, hs⟩, by simpa using heof⟩
  next hgo =>
    refine (Rule.advancing_ends (by simpa using hgo) ?_
      (topLevelItem_ends hg hs.isOpen (by omega))).andThen ?_
    · rintro ts new (⟨imp, -, himp⟩ | ⟨stmts, -, hstmts⟩)
      · exact himp.ne_nil rfl
      · exact hstmts.ne_nil rfl
    rintro new s₁ ⟨⟨us, h₁⟩, hlt⟩
    refine .pure ⟨⟨_, (hs.trans h₁).imp ?_⟩, hlt⟩
    rintro ⟨hitems, ⟨imp, rfl, himp⟩ | ⟨stmts, rfl, hstmts⟩⟩
    · have hread := ReadsTopLevel.importing hitems himp
      rwa [← List.append_nil items.2] at hread
    · have hread := ReadsTopLevel.statement hitems hstmts
      rwa [← List.append_nil items.1] at hread

/-- The tree of a script from what stands at its top level. -/
inductive ReadsFile : List Token → Token → Node → Prop where
  | intro {ts : List Token} {imports stmts : List Node} {eof : Token} :
      ReadsTopLevel ts imports stmts →
      ReadsFile ts eof (.of .file ⟨.start, ⟨eof.place.line, eof.place.column + 1⟩⟩
        (Rule.several .importing imports ++ Rule.several .statement stmts))

/-- What holds of the root of a script and of all nodes of its phrases. -/
theorem ReadsFile.all {P : Node → Prop} {ts : List Token} {eof : Token} {tree : Node}
    (h : ReadsFile ts eof tree) (hroot : ∀ span parts, P (.of .file span parts))
    (hP : ∀ {p us ns}, Reads p us ns → us ⊆ ts → ∀ n ∈ ns, n.All P) : tree.All P := by
  cases h with
  | intro htop =>
      have hitems := htop.forall_mem hP
      simp_all [or_imp, forall_and]

theorem Grammar.file_ends (hg : g.Sound n) (ho : r.Open) (hlen : r.ahead.length ≤ n + 1) :
    Ends (file g) r fun tree s =>
      Yields (fun ts tree => ReadsFile ts r.final tree) r tree s ∧ s.ahead = [r.final] := by
  refine (topLevel_ends hg ho hlen).andThen ?_
  rintro items s ⟨⟨ts, hs⟩, heof⟩
  have hahead : s.ahead = [r.final] := by
    rw [hs.isOpen.ahead_of_eof heof, hs.passes.final_eq]
  have hcur : s.current = r.final := by rw [Reader.current, hahead]; rfl
  refine (Ends.current ?_).bind
  rw [hcur]
  exact .pure ⟨⟨ts, hs.imp .intro⟩, hahead⟩

/-! ## From text to tree -/

theorem Reader.ofText_open (source : Text) : (Reader.ofText source).Open := by
  obtain ⟨body, stop, hscan, hbody⟩ := Token.scan_eq source
  have hfinal : (Reader.ofText source).final = ⟨.eof, [], stop⟩ := by
    simp [Reader.ofText, hscan]
  refine ⟨⟨body, ?_, fun t ht => (hbody t ht).ne_eof⟩, by rw [hfinal]⟩
  rw [hfinal]
  exact hscan

/-- Reading a script ends, with the end of the script next, and if no fault is
reported its tokens make the tree. -/
theorem Text.parse_ends (source : Text) :
    Ends (Grammar.file (.upTo (Token.scan source).length)) (.ofText source) fun tree s =>
      Yields (fun ts tree => ReadsFile ts (Reader.ofText source).final tree)
          (.ofText source) tree s ∧
        s.ahead = [(Reader.ofText source).final] :=
  Grammar.file_ends (Grammar.upTo_sound _) (Reader.ofText_open source) (Nat.le_succ _)

/-- What reading a script returns is its tree and its report. -/
theorem Text.parse_eq {source : Text} {tree : Node} {last : Reader}
    (h : Grammar.file (.upTo (Token.scan source).length) (.ofText source) = some (tree, last)) :
    source.parse = (tree, last.report) := by
  rw [Text.parse]
  simp only [StateT.run]
  rw [show (Reader.ofText source).ahead = Token.scan source from rfl, h]

/-- What is known of a script in which no fault was found: its tokens up to the
end, as the scanner makes them, make its tree. -/
theorem Text.parse_reads {source : Text} (h : source.parse.2.hasErrors = false) :
    ∃ body eof, Token.scan source = body ++ [eof] ∧ eof.kind = .eof ∧ Spelt body ∧
      (body.Pairwise fun t u => t.place.isBefore u.place = true) ∧
      ReadsFile body eof source.parse.1 := by
  obtain ⟨body, stop, hscan, hspelt⟩ := Token.scan_eq source
  obtain ⟨moments, tree, last, hrun, ⟨ts, hts⟩, hend⟩ := Text.parse_ends source
  have hfinal : (Reader.ofText source).final = ⟨.eof, [], stop⟩ := by
    simp [Reader.ofText, hscan]
  have hparse := Text.parse_eq hrun.eq_some
  rw [hparse] at h ⊢
  have hbody : ts = body := by
    have hall : Token.scan source = ts ++ [⟨.eof, [], stop⟩] := by
      rw [← hfinal, ← hend]
      exact hts.passes.ahead_eq
    exact List.append_cancel_right (hall.symm.trans hscan)
  have hfaults : last.faults = (Reader.ofText source).faults := by
    simp only [Report.hasErrors, Bool.not_eq_false', List.isEmpty_iff] at h
    rw [Reader.faults, h]
    rfl
  have htree := hts.sound hfaults
  rw [hbody, hfinal] at htree
  refine ⟨body, _, hscan, rfl, hspelt, ?_, htree⟩
  have hplaces := Token.scan_pairwise source
  rw [hscan] at hplaces
  exact (List.pairwise_append.mp hplaces).1

/-- A reader on the way to the end of the script stands among its tokens, with
the end ahead. -/
theorem Reader.Passes.split_eq {source : Text} {body us ts : List Token} {eof : Token}
    {s last : Reader} (hscan : Token.scan source = body ++ [eof])
    (hs : (Reader.ofText source).Passes us s) (hlast : s.Passes ts last)
    (hend : last.ahead = [eof]) :
    s.position ≤ body.length ∧ s.ahead = body.drop s.position ++ [eof] := by
  have hposition : s.position = us.length := by
    rw [hs.position_eq]
    exact Nat.zero_add _
  have hahead : s.ahead = ts ++ [eof] := by rw [hlast.ahead_eq, hend]
  have hbody : body = us ++ ts := by
    have hall : body ++ [eof] = us ++ (ts ++ [eof]) := by
      rw [← hscan, ← hahead]
      exact hs.ahead_eq
    rw [← List.append_assoc] at hall
    exact List.append_cancel_right hall
  rw [hposition, hahead, hbody, List.drop_left, List.length_append]
  exact ⟨Nat.le_add_right _ _, rfl⟩

/-- Every script is read to its end and no further: reading it has an execution,
and in every execution the position never falls, the token that ends the script
is ahead at every moment, and in the end it is the only one. -/
theorem Text.parse_stops_at_end (source : Text) :
    ∃ body eof, Token.scan source = body ++ [eof] ∧ eof.kind = .eof ∧
      (∀ t ∈ body, t.kind ≠ .eof) ∧
      (∃ moments tree last, Run (Grammar.file (.upTo (Token.scan source).length))
        (.ofText source) moments tree last) ∧
      ∀ moments tree last, Run (Grammar.file (.upTo (Token.scan source).length))
          (.ofText source) moments tree last →
        source.parse = (tree, last.report) ∧
        ((Reader.ofText source :: moments).Pairwise fun s s' => s.position ≤ s'.position) ∧
        (∀ s ∈ Reader.ofText source :: moments,
          s.position ≤ body.length ∧ s.ahead = body.drop s.position ++ [eof]) ∧
        last.position = body.length ∧ last.ahead = [eof] := by
  obtain ⟨body, stop, hscan, hbody⟩ := Token.scan_eq source
  have hfinal : (Reader.ofText source).final = ⟨.eof, [], stop⟩ := by
    simp [Reader.ofText, hscan]
  obtain ⟨moments₀, tree₀, last₀, hrun₀, -, hend₀⟩ := Text.parse_ends source
  refine ⟨body, _, hscan, rfl, fun t ht => (hbody t ht).ne_eof,
    ⟨moments₀, tree₀, last₀, hrun₀⟩, ?_⟩
  intro moments tree last hrun
  have hlast : last.ahead = [⟨.eof, [], stop⟩] := by
    have hsame := hrun₀.eq_some.symm.trans hrun.eq_some
    cases hsame
    rw [hend₀, hfinal]
  obtain ⟨⟨ts, hts⟩, hmoments⟩ := hrun.between
  refine ⟨Text.parse_eq hrun.eq_some, hrun.pairwise_position, ?_, ?_, hlast⟩
  · intro s hs
    rcases List.mem_cons.mp hs with rfl | hs
    · exact (Reader.Passes.refl _).split_eq hscan hts hlast
    · obtain ⟨⟨us, hus⟩, vs, hvs⟩ := hmoments s hs
      exact hus.split_eq hscan hvs hlast
  · obtain ⟨hle, hahead⟩ := hts.split_eq hscan (.refl last) hlast
    rw [hlast] at hahead
    have hlen := congrArg List.length hahead
    simp only [List.length_append, List.length_drop, List.length_singleton] at hlen
    omega

end Zensight
