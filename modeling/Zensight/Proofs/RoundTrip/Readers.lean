import Zensight.Proofs.Writing

/-!
# Reading tokens that are known

Soundness says what a rule has read, whatever was ahead. The other direction
starts from the tokens: with these tokens ahead a rule gives that tree, up to
the places it notes, and reports nothing. `Read.Gives` is the judgement for it.
It speaks of outcomes only and not of executions, so that an outcome with less
fuel can be carried over to more (`loop_mono`), and with that a loop can be
followed one round at a time (`Gives.iterate`).

A reader is known by the tokens ahead of it and its report. What it has passed
decides only about places, and places are what `Node.bare` leaves out.
-/

namespace Zensight

mutual

/-- The tree without its places. -/
def Node.bare : Node → Node
  | .mk form _ parts => .mk form default parts.bare

def Parts.bare : Parts → Parts
  | .nil => .nil
  | .cons role node rest => .cons role node.bare rest.bare

end

@[simp] theorem Node.bare_leaf (form : Form) (span : Span) :
    (Node.leaf form span).bare = .leaf form default := rfl

@[simp] theorem Node.bare_of (form : Form) (span : Span) (parts : List (Role × Node)) :
    (Node.of form span parts).bare =
      .of form default (parts.map fun part => (part.1, part.2.bare)) := by
  have hparts : ∀ parts : List (Role × Node),
      (Parts.ofList parts).bare = .ofList (parts.map fun part => (part.1, part.2.bare)) := by
    intro parts
    induction parts with
    | nil => rfl
    | cons part parts ih =>
        rw [Parts.ofList, Parts.bare, ih]
        rfl
  rw [Node.of, Node.bare, hparts]
  rfl

@[simp] theorem Rule.map_bare_several (role : Role) (nodes : List Node) :
    (several role nodes).map (fun part => (part.1, part.2.bare)) =
      several role (nodes.map Node.bare) := by
  simp [several]

/-- These tokens are ahead, and this is what has been reported. -/
structure Reader.At (r : Reader) (tokens : List Token) (report : Report) : Prop where
  ahead_eq : r.ahead = tokens
  report_eq : r.report = report

namespace Reader.At

variable {r : Reader} {t u : Token} {us : List Token} {report : Report}

theorem current_eq (h : r.At (t :: us) report) : r.current = t := by
  rw [current, h.ahead_eq]
  rfl

theorem peek_eq (h : r.At (t :: u :: us) report) : r.peek = u := by
  rw [peek, h.ahead_eq]
  rfl

theorem advance (h : r.At (t :: us) report) : r.advance.At us report := by
  rw [Reader.advance, h.ahead_eq]
  exact ⟨rfl, h.report_eq⟩

theorem ahead_lt {s : Reader} {ts : List Token} (h : r.At (t :: (ts ++ us)) report)
    (hs : s.At us report) : s.ahead.length < r.ahead.length := by
  rw [h.ahead_eq, hs.ahead_eq, List.length_cons, List.length_append]
  omega

end Reader.At

namespace Read

/-- The step has an outcome from here, and it is as wanted. -/
def Gives {α : Type} (m : Read α) (r : Reader) (Q : α → Reader → Prop) : Prop :=
  ∃ a s, m r = some (a, s) ∧ Q a s

section

variable {α β : Type} {m : Read α} {f : α → Read β} {r : Reader}

theorem Gives.mono {P Q : α → Reader → Prop} (h : Gives m r P) (hPQ : ∀ a s, P a s → Q a s) :
    Gives m r Q := by
  obtain ⟨a, s, heq, hp⟩ := h
  exact ⟨a, s, heq, hPQ a s hp⟩

theorem Gives.pure {a : α} {Q : α → Reader → Prop} (h : Q a r) : Gives (pure a) r Q :=
  ⟨a, r, rfl, h⟩

theorem Gives.get {Q : Reader → Reader → Prop} (h : Q r r) : Gives get r Q :=
  ⟨r, r, rfl, h⟩

theorem Gives.bind {Q : β → Reader → Prop} (h : Gives m r fun a s => Gives (f a) s Q) :
    Gives (m >>= f) r Q := by
  obtain ⟨a, s, heq, b, s', heq', hq⟩ := h
  refine ⟨b, s', ?_, hq⟩
  show (m r).bind (fun x => f x.1 x.2) = some (b, s')
  rw [heq]
  exact heq'

theorem Gives.andThen {P : α → Reader → Prop} {Q : β → Reader → Prop} (h : Gives m r P)
    (hf : ∀ a s, P a s → Gives (f a) s Q) : Gives (m >>= f) r Q :=
  (h.mono hf).bind

end

/-! ## Loops -/

section

variable {α : Type} {step : α → Read (ForInStep α)}

theorem iterate_eq (a : α) (r : Reader) :
    Read.iterate step a r = iterate.loop step (r.ahead.length + 1) a r := rfl

theorem loop_succ (fuel : Nat) (a : α) (r : Reader) :
    iterate.loop step (fuel + 1) a r = (step a r).bind fun x =>
      match x.1 with
      | .done b => some (b, x.2)
      | .yield b => iterate.loop step fuel b x.2 := by
  show (step a r).bind _ = _
  congr 1
  funext x
  obtain ⟨x, s⟩ := x
  cases x <;> rfl

/-- More fuel keeps an outcome. -/
theorem loop_mono {n k : Nat} (hnk : n ≤ k) :
    ∀ {a : α} {r : Reader} {out : α × Reader}, iterate.loop step n a r = some out →
      iterate.loop step k a r = some out := by
  induction n generalizing k with
  | zero => intro a r out h; cases h
  | succ n ih =>
      intro a r out h
      obtain ⟨k, rfl⟩ : ∃ j, k = j + 1 := ⟨k - 1, by omega⟩
      rw [loop_succ] at h ⊢
      cases hstep : step a r with
      | none => rw [hstep] at h; cases h
      | some x =>
          obtain ⟨x, s⟩ := x
          rw [hstep] at h
          cases x with
          | done b => exact h
          | yield b => exact ih (by omega) h

/-- A loop by its first round. A round that goes on has passed a token. -/
theorem Gives.iterate {a : α} {r : Reader} {Q : α → Reader → Prop}
    (h : Gives (step a) r fun x s => match x with
      | .done b => Q b s
      | .yield b => s.ahead.length < r.ahead.length ∧ Gives (Read.iterate step b) s Q) :
    Gives (Read.iterate step a) r Q := by
  obtain ⟨x, s, hstep, hx⟩ := h
  cases x with
  | done b =>
      refine ⟨b, s, ?_, hx⟩
      rw [iterate_eq, loop_succ, hstep]
      rfl
  | yield b =>
      obtain ⟨hlt, c, s', hrest, hq⟩ := hx
      refine ⟨c, s', ?_, hq⟩
      rw [iterate_eq] at hrest
      rw [iterate_eq, loop_succ, hstep]
      exact loop_mono (by omega) hrest

end

/-! ## Steps with the next token known -/

section

variable {r : Reader} {t u : Token} {us : List Token} {report : Report} {kind : Token.Kind}

theorem Gives.current {Q : Token → Reader → Prop} (h : r.At (t :: us) report) (hQ : Q t r) :
    Gives Read.current r Q :=
  ⟨t, r, by rw [← h.current_eq]; rfl, hQ⟩

theorem Gives.peek {Q : Token → Reader → Prop} (h : r.At (t :: u :: us) report) (hQ : Q u r) :
    Gives Read.peek r Q :=
  ⟨u, r, by rw [← h.peek_eq]; rfl, hQ⟩

theorem Gives.peekAny {Q : Token → Reader → Prop} (hQ : ∀ t, Q t r) : Gives Read.peek r Q :=
  ⟨_, r, rfl, hQ _⟩

theorem Gives.previousAny {Q : Token → Reader → Prop} (hQ : ∀ t, Q t r) :
    Gives Read.previous r Q :=
  ⟨_, r, rfl, hQ _⟩

theorem Gives.advance {Q : Token → Reader → Prop} (h : r.At (t :: us) report)
    (hQ : ∀ s : Reader, s.At us report → Q t s) : Gives Read.advance r Q :=
  ⟨t, r.advance, by rw [← h.current_eq]; rfl, hQ _ h.advance⟩

theorem Gives.check {Q : Bool → Reader → Prop} (h : r.At (t :: us) report)
    (hQ : Q (t.kind == kind) r) : Gives (Read.check kind) r Q :=
  (Gives.current h (.pure hQ)).bind

/-- The token that is asked for is next. -/
theorem Gives.accept {Q : Bool → Reader → Prop} (h : r.At (t :: us) report)
    (hk : t.kind = kind) (hQ : ∀ s : Reader, s.At us report → Q true s) :
    Gives (Read.accept kind) r Q := by
  refine (Gives.check h ?_).bind
  rw [if_pos (by simpa using hk)]
  exact (Gives.advance h fun s hs => .pure (hQ s hs)).bind

/-- Another token than the one that is asked for is next. -/
theorem Gives.decline {Q : Bool → Reader → Prop} (h : r.At (t :: us) report)
    (hk : t.kind ≠ kind) (hQ : Q false r) : Gives (Read.accept kind) r Q := by
  refine (Gives.check h ?_).bind
  rw [if_neg (by simpa using hk)]
  exact .pure hQ

theorem Gives.expect {Q : Token → Reader → Prop} (h : r.At (t :: us) report)
    (hk : t.kind = kind) (hQ : ∀ s : Reader, s.At us report → Q t s) :
    Gives (Read.expect kind) r Q := by
  refine (Gives.current h ?_).bind
  rw [if_pos hk]
  exact Gives.advance h hQ

theorem Gives.spanFrom {start stop : Place} {Q : Span → Reader → Prop} (hQ : ∀ span, Q span r) :
    Gives (Read.spanFrom start stop) r Q :=
  ⟨_, r, rfl, hQ _⟩

end

end Read

end Zensight
