import Zensight.Token.Kind

/-!
# Tokens and their places

A place is a line and a column, both counted from 1, the column in bytes. The
place after a piece of text follows from the place before it and the bytes of
the piece alone.
-/

namespace Zensight

/-- A line and a byte column of a script, both counted from 1. -/
structure Place where
  line : Nat
  column : Nat
  deriving DecidableEq, Repr, Inhabited

namespace Place

/-- Where a script begins. -/
def start : Place := ⟨1, 1⟩

/-- The place after one byte. -/
def next (p : Place) (c : UInt8) : Place :=
  if c = byte '\n' then ⟨p.line + 1, 1⟩ else ⟨p.line, p.column + 1⟩

/-- The place after a piece of text. -/
def after (p : Place) (s : Text) : Place := s.foldl next p

/-- Is `p` strictly before `q`? -/
def isBefore (p q : Place) : Bool :=
  p.line < q.line || (p.line == q.line && p.column < q.column)

end Place

/-- A token: its kind, its text and the place of its first byte. -/
structure Token where
  kind : Token.Kind
  literal : Text
  place : Place
  deriving DecidableEq, Repr, Inhabited

namespace Token

/-- The place just past the token, which never spans lines. -/
def stop (t : Token) : Place := ⟨t.place.line, t.place.column + t.literal.length⟩

end Token

end Zensight
