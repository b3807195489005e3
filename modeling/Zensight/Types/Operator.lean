import Zensight.Text

/-!
# Logical operators

An operator function implements a logical operator. Which one its sign stands
for depends on the number of operands besides the receiver: `-` with none
negates, with one subtracts.
-/

namespace Zensight

inductive Operator where
  | error
  | indexGet | indexSet | range | has
  | add | sub | mul | div | mod | concat
  | neg | not | and | or | xor
  | compare | equals | memberGet | memberSet | as | iterator
  /-- A number that is no operator's. -/
  | other (number : Int)
  deriving DecidableEq, Repr, Inhabited

namespace Operator

/-- The operators in order. -/
def all : List Operator := [
  error, indexGet, indexSet, range, has, add, sub, mul, div, mod, concat, neg, not, and, or,
  xor, compare, equals, memberGet, memberSet, as, iterator]

/-- The operator at place `n` of the order, counted from 0. -/
def ofOrdinal (n : Int) : Operator :=
  if n < 0 then other n else all[n.toNat]?.getD (other n)

/-- The name of an operator, under which an operator function is declared. -/
def name : Operator → Text
  | error | other _ => txt "ERROR"
  | indexGet => txt "INDEX_GET"
  | indexSet => txt "INDEX_SET"
  | range => txt "RANGE"
  | has => txt "HAS"
  | add => txt "ADD"
  | sub => txt "SUB"
  | mul => txt "MUL"
  | div => txt "DIV"
  | mod => txt "MOD"
  | concat => txt "CONCAT"
  | neg => txt "NEG"
  | not => txt "NOT"
  | and => txt "AND"
  | or => txt "OR"
  | xor => txt "XOR"
  | compare => txt "COMPARE"
  | equals => txt "EQUALS"
  | memberGet => txt "MEMBER_GET"
  | memberSet => txt "MEMBER_SET"
  | as => txt "AS"
  | iterator => txt "ITERATOR"

/-- Signs of operators without an operand. -/
def unarySigns : List (Text × Operator) := [
  (txt "-", neg), (txt "!", not), (txt "for", iterator), (txt "as", as)]

/-- Signs of operators with one operand. -/
def binarySigns : List (Text × Operator) := [
  (txt "+", add), (txt "-", sub), (txt "*", mul), (txt "/", div), (txt "%", mod),
  (txt "~", concat), (txt "&", and), (txt "&&", and), (txt "|", or), (txt "||", or),
  (txt "^", xor), (txt "<", compare), (txt ">", compare), (txt "<=", compare),
  (txt ">=", compare), (txt "==", equals), (txt "!=", equals), (txt "[]", indexGet),
  (txt "..", range), (txt "to", range), (txt "has", has), (txt "in", has),
  (txt ".", memberGet)]

/-- Signs of operators with two operands. -/
def trinarySigns : List (Text × Operator) := [
  (txt "[]=", indexSet), (txt ".=", memberSet)]

/-- The operator a sign stands for with this many operands besides the
receiver. -/
def ofSign (sign : Text) (operands : Int) : Operator :=
  let signs :=
    if operands = 0 then unarySigns
    else if operands = 1 then binarySigns
    else if operands = 2 then trinarySigns
    else []
  (signs.lookup sign).getD error

end Operator

end Zensight
