import Zensight.Text

/-!
# The text a string literal stands for
-/

namespace Zensight.Token

/-- The byte that a backslash and `c` stand for. -/
def unescape (c : UInt8) : UInt8 :=
  if c = byte 'n' then byte '\n'
  else if c = byte 't' then byte '\t'
  else if c = byte 'r' then byte '\r'
  else c

/-- Resolves the escapes of a literal's body. A backslash at the very end
stands for itself. -/
def unescapeAll : Text → Text
  | [] => []
  | [c] => [c]
  | c :: d :: s =>
    if c = byte '\\' then unescape d :: unescapeAll s else c :: unescapeAll (d :: s)

/-- The text of a string literal: its first and last byte, the quotes, are
dropped and its escapes resolved. Fewer than two bytes are no literal and stand
for themselves. -/
def unquote (literal : Text) : Text :=
  if literal.length < 2 then literal
  else unescapeAll (literal.tail.take (literal.length - 2))

end Zensight.Token
