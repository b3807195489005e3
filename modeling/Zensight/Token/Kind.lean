import Zensight.Text

/-!
# Kinds of tokens

The closed set of token kinds in their fixed order, the spelling of each, and
the classes of kinds that the grammar asks for. A kind whose spelling is fixed
(keyword, operator, delimiter) is named by that spelling.
-/

namespace Zensight.Token

inductive Kind where
  | illegal | eof
  | ident | intLit | longLit | floatLit | doubleLit | stringLit
  | kwImport | kwAs | kwVar | kwVal | kwGlobal | kwStatic | kwFunction | kwZenClass
  | kwZenConstructor | kwExtends | kwOperator | kwExpand | kwReturn | kwIf | kwElse | kwFor
  | kwIn | kwWhile | kwBreak | kwContinue | kwThis | kwInstanceof | kwHas | kwTo
  | kwTrue | kwFalse | kwNull
  | kwAny | kwByte | kwShort | kwInt | kwLong | kwFloat | kwDouble | kwBool | kwVoid | kwString
  | plus | minus | star | slash | percent | tilde | bang | amp | pipe | caret
  | andAnd | orOr | eqEq | bangEq | less | greater | lessEq | greaterEq
  | assign | plusEq | minusEq | starEq | slashEq | percentEq | tildeEq | ampEq | pipeEq | caretEq
  | question
  | lparen | rparen | lbrace | rbrace | lbracket | rbracket | comma | colon | semicolon
  | dot | dotDot | dollar
  deriving DecidableEq, Repr, Inhabited

namespace Kind

/-- How the kind is spelled; the first eight, which have no one spelling, go by a
name in capitals. -/
def spelling : Kind → String
  | illegal => "ILLEGAL"
  | eof => "EOF"
  | ident => "IDENT"
  | intLit => "INT_LIT"
  | longLit => "LONG_LIT"
  | floatLit => "FLOAT_LIT"
  | doubleLit => "DOUBLE_LIT"
  | stringLit => "STRING_LIT"
  | kwImport => "import"
  | kwAs => "as"
  | kwVar => "var"
  | kwVal => "val"
  | kwGlobal => "global"
  | kwStatic => "static"
  | kwFunction => "function"
  | kwZenClass => "zenClass"
  | kwZenConstructor => "zenConstructor"
  | kwExtends => "extends"
  | kwOperator => "operator"
  | kwExpand => "expand"
  | kwReturn => "return"
  | kwIf => "if"
  | kwElse => "else"
  | kwFor => "for"
  | kwIn => "in"
  | kwWhile => "while"
  | kwBreak => "break"
  | kwContinue => "continue"
  | kwThis => "this"
  | kwInstanceof => "instanceof"
  | kwHas => "has"
  | kwTo => "to"
  | kwTrue => "true"
  | kwFalse => "false"
  | kwNull => "null"
  | kwAny => "any"
  | kwByte => "byte"
  | kwShort => "short"
  | kwInt => "int"
  | kwLong => "long"
  | kwFloat => "float"
  | kwDouble => "double"
  | kwBool => "bool"
  | kwVoid => "void"
  | kwString => "string"
  | plus => "+"
  | minus => "-"
  | star => "*"
  | slash => "/"
  | percent => "%"
  | tilde => "~"
  | bang => "!"
  | amp => "&"
  | pipe => "|"
  | caret => "^"
  | andAnd => "&&"
  | orOr => "||"
  | eqEq => "=="
  | bangEq => "!="
  | less => "<"
  | greater => ">"
  | lessEq => "<="
  | greaterEq => ">="
  | assign => "="
  | plusEq => "+="
  | minusEq => "-="
  | starEq => "*="
  | slashEq => "/="
  | percentEq => "%="
  | tildeEq => "~="
  | ampEq => "&="
  | pipeEq => "|="
  | caretEq => "^="
  | question => "?"
  | lparen => "("
  | rparen => ")"
  | lbrace => "\x7b"
  | rbrace => "\x7d"
  | lbracket => "["
  | rbracket => "]"
  | comma => ","
  | colon => ":"
  | semicolon => ";"
  | dot => "."
  | dotDot => ".."
  | dollar => "$"

/-- All kinds in order. -/
def all : List Kind := [
  illegal, eof, ident, intLit, longLit, floatLit, doubleLit, stringLit, kwImport, kwAs, kwVar,
  kwVal, kwGlobal, kwStatic, kwFunction, kwZenClass, kwZenConstructor, kwExtends, kwOperator,
  kwExpand, kwReturn, kwIf, kwElse, kwFor, kwIn, kwWhile, kwBreak, kwContinue, kwThis,
  kwInstanceof, kwHas, kwTo, kwTrue, kwFalse, kwNull, kwAny, kwByte, kwShort, kwInt, kwLong,
  kwFloat, kwDouble, kwBool, kwVoid, kwString, plus, minus, star, slash, percent, tilde, bang,
  amp, pipe, caret, andAnd, orOr, eqEq, bangEq, less, greater, lessEq, greaterEq, assign,
  plusEq, minusEq, starEq, slashEq, percentEq, tildeEq, ampEq, pipeEq, caretEq, question,
  lparen, rparen, lbrace, rbrace, lbracket, rbracket, comma, colon, semicolon, dot, dotDot,
  dollar]

/-- The name of a kind; for keywords and operators it is their spelling. -/
def name (k : Kind) : Text := txt k.spelling

/-- The kind at place `n` of the order, counted from 0. -/
def ofOrdinal? (n : Int) : Option Kind :=
  if n < 0 then none else all[n.toNat]?

/-- The place of a kind in the order. -/
def ordinal (k : Kind) : Nat := all.idxOf k

/-- The name at place `n`; a place outside the order is named by its number. -/
def nameAt (n : Int) : Text :=
  match ofOrdinal? n with
  | some k => k.name
  | none => txt "TokenType(" ++ Text.ofInt n ++ txt ")"

/-- Is it the keyword of a builtin type? -/
def isPrimitive : Kind → Bool
  | kwAny | kwByte | kwShort | kwInt | kwLong | kwFloat | kwDouble | kwBool | kwVoid
  | kwString => true
  | _ => false

/-- Is it `=` or a compound assignment? -/
def isAssignment : Kind → Bool
  | assign | plusEq | minusEq | starEq | slashEq | percentEq | tildeEq | ampEq | pipeEq
  | caretEq => true
  | _ => false

/-- Is it a reserved word? -/
def isKeyword : Kind → Bool
  | kwImport | kwAs | kwVar | kwVal | kwGlobal | kwStatic | kwFunction | kwZenClass
  | kwZenConstructor | kwExtends | kwOperator | kwExpand | kwReturn | kwIf | kwElse | kwFor
  | kwIn | kwWhile | kwBreak | kwContinue | kwThis | kwInstanceof | kwHas | kwTo
  | kwTrue | kwFalse | kwNull => true
  | k => k.isPrimitive

/-- Is it an operator or a delimiter? -/
def isSign : Kind → Bool
  | illegal | eof | ident | intLit | longLit | floatLit | doubleLit | stringLit => false
  | k => !k.isKeyword

/-- The reserved words. -/
def keywords : List (Text × Kind) :=
  (all.filter isKeyword).map fun k => (k.name, k)

/-- The operators and delimiters. -/
def signs : List (Text × Kind) :=
  (all.filter isSign).map fun k => (k.name, k)

/-- The kind of a word: its keyword, or else a plain name. -/
def ofWord (w : Text) : Kind := (keywords.lookup w).getD ident

/-- The operator or delimiter spelled exactly `s`. -/
def ofSign? (s : Text) : Option Kind := signs.lookup s

end Kind

end Zensight.Token
