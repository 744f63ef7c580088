/-
  Tokens.

  An expression is written with integer literals, the four operators and parentheses.  The end of
  the input counts as a token too, so that there is always a next one to look at.

  The kind of a token is the token without its value.  The grammar speaks of kinds only, and a
  message about a misplaced token names the kind that was wanted and the kind that was there.
-/
import Calculator.Binary64.Text
import Calculator.Literal
import Calculator.Operator

namespace Calculator

/-- What the text of an expression is made of. -/
inductive Token where
  | integer (literal : Literal)
  | operator (op : Operator)
  | leftParen
  | rightParen
  | endOfInput
  deriving DecidableEq

/-- A token without its value. -/
inductive TokenKind where
  | integer
  | operator (op : Operator)
  | leftParen
  | rightParen
  | endOfInput
  deriving DecidableEq

namespace TokenKind

/-- The kind as messages show it: the characters themselves, and words for the other two. -/
def text : TokenKind → String
  | .integer => "integer"
  | .operator op => String.ofList ['\'', op.symbol, '\'']
  | .leftParen => "'('"
  | .rightParen => "')'"
  | .endOfInput => "end of input"

/-- The name of a kind in diagnostics. -/
def label : TokenKind → String
  | .integer => "Integer"
  | .operator .add => "Plus"
  | .operator .sub => "Minus"
  | .operator .mul => "Mul"
  | .operator .div => "Div"
  | .leftParen => "LParen"
  | .rightParen => "RParen"
  | .endOfInput => "EndOfInput"

/-- The operator that tokens of this kind write. -/
def operator? : TokenKind → Option Operator
  | .operator op => some op
  | .integer | .leftParen | .rightParen | .endOfInput => none

end TokenKind

namespace Token

/-- The kind of a token. -/
def kind : Token → TokenKind
  | .integer _ => .integer
  | .operator op => .operator op
  | .leftParen => .leftParen
  | .rightParen => .rightParen
  | .endOfInput => .endOfInput

/-- The token that a single character writes. -/
def ofChar? (c : Char) : Option Token :=
  if c = '(' then some .leftParen
  else if c = ')' then some .rightParen
  else (Operator.ofChar? c).map .operator

/-- A token in diagnostics: the name of its kind, and for a literal also its value. -/
def describe : Token → String
  | .integer (.exact value) => s!"Integer(Exact({value.toNat}))"
  | .integer (.rounded value) => s!"Integer(Rounded({value.scientificText}))"
  | token => token.kind.label

/-- Only the end of the input is of the kind that ends the input. -/
@[simp] theorem kind_eq_endOfInput {token : Token} :
    token.kind = .endOfInput ↔ token = .endOfInput := by
  cases token <;> simp [kind]

end Token

end Calculator
