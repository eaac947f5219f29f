import Reckoner.Expr.Basic

/-!
# The text of an expression

Every operation is written in parentheses, and so is a declaration, so the text shows how the tree is nested.
-/

namespace Reckoner.Expr

def render : Expr → String
  | literal value _ => value.render
  | access name _ => name
  | unary op operand _ => "(" ++ op.symbol ++ operand.render ++ ")"
  | binary left op right _ => "(" ++ left.render ++ " " ++ op.symbol ++ " " ++ right.render ++ ")"
  | assign keyword name value _ => "(" ++ keyword.word ++ " " ++ name ++ " = " ++ value.render ++ ")"

end Reckoner.Expr
