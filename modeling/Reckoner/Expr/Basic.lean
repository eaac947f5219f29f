import Reckoner.Token.Basic

/-!
# Expressions

An expression tree, each node with the span of the text it was read from. `Expr.sign`, `Expr.operate` and
`Expr.declare` build a node over operands and take its span from theirs. The span of a declaration begins at the
name, not at the keyword.
-/

namespace Reckoner

inductive Expr where
  | literal (value : Number) (span : Span)
  | access (name : String) (span : Span)
  | unary (op : Sign) (operand : Expr) (span : Span)
  | binary (left : Expr) (op : Op) (right : Expr) (span : Span)
  | assign (keyword : Keyword) (name : String) (value : Expr) (span : Span)
deriving BEq, DecidableEq, Repr

namespace Expr

def span : Expr → Span
  | literal _ s => s
  | access _ s => s
  | unary _ _ s => s
  | binary _ _ _ s => s
  | assign _ _ _ s => s

/-- The operator, which stands at `opSpan`, in front of its operand. -/
def sign (op : Sign) (opSpan : Span) (operand : Expr) : Expr :=
  unary op operand (opSpan.through operand.span)

/-- The operator between its operands. -/
def operate (left : Expr) (op : Op) (right : Expr) : Expr :=
  binary left op right (left.span.through right.span)

/-- The declaration of the name, which stands at `nameSpan`. -/
def declare (keyword : Keyword) (name : String) (nameSpan : Span) (value : Expr) : Expr :=
  assign keyword name value (nameSpan.through value.span)

/-- The node and all nodes below it, each in front of its operands. -/
def nodes : Expr → List Expr
  | e@(literal _ _) => [e]
  | e@(access _ _) => [e]
  | e@(unary _ operand _) => e :: operand.nodes
  | e@(binary left _ right _) => e :: (left.nodes ++ right.nodes)
  | e@(assign _ _ value _) => e :: value.nodes

theorem mem_nodes_self (e : Expr) : e ∈ e.nodes := by
  cases e <;> exact List.mem_cons_self

end Expr

end Reckoner
