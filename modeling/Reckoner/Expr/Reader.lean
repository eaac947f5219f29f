import Reckoner.Diagnostic.Basic
import Reckoner.Expr.Basic

/-!
# From tokens to an expression

The grammar, loosest binding first:

```
expression := ("var" | "let") IDENTIFIER "=" expression | sum
sum        := product (("+" | "-") product)*
product    := factor (("*" | "/") factor)*
factor     := ("+" | "-") factor | power
power      := atom ("^" factor)?
atom       := NUMBER | IDENTIFIER | "(" expression ")"
```

Sums and products fold to the left. The exponent of a power is a factor, so powers nest to the right and bind
tighter than a sign in front of them.

Nesting is limited. `parse` gets the `room` that is left for it: a sign, a parenthesis and a power take one level for
what they hold, and in a sum or a product each operator takes one level more than the one before it, since each folds
all that was read so far one level deeper. `maxDepth` is the room of a whole text.

A reader stops at the first token that does not fit (`Stuck`), or returns a tree and the tokens behind it. It has then
read at least one token (`Parsed.shorter`), which is why reading ends.
-/

namespace Reckoner

namespace Expr

/-- The levels of nesting that a text may have. -/
def maxDepth : Nat :=
  128

/-- The chains of operators that bind alike. -/
inductive Chain where
  | sum
  | product
deriving DecidableEq, Repr

/-- The rules of the grammar. -/
inductive Rule where
  | expression
  | chain (c : Chain)
  | factor
  | power
  | atom
deriving DecidableEq, Repr

/-- The rule for what stands between the operators of a chain. -/
def Chain.operand : Chain → Rule
  | sum => .chain .product
  | product => .factor

/-- The operator of the chain that the token is, if it is one. -/
def Chain.op? : Chain → Token.Kind → Option Op
  | sum, .plus => some .add
  | sum, .minus => some .sub
  | product, .star => some .mul
  | product, .slash => some .div
  | _, _ => none

/-- A rule without a token of its own to read goes on with one of lower rank. -/
def Rule.rank : Rule → Nat
  | expression => 5
  | chain .sum => 4
  | chain .product => 3
  | factor => 2
  | power => 1
  | atom => 0

theorem Chain.rank_operand_lt (c : Chain) : c.operand.rank < (Rule.chain c).rank := by
  cases c <;> decide

theorem Chain.rank_operand_le (c : Chain) : c.operand.rank ≤ 3 := by
  cases c <;> decide

/-- Why reading stopped, and the tokens from the first that does not fit. -/
structure Stuck where
  problem : SyntaxProblem
  rest : List Token
deriving DecidableEq, Repr

/-- A tree, and the fewer than `n` tokens behind it. -/
structure Parsed (n : Nat) where
  tree : Expr
  rest : List Token
  shorter : rest.length < n

namespace Parsed

variable {m n : Nat}

def pair (p : Parsed n) : Expr × List Token :=
  (p.tree, p.rest)

/-- The same reading with `f` done to the tree, seen from further back. -/
def grow (p : Parsed m) (f : Expr → Expr) (h : m ≤ n) : Parsed n :=
  ⟨f p.tree, p.rest, Nat.lt_of_lt_of_le p.shorter h⟩

/-- Takes the parenthesis that has to follow. -/
def close (p : Parsed n) : Except Stuck (Parsed n) :=
  match h : p.rest with
  | ⟨.rightParen, s⟩ :: rest =>
    have shorter : (⟨.rightParen, s⟩ :: rest : List Token).length < n := h ▸ p.shorter
    return ⟨p.tree, rest, Nat.lt_of_succ_lt shorter⟩
  | rest => throw ⟨.expectedRightParen, rest⟩

end Parsed

/-- Whether an expression that is no declaration can begin with the token. -/
def startsOperand : Token.Kind → Bool
  | .number _ | .identifier _ | .leftParen | .plus | .minus => true
  | _ => false

mutual

/-- Reads by a rule, as far as the tokens fit. -/
def parse (rule : Rule) (room : Nat) (ts : List Token) : Except Stuck (Parsed ts.length) :=
  match rule with
  | .expression =>
    match ts with
    | ⟨.keyword k, _⟩ :: ⟨.identifier name, nameSpan⟩ :: ⟨.equal, _⟩ :: rest => do
      let value ← parse .expression room rest
      return value.grow (declare k name nameSpan) (Nat.le_add_right _ 3)
    | ⟨.keyword _, _⟩ :: ⟨.identifier _, _⟩ :: rest => throw ⟨.expectedEquals, rest⟩
    | ⟨.keyword _, _⟩ :: rest => throw ⟨.expectedIdentifier, rest⟩
    | [] => throw ⟨.expectedExpression, []⟩
    | t :: rest =>
      if startsOperand t.kind then parse (.chain .sum) room (t :: rest)
      else throw ⟨.expectedExpression, t :: rest⟩
  | .chain c => do
    let left ← parse c.operand room ts
    let tree ← parseChain c room left.tree left.rest
    return tree.grow id left.shorter
  | .factor =>
    match ts with
    | [] => parse .power room []
    | t :: rest =>
      match t.kind.sign?, room with
      | none, room => parse .power room (t :: rest)
      | some _, 0 => throw ⟨.tooDeep, t :: rest⟩
      | some op, room + 1 => do
        let operand ← parse .factor room rest
        return operand.grow (sign op t.span) (Nat.le_succ _)
  | .power => do
    let base ← parse .atom room ts
    let tree ← parsePower room base.tree base.rest
    return tree.grow id base.shorter
  | .atom =>
    match ts with
    | ⟨.number n, s⟩ :: rest => return ⟨literal n s, rest, Nat.lt_succ_self _⟩
    | ⟨.identifier name, s⟩ :: rest => return ⟨access name s, rest, Nat.lt_succ_self _⟩
    | ⟨.leftParen, s⟩ :: rest =>
      match room with
      | 0 => throw ⟨.tooDeep, ⟨.leftParen, s⟩ :: rest⟩
      | room + 1 => do
        let inner ← parse .expression room rest
        let tree ← inner.close
        return tree.grow id (Nat.le_succ _)
    | ts => throw ⟨.expectedOperand, ts⟩
termination_by 6 * ts.length + rule.rank
decreasing_by
  · simp only [List.length_cons]; omega
  · simp only [Rule.rank]; omega
  · have := c.rank_operand_lt; omega
  · have := left.shorter; omega
  · simp only [Rule.rank]; omega
  · simp only [Rule.rank]; omega
  · simp only [List.length_cons]; omega
  · simp only [Rule.rank]; omega
  · have := base.shorter; omega
  · simp only [List.length_cons, Rule.rank]; omega

/-- Reads on in a chain behind `left`, as long as operators of the chain follow. -/
def parseChain (c : Chain) (room : Nat) (left : Expr) (ts : List Token) : Except Stuck (Parsed (ts.length + 1)) :=
  match ts with
  | [] => return ⟨left, [], Nat.lt_succ_self _⟩
  | t :: rest =>
    match c.op? t.kind, room with
    | none, _ => return ⟨left, t :: rest, Nat.lt_succ_self _⟩
    | some _, 0 => throw ⟨.tooDeep, t :: rest⟩
    | some op, room + 1 => do
      let right ← parse c.operand room rest
      let tree ← parseChain c room (operate left op right.tree) right.rest
      return tree.grow id (by have := right.shorter; simp; omega)
termination_by 6 * ts.length
decreasing_by
  · have := c.rank_operand_le; simp only [List.length_cons]; omega
  · have := right.shorter; simp only [List.length_cons]; omega

/-- Reads the exponent behind `base`, if one follows. -/
def parsePower (room : Nat) (base : Expr) (ts : List Token) : Except Stuck (Parsed (ts.length + 1)) :=
  match ts with
  | ⟨.caret, s⟩ :: rest =>
    match room with
    | 0 => throw ⟨.tooDeep, ⟨.caret, s⟩ :: rest⟩
    | room + 1 => do
      let exponent ← parse .factor room rest
      return exponent.grow (operate base .pow) (by simp; omega)
  | ts => return ⟨base, ts, Nat.lt_succ_self _⟩
termination_by 6 * ts.length
decreasing_by
  simp only [List.length_cons, Rule.rank]; omega

end

/-- The tree that a rule reads, and the tokens left behind it. -/
def read (rule : Rule) (room : Nat) (ts : List Token) : Except Stuck (Expr × List Token) :=
  (parse rule room ts).map Parsed.pair

/-- The tree that `left` grows into when the rest of its chain is read. -/
def readChain (c : Chain) (room : Nat) (left : Expr) (ts : List Token) : Except Stuck (Expr × List Token) :=
  (parseChain c room left ts).map Parsed.pair

/-- The tree that `base` grows into when its exponent is read. -/
def readPower (room : Nat) (base : Expr) (ts : List Token) : Except Stuck (Expr × List Token) :=
  (parsePower room base ts).map Parsed.pair

/-- The tokens in front of the end of the text. -/
def body (ts : List Token) : List Token :=
  ts.takeWhile (!·.isEof)

/-- Where the end is reported: at the first token that says so, or else behind the last token. -/
def endSpan (ts : List Token) : Span :=
  match ts.find? Token.isEof, ts.getLast? with
  | some t, _ => t.span
  | none, some t => .atEnd t.span.stop
  | none, none => .atEnd (Source.start ⟨"", ""⟩)

/-- The expression that the tokens make up, when they end at `stop`. -/
def ofBody (ts : List Token) (stop : Span) : Outcome Expr :=
  let failAt (problem : SyntaxProblem) (rest : List Token) : Outcome Expr :=
    .error (.ofSyntax problem (match rest with | [] => stop | t :: _ => t.span))
  match read .expression maxDepth ts with
  | .error stuck => failAt stuck.problem stuck.rest
  | .ok (tree, []) => .ok tree
  | .ok (_, rest) => failAt .expectedOperator rest

/-- The expression that all tokens in front of the end make up. -/
def ofTokens (ts : List Token) : Outcome Expr :=
  ofBody (body ts) (endSpan ts)

end Expr

end Reckoner
