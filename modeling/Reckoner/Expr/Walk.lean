import Reckoner.Expr.Reader
import Reckoner.Walk

/-!
# Reading with a cursor

The reader as a program that works on one list of tokens in place. It has a cursor and a count of the levels of nesting
that it is in, and no other state: what `Expr.parse` is given as the tokens and the room that are left, it finds by
looking. Nothing in this form says that reading ends, that there is a token under the cursor or that no more levels are
left than were entered. Each function is given the number of calls that may be made one inside the other.
-/

namespace Reckoner.Expr

/-- The number of the token that a reader has come to, and the levels of nesting that it is in. -/
structure Cursor where
  pos : Nat
  depth : Nat
deriving DecidableEq, Repr

namespace Cursor

variable (ts : List Token)

/-- The token under the cursor, or the last one if the cursor is behind it. -/
def current : Walk Cursor Token := do
  let c ← Walk.now
  match ts[min c.pos (ts.length - 1)]? with
  | some t => return t
  | none => Walk.fault

def advance : Walk Cursor Unit := do
  let c ← Walk.now
  if c.pos < ts.length then Walk.goTo { c with pos := c.pos + 1 }

/-- Goes one level deeper, for what is nested at `span`. -/
def enter (span : Span) : Walk Cursor Unit := do
  let c ← Walk.now
  if maxDepth ≤ c.depth then Walk.refuse (.ofSyntax .tooDeep span)
  else Walk.goTo { c with depth := c.depth + 1 }

def leave (levels : Nat) : Walk Cursor Unit := do
  let c ← Walk.now
  if c.depth < levels then Walk.fault
  else Walk.goTo { c with depth := c.depth - levels }

end Cursor

open Cursor

/-- The operators between the operands of a chain. -/
def Chain.ops : Chain → List Op
  | sum => [.add, .sub]
  | product => [.mul, .div]

/-- The operator that a token is, if it is one of `ops`. -/
def opAmong? (ops : List Op) (kind : Token.Kind) : Option Op :=
  kind.op?.filter (· ∈ ops)

/-- A failure at the first token, where the cursor was at `start`, is reported as the lack of an expression. -/
def refuseExpression (ts : List Token) (start : Nat) (d : Diagnostic) : Walk Cursor Expr := do
  let c ← Walk.now
  if c.pos = start then
    let t ← current ts
    Walk.refuse (.ofSyntax .expectedExpression t.span)
  else Walk.refuse d

mutual

/-- Reads by a rule from the cursor on. -/
def reading (ts : List Token) : Nat → Rule → Walk Cursor Expr
  | 0, _ => Walk.unended
  | calls + 1, .expression => do
    let t ← current ts
    match t.kind with
    | .keyword k => declaring ts calls k
    | _ =>
      let start ← Walk.now
      (reading ts calls (.chain .sum)).rescue (refuseExpression ts start.pos)
  | calls + 1, .chain c => chaining ts calls c.ops c.operand c.operand
  | calls + 1, .factor => do
    let t ← current ts
    match t.kind.sign? with
    | some op =>
      advance ts
      enter t.span
      let operand ← reading ts calls .factor
      leave 1
      return sign op t.span operand
    | none => reading ts calls .power
  | calls + 1, .power => chaining ts calls [.pow] .atom .factor
  | calls + 1, .atom => do
    let t ← current ts
    match t.kind with
    | .number n =>
      advance ts
      return literal n t.span
    | .identifier name =>
      advance ts
      return access name t.span
    | .leftParen =>
      advance ts
      enter t.span
      let inner ← reading ts calls .expression
      leave 1
      let close ← current ts
      if close.kind = .rightParen then
        advance ts
        return inner
      else Walk.refuse (.ofSyntax .expectedRightParen close.span)
    | _ => Walk.refuse (.ofSyntax .expectedOperand t.span)

/-- Reads a declaration, whose keyword is under the cursor. -/
def declaring (ts : List Token) : Nat → Keyword → Walk Cursor Expr
  | 0, _ => Walk.unended
  | calls + 1, k => do
    advance ts
    let name ← current ts
    match name.kind with
    | .identifier s =>
      advance ts
      let t ← current ts
      if t.kind = .equal then
        advance ts
        let value ← reading ts calls .expression
        return declare k s name.span value
      else Walk.refuse (.ofSyntax .expectedEquals t.span)
    | _ => Walk.refuse (.ofSyntax .expectedIdentifier name.span)

/-- Reads an operand by `first`, and operands by `next` with operators between them, folding to the left. -/
def chaining (ts : List Token) : Nat → List Op → Rule → Rule → Walk Cursor Expr
  | 0, _, _, _ => Walk.unended
  | calls + 1, ops, first, next => do
    let left ← reading ts calls first
    folding ts calls ops next left 0

/-- Reads on behind `left`, for which `folded` levels were entered. They are left at the end of the chain. -/
def folding (ts : List Token) : Nat → List Op → Rule → Expr → Nat → Walk Cursor Expr
  | 0, _, _, _, _ => Walk.unended
  | calls + 1, ops, next, left, folded => do
    let t ← current ts
    match opAmong? ops t.kind with
    | none =>
      leave folded
      return left
    | some op =>
      advance ts
      enter t.span
      let right ← reading ts calls next
      folding ts calls ops next (operate left op right) (folded + 1)

end

/-- Reads an expression, behind which the end has to follow. -/
def readingAll (ts : List Token) (calls : Nat) : Walk Cursor Expr := do
  let tree ← reading ts calls .expression
  let t ← current ts
  if t.kind = .eof then return tree else Walk.refuse (.ofSyntax .expectedOperator t.span)

/-- The tokens with an end behind them, where they have none. -/
def withEnd (ts : List Token) (last : Token) : List Token :=
  if last.kind = .eof then ts else ts ++ [⟨.eof, .atEnd last.span.stop⟩]

/-- How reading the tokens stops, if it does. -/
def walkTokens (ts : List Token) (calls : Nat) : Option (Except Walk.Stop Expr) :=
  match ts.getLast? with
  | none => some (.error (.refused (.ofSyntax .expectedExpression (.atEnd (Source.start ⟨"", ""⟩)))))
  | some last => (readingAll (withEnd ts last) calls ⟨⟨0, 0⟩, []⟩).map Prod.fst

end Reckoner.Expr
