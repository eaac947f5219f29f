import Reckoner.Diagnostic.Basic
import Reckoner.Expr.Basic
import Reckoner.Scope

/-!
# Evaluation

`Expr.evaluate` takes a scope to an outcome and the scope as it is afterwards. Operands are evaluated from left to
right and the first problem ends the evaluation; the assignments made before it stay. A value is tagged with the span
of the node it is the value of, except that a declaration passes the value of its right side on as it is.
-/

namespace Reckoner

namespace Op

def apply : Op → Number → Number → Except Number.Fault Number
  | add => Number.add
  | sub => Number.sub
  | mul => Number.mul
  | div => Number.div
  | pow => Number.pow

/-- The value of an operation at `span`. A division by zero is the fault of the right operand, at `right`; every other
fault is one of the whole operation. -/
def evaluate (context : Context) (op : Op) (a b : Number) (right span : Span) : Outcome Value :=
  match op.apply a b with
  | .ok n => .ok ⟨n, some span⟩
  | .error .divisionByZero => .error (.ofRuntime (.arithmetic .divisionByZero) right context)
  | .error fault => .error (.ofRuntime (.arithmetic fault) span context)

end Op

/-- The value of a signed operand. Negation is multiplication by minus one. -/
def Sign.evaluate (context : Context) (op : Sign) (v : Value) (operand span : Span) : Outcome Value :=
  match op with
  | plus => .ok (v.tag span)
  | minus => Op.mul.evaluate context v.number (.int (-1)) operand span

namespace Expr

def evaluate (context : Context) : Expr → Scope → Outcome Value × Scope
  | literal value span, s => (.ok ⟨value, some span⟩, s)
  | access name span, s =>
    match s.lookup? name with
    | some v => (.ok (v.tag span), s)
    | none => (.error (.ofRuntime (.undefined name) span context), s)
  | unary op operand span, s =>
    match operand.evaluate context s with
    | (.ok v, s) => (op.evaluate context v operand.span span, s)
    | (.error d, s) => (.error d, s)
  | binary left op right span, s =>
    match left.evaluate context s with
    | (.ok a, s) =>
      match right.evaluate context s with
      | (.ok b, s) => (op.evaluate context a.number b.number right.span span, s)
      | (.error d, s) => (.error d, s)
    | (.error d, s) => (.error d, s)
  | assign _ name value _, s =>
    match value.evaluate context s with
    | (.ok v, s) => (.ok v, s.assign name v)
    | (.error d, s) => (.error d, s)

end Expr

end Reckoner
