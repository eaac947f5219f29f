import Reckoner.Number.Basic
import Reckoner.Traceback

/-!
# Diagnostics

A `Diagnostic` says what is wrong and where: a `Problem`, with the span it concerns. Problems that arise while an
expression is evaluated carry the frames that evaluation was in. `Problem.title` and `Problem.message` hold all
wording; the rest of the library speaks of the causes only.
-/

namespace Reckoner

/-- Why a text is no expression. -/
inductive SyntaxProblem where
  /-- An operator without its operand. -/
  | expectedOperand
  /-- Nothing that could begin an expression where one has to stand. -/
  | expectedExpression
  | expectedRightParen
  /-- A declaration without a name. -/
  | expectedIdentifier
  /-- A declared name without its `=`. -/
  | expectedEquals
  /-- Something behind a complete expression. -/
  | expectedOperator
  /-- The literal has no place in 64 bits. -/
  | numberOutOfRange (literal : String)
  | tooDeep
deriving DecidableEq, Repr

/-- Why an expression has no value. -/
inductive RuntimeProblem where
  | arithmetic (fault : Number.Fault)
  /-- The name has no binding. -/
  | undefined (name : String)
deriving DecidableEq, Repr

inductive Problem where
  /-- The character cannot begin a lexeme. -/
  | illegalCharacter (c : Char)
  | invalidSyntax (problem : SyntaxProblem)
  /-- The operator is not defined for operands of this type. -/
  | noOverload (typeName : String)
  | runtime (problem : RuntimeProblem)
deriving DecidableEq, Repr

structure Diagnostic where
  problem : Problem
  span : Span
  /-- The frames of the evaluation from the outermost in, if the problem arose in one. -/
  traceback : Option (List Frame) := none
deriving DecidableEq, Repr

namespace SyntaxProblem

def message : SyntaxProblem → String
  | expectedOperand => "Expected int, float, identifier, '+', '-' or '('"
  | expectedExpression => "Expected 'var', 'let', int, float, identifier, '+', '-' or '('"
  | expectedRightParen => "Expected ')'"
  | expectedIdentifier => "Expected identifier"
  | expectedEquals => "Expected '='"
  | expectedOperator => "Expected '+', '-', '*', '/' or '^'"
  | numberOutOfRange literal => "Number literal '" ++ literal ++ "' is out of range"
  | tooDeep => "Expression is nested too deeply"

end SyntaxProblem

def Number.Fault.message : Number.Fault → String
  | divisionByZero => "Division by zero"
  | overflow => "Numeric result out of range"
  | notReal => "Result is not a real number"

def RuntimeProblem.message : RuntimeProblem → String
  | arithmetic fault => fault.message
  | undefined name => "'" ++ name ++ "' is not defined"

namespace Problem

/-- The heading in front of the message. -/
def title : Problem → String
  | illegalCharacter _ => "Illegal Character"
  | invalidSyntax _ => "Invalid Syntax"
  | noOverload _ => "No Overload"
  | runtime _ => "Runtime Error"

def message : Problem → String
  | illegalCharacter c => "'" ++ String.singleton c ++ "' is not a valid character"
  | invalidSyntax problem => problem.message
  | noOverload typeName => typeName ++ " is not a Number"
  | runtime problem => problem.message

end Problem

namespace Diagnostic

/-- A problem of the text. -/
def ofSyntax (problem : SyntaxProblem) (span : Span) : Diagnostic :=
  ⟨.invalidSyntax problem, span, none⟩

/-- A problem of an evaluation in `context`, which stands at the start of `span`. -/
def ofRuntime (problem : RuntimeProblem) (span : Span) (context : Context) : Diagnostic :=
  ⟨.runtime problem, span, some (context.frames (some span.start))⟩

/-- The summary in one sentence. -/
def summary (d : Diagnostic) : String :=
  d.problem.title ++ ": " ++ d.problem.message
    ++ " at line " ++ toString d.span.start.lineNumber ++ ", column " ++ toString d.span.start.columnNumber

end Diagnostic

/-- A value, or the diagnostic of the first problem met on the way to it. -/
abbrev Outcome (α : Type) := Except Diagnostic α

/-- Whether two outcomes agree: the same diagnostic, or values that `==` holds equal. -/
def Outcome.agree {α : Type} [BEq α] : Outcome α → Outcome α → Bool
  | .ok a, .ok b => a == b
  | .error a, .error b => a == b
  | _, _ => false

end Reckoner

/-! ## When a computation in steps has a result, and when it fails -/

namespace Except

variable {ε α β : Type}

theorem bind_eq_ok_iff {x : Except ε α} {f : α → Except ε β} {b : β} :
    x.bind f = .ok b ↔ ∃ a, x = .ok a ∧ f a = .ok b := by
  cases x <;> simp [Except.bind]

theorem map_eq_ok_iff {x : Except ε α} {f : α → β} {b : β} : x.map f = .ok b ↔ ∃ a, x = .ok a ∧ f a = b := by
  cases x <;> simp [Except.map]

theorem bind_eq_error_iff {x : Except ε α} {f : α → Except ε β} {e : ε} :
    x.bind f = .error e ↔ x = .error e ∨ ∃ a, x = .ok a ∧ f a = .error e := by
  cases x <;> simp [Except.bind]

theorem map_eq_error_iff {x : Except ε α} {f : α → β} {e : ε} : x.map f = .error e ↔ x = .error e := by
  cases x <;> simp [Except.map]

end Except
