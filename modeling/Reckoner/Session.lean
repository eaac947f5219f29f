import Reckoner.Token.Scan
import Reckoner.Expr.Printer
import Reckoner.Expr.Reader
import Reckoner.Evaluation

/-!
# Runs and sessions

A run takes a text through all stages: tokens, an expression, a value. The first stage that fails ends it. What
happened on the way is recorded as events. A `Session` is a table of globals that successive runs share.
-/

namespace Reckoner

/-- What is worth a line in a log. -/
inductive Event where
  | tokenized (sourceName : String) (count : Nat)
  | parsed (tree : Expr)
  | assigned (frameName name : String) (value : Value)
  | evaluated (sourceName : String) (tree : Expr) (outcome : Outcome Value)

namespace Event

inductive Level where
  | debug
  | trace
deriving DecidableEq, Repr

def level : Event → Level
  | assigned _ _ _ => .trace
  | _ => .debug

def message : Event → String
  | tokenized sourceName count => sourceName ++ ": " ++ toString count ++ " token(s)"
  | parsed tree => "parsed " ++ tree.render
  | assigned frameName name value => frameName ++ ": " ++ name ++ " = " ++ value.render
  | evaluated sourceName tree (.ok value) => sourceName ++ ": " ++ tree.render ++ " => " ++ value.render
  | evaluated sourceName tree (.error d) => sourceName ++ ": " ++ tree.render ++ " failed: " ++ d.summary

end Event

structure Run where
  outcome : Outcome Value
  /-- The own table of the scope, as the run leaves it. -/
  table : Table
  /-- What happened, in order. -/
  events : List Event

/-- The expression that a text holds. -/
def Expr.ofSource (source : Source) : Outcome Expr := do
  ofTokens (← Token.scan source)

/-- Runs a text against a table and those around it. -/
def run (context : Context) (own : Table) (outer : List Table) (source : Source) : Run :=
  match Token.scan source with
  | .error d => ⟨.error d, own, []⟩
  | .ok tokens =>
    let scanned := Event.tokenized source.name tokens.length
    match Expr.ofTokens tokens with
    | .error d => ⟨.error d, own, [scanned]⟩
    | .ok tree =>
      let (outcome, scope) := tree.evaluate context { own, outer }
      let assigned := scope.journal.map fun (name, value) => Event.assigned context.name name value
      ⟨outcome, scope.own, scanned :: .parsed tree :: assigned ++ [.evaluated source.name tree outcome]⟩

/-- The name of the outermost frame, unless another is given. -/
def defaultModule : String :=
  "<module>"

structure Session where
  moduleName : String := defaultModule
  globals : Table := Table.initial

/-- Runs a text in the session, and returns the session as it is afterwards. -/
def Session.run (s : Session) (source : Source) : Run × Session :=
  let r := Reckoner.run (.root s.moduleName) s.globals [] source
  (r, { s with globals := r.table })

end Reckoner
