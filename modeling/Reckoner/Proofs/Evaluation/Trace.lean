import Reckoner.Evaluation

/-!
# The course of an evaluation

Evaluation goes through a tree in postorder, and ends at the first node that has no value. `Expr.trace` lists the nodes
that get a value, each with it: they are a beginning of the postorder, and all of it if and only if the tree has a value
(`covers_trace`). The scope changes by the declarations among them and by nothing else, in their order
(`scope_evaluate`).
-/

namespace Reckoner

namespace Scope

/-- The scope after the assignments, the first one first. -/
def assignAll (s : Scope) (bindings : List (String × Value)) : Scope :=
  bindings.foldl (fun s b => s.assign b.1 b.2) s

@[simp] theorem assignAll_nil (s : Scope) : s.assignAll [] = s := rfl

@[simp] theorem assignAll_cons (s : Scope) (b : String × Value) (bs : List (String × Value)) :
    s.assignAll (b :: bs) = (s.assign b.1 b.2).assignAll bs := rfl

theorem assignAll_append (s : Scope) (as bs : List (String × Value)) :
    s.assignAll (as ++ bs) = (s.assignAll as).assignAll bs :=
  List.foldl_append

theorem own_assignAll (s : Scope) (bs : List (String × Value)) : (s.assignAll bs).own = s.own.insertMany bs := by
  induction bs generalizing s with
  | nil => rfl
  | cons b bs ih => rw [assignAll_cons, ih, Std.ExtTreeMap.insertMany_cons]; rfl

theorem outer_assignAll (s : Scope) (bs : List (String × Value)) : (s.assignAll bs).outer = s.outer := by
  induction bs generalizing s with
  | nil => rfl
  | cons b bs ih => rw [assignAll_cons, ih, assign]

theorem journal_assignAll (s : Scope) (bs : List (String × Value)) :
    (s.assignAll bs).journal = s.journal ++ bs := by
  induction bs generalizing s with
  | nil => exact (List.append_nil _).symm
  | cons b bs ih => rw [assignAll_cons, ih, assign, List.append_assoc, List.singleton_append]

end Scope

namespace Expr

/-- A span of its own for each `i`, in no text, for the nodes of a tree that was not read from one. -/
def column (i : Nat) : Span :=
  .atEnd (Source.byte ⟨"", ""⟩ i)

variable {context : Context}

/-! ## A node after its operands -/

section Rules

variable {e left right : Expr} {op : Op} {span : Span} {name : String}
variable {s s' s'' : Scope} {v a b : Value} {d : Diagnostic}

theorem evaluate_access_of_some (h : s.lookup? name = some v) :
    (access name span).evaluate context s = (.ok (v.tag span), s) := by
  rw [evaluate, h]

theorem evaluate_access_of_none (h : s.lookup? name = none) :
    (access name span).evaluate context s = (.error (.ofRuntime (.undefined name) span context), s) := by
  rw [evaluate, h]

theorem evaluate_unary_of_ok (op : Sign) (h : e.evaluate context s = (.ok v, s')) :
    (unary op e span).evaluate context s = (op.evaluate context v e.span span, s') := by
  rw [evaluate, h]

theorem evaluate_unary_of_error (op : Sign) (h : e.evaluate context s = (.error d, s')) :
    (unary op e span).evaluate context s = (.error d, s') := by
  rw [evaluate, h]

theorem evaluate_binary_of_ok (hl : left.evaluate context s = (.ok a, s'))
    (hr : right.evaluate context s' = (.ok b, s'')) :
    (binary left op right span).evaluate context s =
      (op.evaluate context a.number b.number right.span span, s'') := by
  simp only [evaluate, hl, hr]

theorem evaluate_binary_of_left_error (h : left.evaluate context s = (.error d, s')) :
    (binary left op right span).evaluate context s = (.error d, s') := by
  rw [evaluate, h]

theorem evaluate_binary_of_right_error (hl : left.evaluate context s = (.ok a, s'))
    (hr : right.evaluate context s' = (.error d, s'')) :
    (binary left op right span).evaluate context s = (.error d, s'') := by
  simp only [evaluate, hl, hr]

theorem evaluate_assign_of_ok (k : Keyword) (h : e.evaluate context s = (.ok v, s')) :
    (assign k name e span).evaluate context s = (.ok v, s'.assign name v) := by
  rw [evaluate, h]

theorem evaluate_assign_of_error (k : Keyword) (h : e.evaluate context s = (.error d, s')) :
    (assign k name e span).evaluate context s = (.error d, s') := by
  rw [evaluate, h]

end Rules

/-! ## The nodes with a value -/

/-- The nodes in the order of evaluation: the operands from left to right, and behind them what they are operands of. -/
def postorder : Expr → List Expr
  | e@(literal _ _) => [e]
  | e@(access _ _) => [e]
  | e@(unary _ operand _) => operand.postorder ++ [e]
  | e@(binary left _ right _) => left.postorder ++ right.postorder ++ [e]
  | e@(assign _ _ value _) => value.postorder ++ [e]

/-- The node with its value, if it has one. -/
def valued (e : Expr) : Outcome Value → List (Expr × Value)
  | .ok v => [(e, v)]
  | .error _ => []

/-- The nodes that get a value when the tree is evaluated in the scope, each with its value, in the order in which that
happens. The right operand of a node is evaluated if the left one has a value, in the scope that is left then. -/
def trace (context : Context) : Expr → Scope → List (Expr × Value)
  | e@(literal _ _), s => e.valued (e.evaluate context s).1
  | e@(access _ _), s => e.valued (e.evaluate context s).1
  | e@(unary _ operand _), s => operand.trace context s ++ e.valued (e.evaluate context s).1
  | e@(binary left _ right _), s =>
    let rightTrace :=
      match left.evaluate context s with
      | (.ok _, s') => right.trace context s'
      | (.error _, _) => []
    left.trace context s ++ rightTrace ++ e.valued (e.evaluate context s).1
  | e@(assign _ _ value _), s => value.trace context s ++ e.valued (e.evaluate context s).1

theorem trace_binary_of_ok {left right : Expr} {op : Op} {span : Span} {s s' : Scope} {a : Value}
    (h : left.evaluate context s = (.ok a, s')) :
    (binary left op right span).trace context s = left.trace context s ++ right.trace context s' ++
      (binary left op right span).valued ((binary left op right span).evaluate context s).1 := by
  rw [trace, h]

theorem trace_binary_of_error {left right : Expr} {op : Op} {span : Span} {s s' : Scope} {d : Diagnostic}
    (h : left.evaluate context s = (.error d, s')) :
    (binary left op right span).trace context s = left.trace context s := by
  rw [trace, h, evaluate_binary_of_left_error h, valued, List.append_nil, List.append_nil]

/-- How far an evaluation with the outcome `o` gets in the order `nodes`: to the end if and only if it has a value. -/
def Covers (nodes : List Expr) (done : List (Expr × Value)) (o : Outcome Value) : Prop :=
  ∃ rest, nodes = done.map Prod.fst ++ rest ∧ (rest = [] ↔ ∃ v, o = .ok v)

theorem covers_valued (e : Expr) (o : Outcome Value) : Covers [e] (e.valued o) o := by
  cases o with
  | ok v => exact ⟨[], rfl, by simp⟩
  | error d => exact ⟨[e], rfl, by simp⟩

theorem Covers.append_of_ok {nodes more : List Expr} {done done' : List (Expr × Value)} {v : Value}
    {o : Outcome Value} (h : Covers nodes done (.ok v)) (h' : Covers more done' o) :
    Covers (nodes ++ more) (done ++ done') o := by
  obtain ⟨rest, rfl, hrest⟩ := h
  obtain ⟨rest', rfl, hrest'⟩ := h'
  obtain rfl : rest = [] := hrest.mpr ⟨v, rfl⟩
  exact ⟨rest', by simp, hrest'⟩

theorem Covers.append_of_error {nodes : List Expr} {done : List (Expr × Value)} {d : Diagnostic}
    (h : Covers nodes done (.error d)) (more : List Expr) : Covers (nodes ++ more) done (.error d) := by
  obtain ⟨rest, rfl, hrest⟩ := h
  refine ⟨rest ++ more, by simp, ?_⟩
  have hne : rest ≠ [] := fun h => by simpa using hrest.mp h
  simp [hne]

/-- The nodes with a value are a beginning of the postorder, and all of it if and only if the tree has a value. -/
theorem covers_trace (e : Expr) (s : Scope) :
    Covers e.postorder (e.trace context s) (e.evaluate context s).1 := by
  induction e generalizing s with
  | literal n span => exact covers_valued _ _
  | access name span => exact covers_valued _ _
  | unary op operand span ih =>
    have ho := ih s
    rcases h : operand.evaluate context s with ⟨d | v, s'⟩ <;> rw [h] at ho
    · rw [trace, evaluate_unary_of_error op h, valued, List.append_nil]
      exact ho.append_of_error _
    · exact ho.append_of_ok (covers_valued _ _)
  | binary left op right span ihl ihr =>
    have hl := ihl s
    rcases h : left.evaluate context s with ⟨d | a, s'⟩ <;> rw [h] at hl
    · rw [trace_binary_of_error h, evaluate_binary_of_left_error h, postorder, List.append_assoc]
      exact hl.append_of_error _
    · have hr := ihr s'
      rcases h' : right.evaluate context s' with ⟨d | b, s''⟩ <;> rw [h'] at hr
      · rw [trace_binary_of_ok h, evaluate_binary_of_right_error h h', valued, List.append_nil]
        exact (hl.append_of_ok hr).append_of_error _
      · rw [trace_binary_of_ok h]
        exact (hl.append_of_ok hr).append_of_ok (covers_valued _ _)
  | assign k name value span ih =>
    have hv := ih s
    rcases h : value.evaluate context s with ⟨d | v, s'⟩ <;> rw [h] at hv
    · rw [trace, evaluate_assign_of_error k h, valued, List.append_nil]
      exact hv.append_of_error _
    · exact hv.append_of_ok (covers_valued _ _)

/-- A tree that has a value has gone through all its nodes. -/
theorem map_fst_trace_of_ok {e : Expr} {s : Scope} {v : Value} (h : (e.evaluate context s).1 = .ok v) :
    (e.trace context s).map Prod.fst = e.postorder := by
  have hcovers : Covers e.postorder (e.trace context s) (e.evaluate context s).1 := e.covers_trace s
  obtain ⟨rest, hrest, hiff⟩ := hcovers
  rw [hiff.mpr ⟨v, h⟩, List.append_nil] at hrest
  exact hrest.symm

/-! ## The scope afterwards -/

/-- The name that the node gives its value to, with the value, if it is a declaration. -/
def binding? : Expr × Value → Option (String × Value)
  | (assign _ name _ _, v) => some (name, v)
  | _ => none

/-- The assignments that are completed when the tree is evaluated in the scope: the name and the value of every
declaration whose right side gets a value, in the order in which that happens. -/
def assignments (context : Context) (e : Expr) (s : Scope) : List (String × Value) :=
  (e.trace context s).filterMap binding?

theorem filterMap_valued {e : Expr} (h : ∀ v, binding? (e, v) = none) (o : Outcome Value) :
    (e.valued o).filterMap binding? = [] := by
  cases o with
  | ok v => simp [valued, h]
  | error _ => rfl

/-- Evaluation makes the assignments that it completes, in their order, and changes nothing else. -/
theorem scope_evaluate (e : Expr) (s : Scope) :
    (e.evaluate context s).2 = s.assignAll (e.assignments context s) := by
  unfold assignments
  induction e generalizing s with
  | literal n span => rfl
  | access name span =>
    rw [trace, filterMap_valued fun _ => rfl, evaluate]
    cases s.lookup? name <;> rfl
  | unary op operand span ih =>
    rw [trace, List.filterMap_append, filterMap_valued fun _ => rfl, List.append_nil, ← ih, evaluate]
    rcases operand.evaluate context s with ⟨v | d, s'⟩ <;> rfl
  | binary left op right span ihl ihr =>
    rcases hl : left.evaluate context s with ⟨d | a, s'⟩
    · rw [evaluate_binary_of_left_error hl, trace_binary_of_error hl, ← ihl, hl]
    · rw [trace_binary_of_ok hl, List.filterMap_append, filterMap_valued fun _ => rfl, List.append_nil,
        List.filterMap_append, Scope.assignAll_append, ← ihl, hl, ← ihr]
      rcases hr : right.evaluate context s' with ⟨d | b, s''⟩
      · rw [evaluate_binary_of_right_error hl hr]
      · rw [evaluate_binary_of_ok hl hr]
  | assign k name value span ih =>
    rw [trace, List.filterMap_append, Scope.assignAll_append, ← ih, evaluate]
    rcases value.evaluate context s with ⟨d | v, s'⟩ <;> rfl

/-- The tables around the own one stay as they are. -/
theorem outer_evaluate (e : Expr) (s : Scope) : (e.evaluate context s).2.outer = s.outer := by
  rw [scope_evaluate, Scope.outer_assignAll]

end Expr

end Reckoner
