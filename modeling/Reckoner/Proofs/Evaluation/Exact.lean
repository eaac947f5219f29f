import Mathlib.Logic.Function.Basic
import Reckoner.Proofs.Evaluation.Trace

/-!
# Integer expressions are exact

The reference for a tree of integers is a walk through its nodes in postorder over unbounded integers (`visits`). A
name has the value that was assigned to it last in the walk, and the walk ends at a name that has none. Evaluation
has the value that the walk comes to as long as all results fit into 64 bits, and else the problem of the first node
where that fails (`evaluate_exact`). The induction is on the tree, for whatever nodes and results stand around it
(`agrees_evaluate`).
-/

namespace Reckoner

/-- The integers that names are bound to. -/
abbrev Bindings := String → Option Int

/-- A number that has a place in 64 bits. -/
def Fits (n : Int) : Prop :=
  Int64.minValue.toInt ≤ n ∧ n ≤ Int64.maxValue.toInt

instance (n : Int) : Decidable (Fits n) :=
  inferInstanceAs (Decidable (_ ∧ _))

/-- The operation on unbounded integers, for the operators that stay among them. -/
def Op.onIntegers? : Op → Option (Int → Int → Int)
  | add => some (· + ·)
  | sub => some (· - ·)
  | mul => some (· * ·)
  | div | pow => none

def Sign.onIntegers : Sign → Int → Int
  | plus, n => n
  | minus, n => -n

namespace Expr

/-- The trees of integer literals, names, declarations, signs and `+ - *`. -/
inductive Integral : Expr → Prop
  | literal (n : Int64) (span : Span) : Integral (literal (.int n) span)
  | access (name : String) (span : Span) : Integral (access name span)
  | unary {operand : Expr} (op : Sign) (span : Span) : Integral operand → Integral (unary op operand span)
  | binary {left right : Expr} {op : Op} (span : Span) :
      Integral left → op.onIntegers?.isSome → Integral right → Integral (binary left op right span)
  | assign {value : Expr} (k : Keyword) (name : String) (span : Span) :
      Integral value → Integral (assign k name value span)

/-! ## The exact walk -/

/-- The exact result of a node, which takes those of its operands from the stack, where the last one lies on top. -/
def result? (env : Bindings) : Expr → List Int → Option Int
  | literal (.int n) _, _ => some n.toInt
  | access name _, _ => env name
  | unary op _ _, a :: _ => some (op.onIntegers a)
  | binary _ op _ _, b :: a :: _ => op.onIntegers?.map (· a b)
  | assign _ _ _ _, a :: _ => some a
  | _, _ => none

/-- The operands of a node. -/
def arity : Expr → Nat
  | literal _ _ | access _ _ => 0
  | unary _ _ _ | assign _ _ _ _ => 1
  | binary _ _ _ _ => 2

/-- The bindings behind a node with the result `n`. -/
def bind (n : Int) : Expr → Bindings → Bindings
  | assign _ name _ _, env => Function.update env name (some n)
  | _, env => env

end Expr

/-- A node that was visited, with its exact result. An access to a name without a binding has none. -/
structure Visit where
  node : Expr
  result : Option Int

namespace Visit

def Fits : Visit → Prop
  | ⟨_, some n⟩ => Reckoner.Fits n
  | ⟨_, none⟩ => False

instance : DecidablePred Fits
  | ⟨_, some n⟩ => inferInstanceAs (Decidable (Reckoner.Fits n))
  | ⟨_, none⟩ => inferInstanceAs (Decidable False)

/-- The problem of a visit: a name that is not bound, or an operation whose result does not fit. -/
inductive Offends (context : Context) : Visit → Diagnostic → Prop
  | access (name : String) (span : Span) :
      Offends context ⟨.access name span, none⟩ (.ofRuntime (.undefined name) span context)
  | unary {n : Int} (op : Sign) (operand : Expr) (span : Span) : ¬ Reckoner.Fits n →
      Offends context ⟨.unary op operand span, some n⟩ (.ofRuntime (.arithmetic .overflow) span context)
  | binary {n : Int} (left : Expr) (op : Op) (right : Expr) (span : Span) : ¬ Reckoner.Fits n →
      Offends context ⟨.binary left op right span, some n⟩ (.ofRuntime (.arithmetic .overflow) span context)

theorem Offends.not_fits {context : Context} {v : Visit} {d : Diagnostic} (h : v.Offends context d) : ¬ v.Fits := by
  cases h with
  | access _ _ => exact not_false
  | unary _ _ _ hoff | binary _ _ _ _ hoff => exact hoff

end Visit

/-- The walk through the nodes, where `stack` holds the results that no node has taken yet. It ends at an access to a
name without a binding. -/
def visits : List Expr → List Int → Bindings → List Visit
  | [], _, _ => []
  | node :: nodes, stack, env =>
    match node.result? env stack with
    | some n => ⟨node, some n⟩ :: visits nodes (n :: stack.drop node.arity) (node.bind n env)
    | none => [⟨node, none⟩]

section Steps

variable {node : Expr} {nodes : List Expr} {stack : List Int} {env : Bindings} {n : Int}

theorem visits_cons_of_some (h : node.result? env stack = some n) :
    visits (node :: nodes) stack env =
      ⟨node, some n⟩ :: visits nodes (n :: stack.drop node.arity) (node.bind n env) := by
  rw [visits, h]

theorem visits_cons_of_none (h : node.result? env stack = none) :
    visits (node :: nodes) stack env = [⟨node, none⟩] := by
  rw [visits, h]

end Steps

/-! ## Machine integers -/

theorem fits_toInt (n : Int64) : Fits n.toInt :=
  ⟨Int64.minValue_le_toInt n, Int64.toInt_le n⟩

/-- An integer that fits is the number itself. -/
theorem Number.ofInt_of_fits {n : Int} (h : Fits n) : ∃ m : Int64, Number.ofInt n = .ok (.int m) ∧ m.toInt = n :=
  ⟨Int64.ofInt n, if_pos h, Int64.toInt_ofInt_of_le h.1 (Int.lt_of_le_of_lt h.2 (by decide))⟩

theorem Number.ofInt_of_not_fits {n : Int} (h : ¬ Fits n) : Number.ofInt n = .error .overflow :=
  if_neg h

namespace Op

variable {op : Op} {f : Int → Int → Int}

theorem apply_int (h : op.onIntegers? = some f) (a b : Int64) :
    op.apply (.int a) (.int b) = Number.ofInt (f a.toInt b.toInt) := by
  cases op <;> cases h <;> rfl

/-- The outcome of an operation at `span` whose exact result is `n`. -/
inductive Computes (context : Context) (n : Int) (span : Span) : Outcome Value → Prop
  | value (m : Int64) : m.toInt = n → Computes context n span (.ok ⟨.int m, some span⟩)
  | overflow : ¬ Fits n → Computes context n span (.error (.ofRuntime (.arithmetic .overflow) span context))

theorem computes_evaluate (context : Context) (h : op.onIntegers? = some f) (a b : Int64) (right span : Span) :
    Computes context (f a.toInt b.toInt) span (op.evaluate context (.int a) (.int b) right span) := by
  unfold Op.evaluate
  rw [apply_int h]
  by_cases hfits : Fits (f a.toInt b.toInt)
  · obtain ⟨m, hm, hn⟩ := Number.ofInt_of_fits hfits
    rw [hm]
    exact .value m hn
  · rw [Number.ofInt_of_not_fits hfits]
    exact .overflow hfits

end Op

theorem Sign.computes_evaluate (context : Context) (op : Sign) (n : Int64) (span? : Option Span)
    (operand span : Span) :
    Op.Computes context (op.onIntegers n.toInt) span (op.evaluate context ⟨.int n, span?⟩ operand span) := by
  cases op with
  | plus => exact .value n rfl
  | minus =>
    have hmul : Op.mul.onIntegers? = some (· * ·) := rfl
    have h := Op.computes_evaluate context hmul n (-1) operand span
    have hneg : n.toInt * (-1 : Int64).toInt = Sign.onIntegers .minus n.toInt := Int.mul_neg_one _
    rwa [hneg] at h

namespace Scope

/-- The integers that the names are bound to which are visible in the scope. -/
def integers (s : Scope) : Bindings :=
  fun name => match s.lookup? name with
    | some ⟨.int n, _⟩ => some n.toInt
    | _ => none

/-- All that is visible in the scope are integers. -/
def Integral (s : Scope) : Prop :=
  ∀ name v, s.lookup? name = some v → ∃ n, v.number = .int n

theorem Integral.assign {s : Scope} (h : s.Integral) (name : String) (n : Int64) (span? : Option Span) :
    (s.assign name ⟨.int n, span?⟩).Integral := by
  intro name' v hv
  rw [lookup?_assign] at hv
  split at hv
  · cases hv
    exact ⟨n, rfl⟩
  · exact h name' v hv

theorem integers_assign (s : Scope) (name : String) (n : Int64) (span? : Option Span) :
    (s.assign name ⟨.int n, span?⟩).integers = Function.update s.integers name (some n.toInt) := by
  funext name'
  by_cases h : name = name'
  · simp [integers, h]
  · simp [integers, h, Function.update_of_ne (Ne.symm h)]

end Scope

namespace Expr

/-! ## The evaluation and the walk -/

variable {context : Context}

/-- What an evaluation of `e` that began in `s` comes to is what the walk comes to. If there is a value, the walk goes
through all nodes of `e` with results that fit, and on from there; else it comes to a visit whose problem is that of the
evaluation. -/
def Agrees (context : Context) (e : Expr) (s : Scope) : Outcome Value × Scope → Prop
  | (.ok v, s') => ∃ n done, v.number = .int n ∧ s'.Integral ∧ (∀ visit ∈ done, visit.Fits) ∧
      done.getLast? = some ⟨e, some n.toInt⟩ ∧
      ∀ nodes stack, visits (e.postorder ++ nodes) stack s.integers =
        done ++ visits nodes (n.toInt :: stack) s'.integers
  | (.error d, _) => ∃ visit done, visit.Offends context d ∧ (∀ visit ∈ done, visit.Fits) ∧
      ∀ nodes stack, ∃ more, visits (e.postorder ++ nodes) stack s.integers = done ++ visit :: more

section

variable {e operand : Expr} {s s' : Scope} {done : List Visit}

/-- A node that has its exact result from operands whose results fit. -/
theorem agrees_of_computes {n : Int} {o : Outcome Value} (hs' : s'.Integral) (hdone : ∀ visit ∈ done, visit.Fits)
    (hoff : ¬ Fits n → Visit.Offends context ⟨e, some n⟩ (.ofRuntime (.arithmetic .overflow) e.span context))
    (hwalk : ∀ nodes stack, visits (e.postorder ++ nodes) stack s.integers =
      done ++ ⟨e, some n⟩ :: visits nodes (n :: stack) s'.integers)
    (ho : Op.Computes context n e.span o) : Agrees context e s (o, s') := by
  cases ho with
  | value m hm =>
    subst hm
    refine ⟨m, done ++ [⟨e, some m.toInt⟩], rfl, hs', ?_, by simp, by simpa using hwalk⟩
    exact List.forall_mem_append.mpr ⟨hdone, List.forall_mem_singleton.mpr (fits_toInt m)⟩
  | overflow hn =>
    exact ⟨⟨e, some n⟩, done, hoff hn, hdone, fun nodes stack => ⟨_, hwalk nodes stack⟩⟩

/-- A node whose operand has a problem. In front of the operand, `done` was visited. -/
theorem Agrees.of_operand {s₀ : Scope} {d : Diagnostic} (done : List Visit) (more : List Expr)
    (below : List Int → List Int) (h : Agrees context operand s (.error d, s')) (hdone : ∀ visit ∈ done, visit.Fits)
    (hwalk : ∀ nodes stack, visits (e.postorder ++ nodes) stack s₀.integers =
      done ++ visits (operand.postorder ++ (more ++ nodes)) (below stack) s.integers) :
    Agrees context e s₀ (.error d, s') := by
  obtain ⟨visit, done', hoff, hdone', hwalk'⟩ := h
  refine ⟨visit, done ++ done', hoff, List.forall_mem_append.mpr ⟨hdone, hdone'⟩, ?_⟩
  intro nodes stack
  obtain ⟨rest, hrest⟩ := hwalk' (more ++ nodes) (below stack)
  exact ⟨rest, by rw [hwalk, hrest, List.append_assoc]⟩

end

/-- Evaluation and walk agree on every tree of integers, whatever stands around it. -/
theorem agrees_evaluate {e : Expr} (he : e.Integral) {s : Scope} (hs : s.Integral) :
    Agrees context e s (e.evaluate context s) := by
  induction he generalizing s with
  | literal n span =>
    exact ⟨n, [⟨literal (.int n) span, some n.toInt⟩], rfl, hs, List.forall_mem_singleton.mpr (fits_toInt n), rfl,
      fun nodes stack => visits_cons_of_some rfl⟩
  | access name span =>
    cases h : s.lookup? name with
    | some v =>
      rw [evaluate_access_of_some h]
      obtain ⟨n, hn⟩ := hs name v h
      have hbound : s.integers name = some n.toInt := by
        rcases v with ⟨m, span?⟩
        cases hn
        simp [Scope.integers, h]
      exact ⟨n, [⟨access name span, some n.toInt⟩], hn, hs, List.forall_mem_singleton.mpr (fits_toInt n), rfl,
        fun nodes stack => visits_cons_of_some hbound⟩
    | none =>
      rw [evaluate_access_of_none h]
      have hunbound : s.integers name = none := by simp [Scope.integers, h]
      exact ⟨_, [], .access name span, by simp, fun nodes stack => ⟨[], visits_cons_of_none hunbound⟩⟩
  | @unary operand op span _ ih =>
    have ho := ih hs
    rcases h : operand.evaluate context s with ⟨d | v, s'⟩ <;> rw [h] at ho
    · rw [evaluate_unary_of_error op h]
      exact ho.of_operand [] [unary op operand span] id (by simp) (by simp [postorder])
    · obtain ⟨n, done, hn, hs', hdone, _, hwalk⟩ := ho
      rcases v with ⟨_, span?⟩
      cases hn
      rw [evaluate_unary_of_ok op h]
      refine agrees_of_computes hs' hdone (.unary op operand span) ?_
        (op.computes_evaluate context n span? operand.span span)
      intro nodes stack
      rw [postorder, List.append_assoc, hwalk, List.singleton_append, visits_cons_of_some rfl]
      rfl
  | @binary left right op span _ hop _ ihl ihr =>
    obtain ⟨f, hf⟩ := Option.isSome_iff_exists.mp hop
    have hl := ihl hs
    rcases h : left.evaluate context s with ⟨d | a, s'⟩ <;> rw [h] at hl
    · rw [evaluate_binary_of_left_error h]
      exact hl.of_operand [] (right.postorder ++ [binary left op right span]) id (by simp)
        (by simp [postorder])
    · obtain ⟨m, done, hm, hs', hdone, _, hwalk⟩ := hl
      have hr := ihr hs'
      rcases h' : right.evaluate context s' with ⟨d | b, s''⟩ <;> rw [h'] at hr
      · rw [evaluate_binary_of_right_error h h']
        exact hr.of_operand done [binary left op right span] (m.toInt :: ·) hdone (by simp [postorder, hwalk])
      · obtain ⟨n, done', hn, hs'', hdone', _, hwalk'⟩ := hr
        rw [evaluate_binary_of_ok h h', hm, hn]
        refine agrees_of_computes hs'' (List.forall_mem_append.mpr ⟨hdone, hdone'⟩) (.binary left op right span) ?_
          (op.computes_evaluate context hf m n right.span span)
        intro nodes stack
        have hexact : (binary left op right span).result? s''.integers (n.toInt :: m.toInt :: stack) =
            some (f m.toInt n.toInt) := by
          simp [result?, hf]
        simp only [postorder, List.append_assoc, hwalk, hwalk', List.singleton_append, visits_cons_of_some hexact]
        rfl
  | @assign value k name span _ ih =>
    have hv := ih hs
    rcases h : value.evaluate context s with ⟨d | v, s'⟩ <;> rw [h] at hv
    · rw [evaluate_assign_of_error k h]
      exact hv.of_operand [] [assign k name value span] id (by simp) (by simp [postorder])
    · obtain ⟨n, done, hn, hs', hdone, _, hwalk⟩ := hv
      rcases v with ⟨_, span?⟩
      cases hn
      rw [evaluate_assign_of_ok k h]
      refine ⟨n, done ++ [⟨assign k name value span, some n.toInt⟩], rfl, hs'.assign name n span?, ?_, by simp, ?_⟩
      · exact List.forall_mem_append.mpr ⟨hdone, List.forall_mem_singleton.mpr (fits_toInt n)⟩
      · intro nodes stack
        rw [postorder, List.append_assoc, hwalk, List.singleton_append, visits_cons_of_some rfl,
          Scope.integers_assign]
        simp [arity, bind]

/-- **Integer expressions are exact.** A tree of integers has a value, when all that is visible are integers, if and
only if each name is bound at the time and each exact result fits, and then it is the exact result; else its problem is
that of the first visit in postorder where this fails, at the node visited. -/
theorem evaluate_exact (context : Context) {e : Expr} (he : e.Integral) {s : Scope} (hs : s.Integral) :
    let walk := visits e.postorder [] s.integers
    ((∃ v, (e.evaluate context s).1 = .ok v) ↔ ∀ visit ∈ walk, visit.Fits) ∧
    (∀ v, (e.evaluate context s).1 = .ok v →
      ∃ n : Int64, v.number = .int n ∧ walk.getLast? = some ⟨e, some n.toInt⟩) ∧
    ∀ visit, walk.find? (¬ ·.Fits) = some visit →
      ∃ d, visit.Offends context d ∧ (e.evaluate context s).1 = .error d := by
  have h : Agrees context e s (e.evaluate context s) := agrees_evaluate he hs
  rcases heval : e.evaluate context s with ⟨d | v, s'⟩ <;> rw [heval] at h
  · obtain ⟨visit, done, hoff, hdone, hwalk⟩ := h
    obtain ⟨rest, hrest⟩ := hwalk [] []
    rw [List.append_nil] at hrest
    have hfind : (done ++ visit :: rest).find? (¬ ·.Fits) = some visit := by
      rw [List.find?_eq_some_iff_append]
      exact ⟨by simpa using hoff.not_fits, done, rest, rfl, by simpa using hdone⟩
    refine ⟨?_, by simp, ?_⟩
    · simp only [reduceCtorEq, exists_false, hrest, false_iff]
      exact fun hall => hoff.not_fits (hall visit (by simp))
    · intro visit' hvisit'
      rw [hrest, hfind] at hvisit'
      cases hvisit'
      exact ⟨d, hoff, rfl⟩
  · obtain ⟨n, done, hn, _, hdone, hlast, hwalk⟩ := h
    have hwhole : visits e.postorder [] s.integers = done := by
      simpa [visits] using hwalk [] []
    refine ⟨?_, ?_, ?_⟩
    · rw [hwhole]
      exact ⟨fun _ => hdone, fun _ => ⟨v, rfl⟩⟩
    · intro v' hv'
      cases hv'
      exact ⟨n, hn, by rw [hwhole, hlast]⟩
    · intro visit hvisit
      rw [hwhole] at hvisit
      have hmem := List.mem_of_find?_eq_some hvisit
      have hfalse := List.find?_some hvisit
      exact absurd (hdone visit hmem) (by simpa using hfalse)

/-- The tree of `(var x = n) + -x`. -/
def sampleSum (n : Int64) : Expr :=
  binary (assign .varKeyword "x" (literal (.int n) (column 0)) (column 1)) .add
    (unary .minus (access "x" (column 2)) (column 3)) (column 4)

/-- The sum of the least integer and its negative is no integer, as the negative is none. -/
theorem evaluate_exact_negated_minimum :
    (sampleSum Int64.minValue).Integral ∧ Scope.Integral { own := Table.initial } ∧
    ((sampleSum Int64.minValue).evaluate (.root "<module>") { own := Table.initial }).1 =
      .error (.ofRuntime (.arithmetic .overflow) (column 3) (.root "<module>")) := by
  have he : (sampleSum Int64.minValue).Integral :=
    .binary _ (.assign _ _ _ (.literal _ _)) rfl (.unary _ _ (.access _ _))
  have hempty : Scope.Integral { own := ∅ } := by
    intro name v hv
    simp [Scope.lookup?, Table.lookup?] at hv
  have hs : Scope.Integral { own := Table.initial } := hempty.assign "null" 0 none
  refine ⟨he, hs, ?_⟩
  have hfirst : (visits (sampleSum Int64.minValue).postorder [] (Scope.integers { own := Table.initial })).find?
      (¬ ·.Fits) = some ⟨unary .minus (access "x" (column 2)) (column 3), some (2 ^ 63)⟩ := rfl
  obtain ⟨d, hoff, hd⟩ := (evaluate_exact (.root "<module>") he hs).2.2 _ hfirst
  rw [hd]
  cases hoff
  rfl

end Expr

end Reckoner
