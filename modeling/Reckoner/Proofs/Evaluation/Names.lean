import Reckoner.Proofs.Evaluation.Trace

/-!
# Names in an evaluation

A tree reads some names (`Expr.namesRead`) and declares some (`Expr.namesDeclared`).

* What an evaluation comes to, and what it assigns on the way, depends on the numbers that the names it reads are bound
  to, and on nothing else of the scope: not on other names, and not on where the values came from
  (`Expr.evaluate_congr`).
* It assigns names that the tree declares, in the order in which they are declared, as far as it gets
  (`Expr.map_fst_assignments_prefix`), so all other names are found as before (`Expr.lookup?_evaluate`).

For a table it is the last assignment of a name that counts (`Table.getElem?_insertMany`).
-/

namespace Reckoner

/-! ## Assignments in a table -/

namespace Table

variable {bindings more : List (String × Value)}

/-- The last assignment of a name decides. -/
theorem getElem?_insertMany (t : Table) (bindings : List (String × Value)) (name : String) :
    (t.insertMany bindings)[name]? = (bindings.reverse.lookup name).or t[name]? := by
  induction bindings generalizing t with
  | nil => rw [Std.ExtTreeMap.insertMany_nil]; rfl
  | cons b bindings ih =>
    rw [Std.ExtTreeMap.insertMany_cons, ih, List.reverse_cons, List.lookup_append, Option.or_assoc,
      Std.ExtTreeMap.getElem?_insert, List.lookup_cons, List.lookup_nil]
    by_cases h : b.1 = name
    · simp [h]
    · have hne : (name == b.1) = false := beq_eq_false_iff_ne.mpr (Ne.symm h)
      simp [h, hne]

/-- A name that is not assigned is not among the assignments. -/
theorem lookup_reverse_eq_none {name : String} (h : name ∉ bindings.map Prod.fst) :
    bindings.reverse.lookup name = none := by
  rw [List.lookup_eq_none_iff]
  intro b hb
  have hne : name ≠ b.1 := fun heq => h (heq ▸ List.mem_map_of_mem (List.mem_reverse.mp hb))
  simpa using hne

/-- Making the same assignments again changes nothing. -/
theorem insertMany_insertMany_self (t : Table) (bindings : List (String × Value)) :
    (t.insertMany bindings).insertMany bindings = t.insertMany bindings := by
  refine Std.ExtTreeMap.ext_getElem? fun name => ?_
  rw [getElem?_insertMany, getElem?_insertMany, ← Option.or_assoc, Option.or_self]

/-- The order of assignments to different names does not matter. -/
theorem insertMany_comm (t : Table) (h : ∀ name ∈ bindings.map Prod.fst, name ∉ more.map Prod.fst) :
    (t.insertMany bindings).insertMany more = (t.insertMany more).insertMany bindings := by
  refine Std.ExtTreeMap.ext_getElem? fun name => ?_
  simp only [getElem?_insertMany]
  by_cases hname : name ∈ bindings.map Prod.fst
  · rw [lookup_reverse_eq_none (h name hname), Option.none_or, Option.none_or]
  · rw [lookup_reverse_eq_none hname, Option.none_or, Option.none_or]

end Table

namespace Scope

theorem lookup?_assignAll_of_not_mem {bindings : List (String × Value)} {name : String} (s : Scope)
    (h : name ∉ bindings.map Prod.fst) : (s.assignAll bindings).lookup? name = s.lookup? name := by
  rw [lookup?, lookup?, outer_assignAll, own_assignAll, Table.lookup?, Table.lookup?, List.findSome?_cons,
    List.findSome?_cons, Table.getElem?_insertMany, Table.lookup_reverse_eq_none h, Option.none_or]

/-- Each of the names is bound to the same number in both scopes, or is unbound in both. -/
def AgreesOn (s s' : Scope) (names : List String) : Prop :=
  ∀ name ∈ names, (s.lookup? name).map Value.number = (s'.lookup? name).map Value.number

variable {s s' : Scope} {names names' : List String}

theorem AgreesOn.mono (h : s.AgreesOn s' names) (hsub : names' ⊆ names) : s.AgreesOn s' names' :=
  fun name hname => h name (hsub hname)

/-- Assignments that are made in both scopes keep them in agreement. -/
theorem AgreesOn.assignAll (h : s.AgreesOn s' names) (bindings : List (String × Value)) :
    (s.assignAll bindings).AgreesOn (s'.assignAll bindings) names := by
  induction bindings generalizing s s' with
  | nil => exact h
  | cons b bindings ih =>
    refine ih fun name hname => ?_
    rw [lookup?_assign, lookup?_assign]
    split
    · rfl
    · exact h name hname

end Scope

namespace Expr

variable {context : Context}

/-! ## The names of a tree -/

def readName? : Expr → Option String
  | access name _ => some name
  | _ => none

def declaredName? : Expr → Option String
  | assign _ name _ _ => some name
  | _ => none

/-- The names that are read anywhere in the tree, in the order of evaluation. -/
def namesRead (e : Expr) : List String :=
  e.postorder.filterMap readName?

/-- The names that are declared anywhere in the tree, in the order of evaluation. -/
def namesDeclared (e : Expr) : List String :=
  e.postorder.filterMap declaredName?

section

variable (left right operand : Expr) (op : Op) (sign : Sign) (k : Keyword) (name : String) (span : Span)

@[simp] theorem namesRead_access : (access name span).namesRead = [name] := rfl

@[simp] theorem namesRead_unary : (unary sign operand span).namesRead = operand.namesRead := by
  simp [namesRead, postorder, readName?]

@[simp] theorem namesRead_binary : (binary left op right span).namesRead = left.namesRead ++ right.namesRead := by
  simp [namesRead, postorder, readName?]

@[simp] theorem namesRead_assign : (assign k name operand span).namesRead = operand.namesRead := by
  simp [namesRead, postorder, readName?]

end

/-- The names that an evaluation assigns are those declared in the tree, up to where it ends. -/
theorem map_fst_assignments_prefix (context : Context) (e : Expr) (s : Scope) :
    (e.assignments context s).map Prod.fst <+: e.namesDeclared := by
  have hcovers : Covers e.postorder (e.trace context s) (e.evaluate context s).1 := e.covers_trace s
  obtain ⟨rest, hrest, -⟩ := hcovers
  have hnames : (e.assignments context s).map Prod.fst =
      ((e.trace context s).map Prod.fst).filterMap declaredName? := by
    rw [assignments, List.map_filterMap, List.filterMap_map]
    congr 1
    funext ⟨node, v⟩
    cases node <;> rfl
  rw [hnames, namesDeclared, hrest, List.filterMap_append]
  exact List.prefix_append _ _

theorem mem_namesDeclared_of_assigned {e : Expr} {s : Scope} {name : String}
    (h : name ∈ (e.assignments context s).map Prod.fst) : name ∈ e.namesDeclared :=
  (e.map_fst_assignments_prefix context s).subset h

/-- A name that the tree does not declare is found afterwards as before. -/
theorem lookup?_evaluate {e : Expr} {name : String} (h : name ∉ e.namesDeclared) (s : Scope) :
    (e.evaluate context s).2.lookup? name = s.lookup? name := by
  rw [scope_evaluate]
  exact s.lookup?_assignAll_of_not_mem fun hname => h (mem_namesDeclared_of_assigned hname)

/-! ## The outcome of a node from those of its operands -/

theorem outcome_access (name : String) (span : Span) (s : Scope) :
    ((access name span).evaluate context s).1 =
      ((s.lookup? name).map Value.number).elim (.error (.ofRuntime (.undefined name) span context)) fun n =>
        .ok ⟨n, some span⟩ := by
  rw [evaluate]
  cases s.lookup? name <;> rfl

theorem outcome_unary (op : Sign) (operand : Expr) (span : Span) (s : Scope) :
    ((unary op operand span).evaluate context s).1 =
      (operand.evaluate context s).1.bind fun v => op.evaluate context v operand.span span := by
  rw [evaluate]
  rcases operand.evaluate context s with ⟨d | v, s'⟩ <;> rfl

theorem outcome_binary (left : Expr) (op : Op) (right : Expr) (span : Span) (s : Scope) :
    ((binary left op right span).evaluate context s).1 =
      (left.evaluate context s).1.bind fun a =>
        (right.evaluate context (left.evaluate context s).2).1.bind fun b =>
          op.evaluate context a.number b.number right.span span := by
  rw [evaluate]
  rcases left.evaluate context s with ⟨d | a, s'⟩
  · rfl
  · dsimp only [Except.bind]
    rcases right.evaluate context s' with ⟨d | b, s''⟩ <;> rfl

theorem outcome_assign (k : Keyword) (name : String) (value : Expr) (span : Span) (s : Scope) :
    ((assign k name value span).evaluate context s).1 = (value.evaluate context s).1 := by
  rw [evaluate]
  rcases value.evaluate context s with ⟨d | v, s'⟩ <;> rfl

/-! ## What an evaluation depends on -/

/-- **An evaluation depends on the names that are read**, and on them by their numbers: where these are the same, the
outcome is the same, and the same nodes get the same values on the way. -/
theorem evaluate_congr {e : Expr} {s s' : Scope} (h : s.AgreesOn s' e.namesRead) :
    (e.evaluate context s).1 = (e.evaluate context s').1 ∧ e.trace context s = e.trace context s' := by
  induction e generalizing s s' with
  | literal n span => exact ⟨rfl, rfl⟩
  | access name span =>
    have hname : (s.lookup? name).map Value.number = (s'.lookup? name).map Value.number := h name (by simp)
    have houtcome : ((access name span).evaluate context s).1 = ((access name span).evaluate context s').1 := by
      rw [outcome_access, outcome_access, hname]
    exact ⟨houtcome, congrArg (valued _) houtcome⟩
  | unary op operand span ih =>
    rw [namesRead_unary] at h
    obtain ⟨ho, htrace⟩ := ih h
    have houtcome :
        ((unary op operand span).evaluate context s).1 = ((unary op operand span).evaluate context s').1 := by
      rw [outcome_unary, outcome_unary, ho]
    exact ⟨houtcome, by rw [trace, trace, htrace, houtcome]⟩
  | binary left op right span ihl ihr =>
    rw [namesRead_binary] at h
    obtain ⟨hl, hltrace⟩ := ihl (h.mono (List.subset_append_left _ _))
    -- both evaluations of the left operand make the same assignments, so the right one starts in agreement too
    have hmiddle : (left.evaluate context s).2.AgreesOn (left.evaluate context s').2 right.namesRead := by
      rw [scope_evaluate, scope_evaluate, assignments, assignments, hltrace]
      exact (h.mono (List.subset_append_right _ _)).assignAll _
    obtain ⟨hr, hrtrace⟩ := ihr hmiddle
    have houtcome : ((binary left op right span).evaluate context s).1 =
        ((binary left op right span).evaluate context s').1 := by
      rw [outcome_binary, outcome_binary, hl, hr]
    refine ⟨houtcome, ?_⟩
    rcases hleft : left.evaluate context s with ⟨d | a, t⟩ <;>
      rcases hleft' : left.evaluate context s' with ⟨d' | a', t'⟩ <;> rw [hleft, hleft'] at hl hrtrace
    · rw [trace_binary_of_error hleft, trace_binary_of_error hleft', hltrace]
    · cases hl
    · cases hl
    · rw [trace_binary_of_ok hleft, trace_binary_of_ok hleft', hltrace, hrtrace, houtcome]
  | assign k name value span ih =>
    rw [namesRead_assign] at h
    obtain ⟨hv, htrace⟩ := ih h
    have houtcome : ((assign k name value span).evaluate context s).1 =
        ((assign k name value span).evaluate context s').1 := by
      rw [outcome_assign, outcome_assign, hv]
    exact ⟨houtcome, by rw [trace, trace, htrace, houtcome]⟩

/-- The same assignments are made where the names that are read are bound to the same numbers. -/
theorem assignments_congr {e : Expr} {s s' : Scope} (h : s.AgreesOn s' e.namesRead) :
    e.assignments context s = e.assignments context s' := by
  rw [assignments, assignments, (evaluate_congr h).2]

end Expr

end Reckoner
