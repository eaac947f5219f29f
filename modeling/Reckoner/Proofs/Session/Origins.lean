import Reckoner.Proofs.Evaluation.Blame
import Reckoner.Proofs.Grammar.Placement
import Reckoner.Proofs.Session.Journal

/-!
# Where values come from

A value has the span of the expression it is the value of, whatever spans the values have that were read on the way. A
declaration passes a value on, so behind one, or a row of them, it is the span of what the innermost one assigns
(`Expr.origin`, `Expr.span_of_evaluate`).

The bindings of a session keep these spans. A session's `ledger` has the declarations that its runs completed, each with
the text that it stood in. The last one of a name made its binding, and the span of the value lies in that text
(`Session.span_of_globals_runAll`).
-/

namespace Reckoner

/-! ## The span of a value -/

section

variable {context : Context} {v w : Value} {right span : Span}

theorem Op.span_of_evaluate {op : Op} {a b : Number} (h : op.evaluate context a b right span = .ok v) :
    v.span = some span := by
  unfold evaluate at h
  split at h
  · cases h
    rfl
  · cases h
  · cases h

theorem Sign.span_of_evaluate {op : Sign} (h : op.evaluate context v right span = .ok w) : w.span = some span := by
  cases op with
  | plus =>
    cases h
    rfl
  | minus => exact Op.span_of_evaluate h

end

namespace Expr

/-- The expression that the value of the tree comes from: the tree itself or, of a declaration, what the innermost
declaration in a row assigns. -/
def origin : Expr → Expr
  | assign _ _ value _ => value.origin
  | e => e

theorem origin_mem_nodes (e : Expr) : e.origin ∈ e.nodes := by
  induction e with
  | literal n span | access name span | unary op operand span _ | binary left op right span _ _ =>
    exact mem_nodes_self _
  | assign k name value span ih => exact List.mem_cons_of_mem _ ih

theorem nodes_subset {e node : Expr} (h : node ∈ e.nodes) : node.nodes ⊆ e.nodes := by
  induction e with
  | literal n span | access name span =>
    cases List.mem_singleton.mp h
    exact List.Subset.refl _
  | unary op operand span ih | assign k name operand span ih =>
    rcases List.mem_cons.mp h with rfl | h
    · exact List.Subset.refl _
    · exact List.Subset.trans (ih h) (List.subset_cons_self _ _)
  | binary left op right span ihl ihr =>
    rcases List.mem_cons.mp h with rfl | h
    · exact List.Subset.refl _
    · refine List.Subset.trans ?_ (List.subset_cons_self _ _)
      rcases List.mem_append.mp h with h | h
      · exact List.Subset.trans (ihl h) (List.subset_append_left _ _)
      · exact List.Subset.trans (ihr h) (List.subset_append_right _ _)

/-- A value has the span of the expression that it comes from. -/
theorem span_of_evaluate {context : Context} {e : Expr} {s : Scope} {v : Value}
    (h : (e.evaluate context s).1 = .ok v) : v.span = some e.origin.span := by
  induction e generalizing s v with
  | literal n span =>
    cases h
    rfl
  | access name span =>
    cases hlookup : s.lookup? name with
    | none =>
      rw [evaluate_access_of_none hlookup] at h
      cases h
    | some w =>
      rw [evaluate_access_of_some hlookup] at h
      cases h
      rfl
  | unary op operand span ih =>
    rw [outcome_unary] at h
    obtain ⟨w, -, hv⟩ := Except.bind_eq_ok_iff.mp h
    exact Sign.span_of_evaluate hv
  | binary left op right span ihl ihr =>
    rw [outcome_binary] at h
    obtain ⟨a, -, h⟩ := Except.bind_eq_ok_iff.mp h
    obtain ⟨b, -, hv⟩ := Except.bind_eq_ok_iff.mp h
    exact Op.span_of_evaluate hv
  | assign k name value span ih =>
    rw [outcome_assign] at h
    exact ih h

/-- The nodes of the tree of a text cover some of it. -/
theorem covers_of_mem_nodes {source : Source} {tree node : Expr} (h : ofSource source = .ok tree)
    (hnode : node ∈ tree.nodes) : node.span.Covers source := by
  obtain ⟨ts, hscan, hread⟩ := Except.bind_eq_ok_iff.mp h
  obtain ⟨-, i, j, hspan, hij, hj⟩ := exists_byte_of_mem_nodes hscan hread node hnode
  rw [hspan]
  exact Source.covers_byte (Token.plain_of_scan hscan) hij hj

end Expr

/-! ## Completed declarations -/

/-- A declaration that the run of a text has completed. -/
structure Completion where
  source : Source
  name : String
  /-- The right side of the declaration. -/
  expr : Expr
  value : Value

namespace Completion

def binding (c : Completion) : String × Value :=
  (c.name, c.value)

theorem lookup_map_binding (cs : List Completion) (name : String) :
    (cs.map binding).lookup name = (cs.find? (·.name = name)).map value := by
  induction cs with
  | nil => rfl
  | cons c cs ih =>
    rw [List.map_cons, List.lookup_cons, List.find?_cons, ih]
    by_cases h : c.name = name
    · simp [binding, h]
    · have hne : (name == c.name) = false := beq_eq_false_iff_ne.mpr (Ne.symm h)
      simp [binding, h, hne]

end Completion

namespace Expr

/-- The node with its value as a completed declaration, if it is one. -/
def completion? (source : Source) : Expr × Value → Option Completion
  | (assign _ name expr _, value) => some { source, name, expr, value }
  | _ => none

theorem completion?_eq_some {source : Source} {b : Expr × Value} {c : Completion}
    (h : completion? source b = some c) :
    ∃ k span, b = (assign k c.name c.expr span, c.value) ∧ c.source = source := by
  obtain ⟨node, v⟩ := b
  cases node with
  | assign k name value span =>
    cases h
    exact ⟨k, span, rfl, rfl⟩
  | _ => cases h

theorem map_binding_completion? (source : Source) (b : Expr × Value) :
    (completion? source b).map Completion.binding = binding? b := by
  obtain ⟨node, v⟩ := b
  cases node <;> rfl

end Expr

namespace Session

/-- The declarations that the run of a text in the session completes, in the order of evaluation. -/
def ledger (s : Session) (source : Source) : List Completion :=
  match Expr.ofSource source with
  | .error _ => []
  | .ok tree =>
    (tree.trace (.root s.moduleName) { own := s.globals }).filterMap (Expr.completion? source)

/-- The declarations that the runs complete, run after run. -/
def ledgerAll (s : Session) : List Source → List Completion
  | [] => []
  | source :: sources => s.ledger source ++ (s.run source).2.ledgerAll sources

/-- The last declaration of the name that the runs complete. -/
def latest? (s : Session) (sources : List Source) (name : String) : Option Completion :=
  (s.ledgerAll sources).reverse.find? (·.name = name)

theorem map_binding_ledger (s : Session) (source : Source) :
    (s.ledger source).map Completion.binding = s.completed source := by
  unfold ledger completed
  cases Expr.ofSource source with
  | error d => rfl
  | ok tree => simp only [List.map_filterMap, Expr.map_binding_completion?, Expr.assignments]

theorem map_binding_ledgerAll (s : Session) (sources : List Source) :
    (s.ledgerAll sources).map Completion.binding = s.completedAll sources := by
  induction sources generalizing s with
  | nil => rfl
  | cons source sources ih => rw [ledgerAll, completedAll, List.map_append, map_binding_ledger, ih]

/-- A name is bound as it was declared last, or else as it was before the runs. -/
theorem getElem?_globals_runAll (s : Session) (sources : List Source) (name : String) :
    (s.runAll sources).globals[name]? = ((s.latest? sources name).map Completion.value).or s.globals[name]? := by
  rw [globals_runAll, Table.getElem?_insertMany, ← map_binding_ledgerAll, ← List.map_reverse,
    Completion.lookup_map_binding, latest?]

/-- What is in the ledger was completed by one of the runs, in the session that the runs before it left. -/
theorem exists_run_of_mem_ledgerAll {s : Session} {sources : List Source} {c : Completion}
    (h : c ∈ s.ledgerAll sources) : ∃ earlier source later, sources = earlier ++ source :: later ∧
      c ∈ (s.runAll earlier).ledger source := by
  induction sources generalizing s with
  | nil => cases h
  | cons source sources ih =>
    rcases List.mem_append.mp h with h | h
    · exact ⟨[], source, sources, rfl, h⟩
    · obtain ⟨earlier, source', later, rfl, hc⟩ := ih h
      exact ⟨source :: earlier, source', later, rfl, hc⟩

/-- The completed declaration stands in the text of the run, and its value has a span of that text. -/
theorem of_mem_ledger {s : Session} {source : Source} {c : Completion} (h : c ∈ s.ledger source) :
    c.source = source ∧ c.value.span = some c.expr.origin.span ∧ c.expr.origin.span.Covers source := by
  unfold ledger at h
  cases htree : Expr.ofSource source with
  | error d =>
    rw [htree] at h
    cases h
  | ok tree =>
    rw [htree] at h
    obtain ⟨b, hb, hc⟩ := List.mem_filterMap.mp h
    obtain ⟨k, span, rfl, hsource⟩ := Expr.completion?_eq_some hc
    obtain ⟨t, hreaches, hvalue⟩ := Expr.exists_reaches_of_mem_trace hb
    have horigin : c.expr.origin ∈ tree.nodes :=
      Expr.nodes_subset hreaches.mem_nodes (Expr.assign k c.name c.expr span).origin_mem_nodes
    have hspan : c.value.span = some (Expr.assign k c.name c.expr span).origin.span := Expr.span_of_evaluate hvalue
    exact ⟨hsource, hspan, Expr.covers_of_mem_nodes htree horigin⟩

/-! ## The bindings of a session -/

/-- The value `v` comes from the declaration `c`, which one of the runs completed: it has the span of what was assigned,
and this is a span of the text of that run that covers some of it. -/
structure ComesFrom (s : Session) (sources : List Source) (v : Value) (c : Completion) : Prop where
  value : v = c.value
  run : ∃ earlier later, sources = earlier ++ c.source :: later ∧ c ∈ (s.runAll earlier).ledger c.source
  span : v.span = some c.expr.origin.span
  source : c.expr.origin.span.start.source = c.source ∧ c.expr.origin.span.stop.source = c.source
  covers : c.expr.origin.span.Covers c.source

theorem comesFrom_of_latest? {s : Session} {sources : List Source} {name : String} {c : Completion}
    (h : s.latest? sources name = some c) : s.ComesFrom sources c.value c := by
  have hmem : c ∈ s.ledgerAll sources := List.mem_reverse.mp (List.mem_of_find?_eq_some h)
  obtain ⟨earlier, source, later, rfl, hc⟩ := exists_run_of_mem_ledgerAll hmem
  obtain ⟨rfl, hspan, hcovers⟩ := of_mem_ledger hc
  refine ⟨rfl, ⟨earlier, later, rfl, hc⟩, hspan, ?_, hcovers⟩
  obtain ⟨before, text, after, -, -, hstart, hstop, -⟩ := hcovers
  have hsource : c.expr.origin.span.start.source = c.source := by
    rw [hstart, Position.source_advanceAll]
    rfl
  exact ⟨hsource, by rw [hstop, Position.source_advanceAll, hsource]⟩

/-- **Values know their text.** The value of a tree has the span of the tree or, behind declarations, of what the
innermost one assigns, whatever the scope. In a session, whatever was run, a value that is bound has the span that its
last declaration gave it, in the text of the run that completed it; only the binding that every session begins with has
none, as long as its name is not declared. -/
theorem span_of_globals_runAll :
    (∀ (context : Context) (e : Expr) (s : Scope) (v : Value), (e.evaluate context s).1 = .ok v →
      v.span = some e.origin.span) ∧
    ∀ (moduleName : String) (sources : List Source) (name : String) (v : Value),
      let start : Session := { moduleName }
      (start.runAll sources).globals[name]? = some v →
        (start.latest? sources name = none ∧ name = "null" ∧ v = { number := .int 0 }) ∨
          ∃ c, start.latest? sources name = some c ∧ start.ComesFrom sources v c := by
  refine ⟨fun context e s v => Expr.span_of_evaluate, ?_⟩
  intro moduleName sources name v start h
  rw [getElem?_globals_runAll] at h
  cases hlatest : start.latest? sources name with
  | none =>
    rw [hlatest] at h
    have hinitial : Table.initial[name]? = some v := h
    have hname : name = "null" := Table.mem_initial.mp (Std.ExtTreeMap.mem_iff_isSome_getElem?.mpr (by simp [hinitial]))
    subst hname
    refine Or.inl ⟨rfl, rfl, ?_⟩
    simpa [Table.initial, eq_comm] using hinitial
  | some c =>
    rw [hlatest] at h
    cases h
    exact Or.inr ⟨c, rfl, comesFrom_of_latest? hlatest⟩

/-- A row of declarations, and a run that fails behind a declaration. -/
def chainedSources : List Source :=
  [⟨"first", "var a = var b = 1 + 1"⟩, ⟨"second", "(var a = b) / 0"⟩]

/-- The first run gave `b` its value and `a` the same one. The second run failed, but `a` is what it read there. -/
theorem span_of_globals_runAll_chained :
    let start : Session := { moduleName := "<module>" }
    let s := start.runAll chainedSources
    (∃ v c, s.globals["a"]? = some v ∧ start.ComesFrom chainedSources v c ∧
      c.source.name = "second" ∧ c.expr.origin.span.text = some "b") ∧
    ∃ v c, s.globals["b"]? = some v ∧ start.ComesFrom chainedSources v c ∧
      c.source.name = "first" ∧ c.expr.origin.span.text = some "1 + 1" := by
  intro start s
  have hlatest (name : String) (data : String × Option String) (hne : name ≠ "null")
      (hbound : s.globals[name]?.isSome = true)
      (hc : (start.latest? chainedSources name).map (fun c => (c.source.name, c.expr.origin.span.text)) = some data) :
      ∃ v c, s.globals[name]? = some v ∧ start.ComesFrom chainedSources v c ∧
        c.source.name = data.1 ∧ c.expr.origin.span.text = data.2 := by
    obtain ⟨v, hv⟩ := Option.isSome_iff_exists.mp hbound
    rcases span_of_globals_runAll.2 _ chainedSources name v hv with ⟨-, hnull, -⟩ | ⟨c, hlast, hfrom⟩
    · exact absurd hnull hne
    · rw [hlast] at hc
      cases hc
      exact ⟨v, c, hv, hfrom, rfl, rfl⟩
  refine ⟨?_, ?_⟩
  · exact hlatest "a" ("second", some "b") (by decide) (by decide +kernel) (by decide +kernel)
  · exact hlatest "b" ("first", some "1 + 1") (by decide) (by decide +kernel) (by decide +kernel)

end Session

end Reckoner
