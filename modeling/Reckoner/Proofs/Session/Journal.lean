import Mathlib.Data.Finset.Dedup
import Mathlib.Data.Finset.Card
import Reckoner.Proofs.Evaluation.Trace
import Reckoner.Session

/-!
# What the runs of a session leave behind

A run changes the table of its session by the assignments that it completes, and by nothing else (`globals_run`); so
the table of a session is the initial one with the assignments that all runs completed, in their order
(`globals_runAll`). The log has a record for each of them (`filter_events_run`).
-/

namespace Reckoner

/-- The names of a table are counted once each. -/
theorem Table.size_eq_card {t : Table} {names : Finset String} (h : ∀ name, name ∈ t ↔ name ∈ names) :
    t.size = names.card := by
  have hkeys : t.keys.toFinset = names := by
    ext name
    rw [List.mem_toFinset, Std.ExtTreeMap.mem_keys, h]
  rw [← hkeys, List.toFinset_card_of_nodup Std.ExtTreeMap.nodup_keys, Std.ExtTreeMap.length_keys]

theorem Table.mem_insertMany {t : Table} {bindings : List (String × Value)} {name : String} :
    name ∈ t.insertMany bindings ↔ name ∈ t ∨ name ∈ bindings.map Prod.fst := by
  rw [Std.ExtTreeMap.mem_insertMany_list, List.contains_iff_mem]

theorem Table.mem_initial {name : String} : name ∈ initial ↔ name = "null" := by
  simp only [initial, Std.ExtTreeMap.mem_insert, Std.compare_eq_iff_eq, Std.ExtTreeMap.not_mem_empty, or_false]
  exact eq_comm

theorem Expr.ofSource_of_scan {source : Source} {ts : List Token} (h : Token.scan source = .ok ts) :
    ofSource source = ofTokens ts := by
  unfold ofSource
  rw [h]
  rfl

section

variable (context : Context) (own : Table) (outer : List Table) {source : Source}

/-- The run of a text that holds no expression ends with that, leaves the table as it is, and logs no assignment. -/
theorem run_of_ofSource_eq_error {d : Diagnostic} (h : Expr.ofSource source = .error d) :
    let r := run context own outer source
    r.outcome = .error d ∧ r.table = own ∧ r.events.filter (·.level = .trace) = [] := by
  unfold Expr.ofSource at h
  unfold run
  rcases hscan : Token.scan source with d' | tokens <;> rw [hscan] at h
  · cases h
    exact ⟨rfl, rfl, rfl⟩
  · replace h : Expr.ofTokens tokens = .error d := h
    simp [h, Event.level]

/-- The run of a text that holds an expression ends with the outcome and the scope that its evaluation comes to, and
logs the assignments made in the scope. -/
theorem run_of_ofSource_eq_ok {tree : Expr} (h : Expr.ofSource source = .ok tree) :
    let r := run context own outer source
    let evaluated := tree.evaluate context { own, outer }
    r.outcome = evaluated.1 ∧ r.table = evaluated.2.own ∧
      r.events.filter (·.level = .trace) = evaluated.2.journal.map fun b => .assigned context.name b.1 b.2 := by
  unfold Expr.ofSource at h
  unfold run
  rcases hscan : Token.scan source with d' | tokens <;> rw [hscan] at h
  · cases h
  · replace h : Expr.ofTokens tokens = .ok tree := h
    simp [h, Event.level, List.filter_map, Function.comp_def]

/-- A run that comes to a diagnostic has it from one of the three stages. -/
theorem run_eq_error {d : Diagnostic} (h : (run context own outer source).outcome = .error d) :
    Token.scan source = .error d ∨ ∃ ts, Token.scan source = .ok ts ∧ (Expr.ofTokens ts = .error d ∨
      ∃ tree, Expr.ofTokens ts = .ok tree ∧ (tree.evaluate context { own, outer }).1 = .error d) := by
  unfold run at h
  rcases hscan : Token.scan source with d' | ts <;> rw [hscan] at h
  · cases h
    exact Or.inl rfl
  · refine Or.inr ⟨ts, rfl, ?_⟩
    rcases hread : Expr.ofTokens ts with d' | tree <;> simp only [hread] at h
    · cases h
      exact Or.inl rfl
    · exact Or.inr ⟨tree, rfl, h⟩

end

namespace Session

/-- The assignments that the run of a text in the session completes. A text that holds no expression completes none. -/
def completed (s : Session) (source : Source) : List (String × Value) :=
  match Expr.ofSource source with
  | .error _ => []
  | .ok tree => tree.assignments (.root s.moduleName) { own := s.globals }

/-- The session after the texts were run in it, one after the other. -/
def runAll (s : Session) (sources : List Source) : Session :=
  sources.foldl (fun s source => (s.run source).2) s

/-- The assignments that the runs complete, run after run. -/
def completedAll (s : Session) : List Source → List (String × Value)
  | [] => []
  | source :: sources => s.completed source ++ (s.run source).2.completedAll sources

/-! ## One run -/

/-- The run of a text that holds no expression leaves the session as it is, and logs no assignment. -/
theorem run_of_error {s : Session} {source : Source} {d : Diagnostic} (h : Expr.ofSource source = .error d) :
    (s.run source).2 = s ∧ (s.run source).1.events.filter (·.level = .trace) = [] := by
  obtain ⟨-, htable, hevents⟩ := run_of_ofSource_eq_error (.root s.moduleName) s.globals [] h
  exact ⟨congrArg (fun globals => { s with globals }) htable, hevents⟩

/-- The run of a text that holds an expression ends with the scope that the expression is evaluated to. -/
theorem run_of_ok {s : Session} {source : Source} {tree : Expr} (h : Expr.ofSource source = .ok tree) :
    let scope := (tree.evaluate (.root s.moduleName) { own := s.globals }).2
    (s.run source).2 = { s with globals := scope.own } ∧
      (s.run source).1.events.filter (·.level = .trace) =
        scope.journal.map fun b => .assigned s.moduleName b.1 b.2 := by
  obtain ⟨-, htable, hevents⟩ := run_of_ofSource_eq_ok (.root s.moduleName) s.globals [] h
  exact ⟨congrArg (fun globals => { s with globals }) htable, hevents⟩

/-- A run updates the table by the assignments that it completes. -/
theorem globals_run (s : Session) (source : Source) :
    (s.run source).2.globals = s.globals.insertMany (s.completed source) := by
  unfold completed
  rcases h : Expr.ofSource source with d | tree
  · rw [(run_of_error h).1, Std.ExtTreeMap.insertMany_nil]
  · rw [(run_of_ok h).1]
    simp only [Expr.scope_evaluate, Scope.own_assignAll]

/-- The records of assignments in the log of a run are those of the assignments that it completes. -/
theorem filter_events_run (s : Session) (source : Source) :
    (s.run source).1.events.filter (·.level = .trace) =
      (s.completed source).map fun b => .assigned s.moduleName b.1 b.2 := by
  unfold completed
  rcases h : Expr.ofSource source with d | tree
  · exact (run_of_error h).2
  · rw [(run_of_ok h).2, Expr.scope_evaluate, Scope.journal_assignAll, List.nil_append]

/-! ## All runs -/

theorem globals_runAll (s : Session) (sources : List Source) :
    (s.runAll sources).globals = s.globals.insertMany (s.completedAll sources) := by
  induction sources generalizing s with
  | nil => exact Std.ExtTreeMap.insertMany_nil.symm
  | cons source sources ih =>
    rw [completedAll, Std.ExtTreeMap.insertMany_append, ← globals_run, ← ih]
    rfl

theorem size_runAll (moduleName : String) (sources : List Source) :
    (({ moduleName } : Session).runAll sources).globals.size =
      ("null" :: (({ moduleName } : Session).completedAll sources).map Prod.fst).toFinset.card := by
  refine Table.size_eq_card ?_
  intro name
  rw [globals_runAll, Table.mem_insertMany, Table.mem_initial, List.mem_toFinset, List.mem_cons]

/-- **The law of a session's state.** After any runs the table of a new session is the initial one, updated in order
with the assignments that the runs completed, and has an entry for each name bound that way. A run unbinds no name, and
the assignments in its log are those that it completes. They are those of the nodes that get a value, which are a
beginning of the tree in postorder, and all of it if and only if no problem is met. -/
theorem globals_runAll_and_log :
    (∀ (moduleName : String) (sources : List Source),
      let start : Session := { moduleName }
      (start.runAll sources).globals = Table.initial.insertMany (start.completedAll sources) ∧
      (start.runAll sources).globals.size =
        ("null" :: (start.completedAll sources).map Prod.fst).toFinset.card) ∧
    (∀ (s : Session) (source : Source),
      (∀ name ∈ s.globals, name ∈ (s.run source).2.globals) ∧
      (s.run source).1.events.filter (·.level = .trace) =
        (s.completed source).map fun b => .assigned s.moduleName b.1 b.2) ∧
    ∀ (context : Context) (tree : Expr) (scope : Scope),
      Expr.Covers tree.postorder (tree.trace context scope) (tree.evaluate context scope).1 := by
  refine ⟨?_, ?_, ?_⟩
  · intro moduleName sources
    exact ⟨globals_runAll _ sources, size_runAll moduleName sources⟩
  · intro s source
    refine ⟨?_, filter_events_run s source⟩
    intro name hname
    rw [globals_run, Table.mem_insertMany]
    exact Or.inl hname
  · intro context tree scope
    exact tree.covers_trace scope

/-- Texts that declare inside of operands, of which the second stops at a division by zero behind its first declaration
and the third is no expression. -/
def sampleSources : List Source :=
  ["var a = (var b = 2) + 1", "(var c = 5) / 0 + (var d = 1)", "var e = ("].map (⟨"<stdin>", ·⟩)

theorem globals_runAll_and_log_sample :
    (({} : Session).completedAll sampleSources).map (fun b => (b.1, b.2.number)) =
      [("b", .int 2), ("a", .int 3), ("c", .int 5)] ∧
    (({} : Session).runAll sampleSources).globals.size = 4 ∧
    "c" ∈ (({} : Session).runAll sampleSources).globals ∧
    "c" ∈ ((({} : Session).runAll sampleSources).run ⟨"<stdin>", "c + d"⟩).2.globals := by
  have hbindings : (({} : Session).completedAll sampleSources).map (fun b => (b.1, b.2.number)) =
      [("b", .int 2), ("a", .int 3), ("c", .int 5)] := by decide +kernel
  have hnames : (({} : Session).completedAll sampleSources).map Prod.fst = ["b", "a", "c"] := by
    simpa [Function.comp_def] using congrArg (List.map Prod.fst) hbindings
  obtain ⟨hglobals, hsize⟩ := globals_runAll_and_log.1 defaultModule sampleSources
  have hc : "c" ∈ (({} : Session).runAll sampleSources).globals := by
    rw [hglobals, Table.mem_insertMany, hnames]
    decide
  rw [hnames] at hsize
  exact ⟨hbindings, hsize, hc, (globals_runAll_and_log.2.1 _ _).1 "c" hc⟩

end Session

end Reckoner
