import Reckoner.Proofs.Evaluation.Names
import Reckoner.Proofs.Session.Journal

/-!
# Repeated runs

A tree that reads no name which it declares is `Repeatable`: it sees nothing of what it assigns. Evaluated again in the
scope that it left, it comes to the same outcome by the same assignments, and these change nothing any more
(`Expr.evaluate_again`). So a text that holds such a tree, or none, can be run again without a difference in the result,
the table or the log (`Session.run_run`).
-/

namespace Reckoner

theorem Scope.assignAll_eq (s : Scope) (bindings : List (String × Value)) :
    s.assignAll bindings =
      { own := s.own.insertMany bindings, outer := s.outer, journal := s.journal ++ bindings } :=
  calc s.assignAll bindings
    _ = ⟨(s.assignAll bindings).own, (s.assignAll bindings).outer, (s.assignAll bindings).journal⟩ := rfl
    _ = _ := by rw [own_assignAll, outer_assignAll, journal_assignAll]

namespace Expr

variable {e : Expr}

/-- The tree reads no name that it declares. -/
def Repeatable (e : Expr) : Prop :=
  ∀ name ∈ e.namesRead, name ∉ e.namesDeclared

theorem repeatable_of_namesDeclared_eq_nil (h : e.namesDeclared = []) : e.Repeatable := by
  intro name _
  rw [h]
  exact List.not_mem_nil

/-- Evaluated again over the table that it left, a repeatable tree comes to the same. -/
theorem evaluate_again (h : e.Repeatable) (context : Context) (s : Scope) :
    e.evaluate context { s with own := (e.evaluate context s).2.own } = e.evaluate context s := by
  let left : Scope := { s with own := (e.evaluate context s).2.own }
  have hagree : left.AgreesOn s e.namesRead := by
    intro name hname
    have hlookup : left.lookup? name = (e.evaluate context s).2.lookup? name := by
      rw [Scope.lookup?, Scope.lookup?, outer_evaluate]
    rw [hlookup, lookup?_evaluate (h name hname)]
  have hown : left.own = s.own.insertMany (e.assignments context s) := by
    simp only [left, scope_evaluate, Scope.own_assignAll]
  refine Prod.ext (evaluate_congr hagree).1 ?_
  change (e.evaluate context left).2 = (e.evaluate context s).2
  rw [scope_evaluate, scope_evaluate, assignments_congr hagree, Scope.assignAll_eq, Scope.assignAll_eq, hown,
    Table.insertMany_insertMany_self]

end Expr

variable {source : Source}

/-- A text that holds a repeatable tree, or none, is run again over the table that it left with the same result, the
same table and the same log. -/
theorem run_again (h : ∀ tree, Expr.ofSource source = .ok tree → tree.Repeatable) (context : Context) (own : Table)
    (outer : List Table) :
    run context (run context own outer source).table outer source = run context own outer source := by
  rcases hscan : Token.scan source with d | tokens
  · simp only [run, hscan]
  · rcases htree : Expr.ofTokens tokens with d | tree
    · simp only [run, hscan, htree]
    · have hsource : Expr.ofSource source = .ok tree := (Expr.ofSource_of_scan hscan).trans htree
      have hagain := Expr.evaluate_again (h tree hsource) context { own, outer }
      simp only [run, hscan, htree, hagain]

namespace Session

/-- **Runs can be repeated.** If the tree that a text holds reads no name that it declares, a second run of the text has
the same result as the first, be it a value or a problem, and leaves the session as the first left it. In particular
this is so if the tree declares nothing, and then the first run does not change the session either. -/
theorem run_run (source : Source) :
    ((∀ tree, Expr.ofSource source = .ok tree → tree.Repeatable) →
      ∀ s : Session, (s.run source).2.run source = s.run source) ∧
    ((∀ tree, Expr.ofSource source = .ok tree → tree.namesDeclared = []) →
      ∀ s : Session, (s.run source).2.run source = s.run source ∧ (s.run source).2 = s) := by
  have hagain (h : ∀ tree, Expr.ofSource source = .ok tree → tree.Repeatable) (s : Session) :
      (s.run source).2.run source = s.run source := by
    have hrun := run_again h (.root s.moduleName) s.globals []
    unfold Session.run
    simp only [hrun]
  refine ⟨hagain, fun h s => ⟨hagain (fun tree htree => Expr.repeatable_of_namesDeclared_eq_nil (h tree htree)) s, ?_⟩⟩
  rcases hsource : Expr.ofSource source with d | tree
  · exact (run_of_error hsource).1
  · have hnone : s.completed source = [] := by
      have hprefix := tree.map_fst_assignments_prefix (.root s.moduleName) { own := s.globals }
      rw [h tree hsource, List.prefix_nil, List.map_eq_nil_iff] at hprefix
      rwa [completed, hsource]
    have hglobals : (s.run source).2.globals = s.globals := by
      rw [globals_run, hnone, Std.ExtTreeMap.insertMany_nil]
    exact congrArg (fun globals => { s with globals }) hglobals

/-- A text that assigns `y` and then divides by zero. -/
def dividing : Source :=
  ⟨"<stdin>", "(var y = x + 1) / (x - 2)"⟩

theorem run_run_dividing :
    let s := (({} : Session).run ⟨"<stdin>", "var x = 2"⟩).2
    (∀ tree, Expr.ofSource dividing = .ok tree → tree.Repeatable) ∧
    (s.run dividing).1.outcome.isOk = false ∧
    (s.run dividing).2.globals["y"]?.map Value.number = some (.int 3) ∧
    (s.run dividing).2.run dividing = s.run dividing := by
  have hnames : (Expr.ofSource dividing).map (fun tree => (tree.namesRead, tree.namesDeclared)) =
      .ok (["x", "x"], ["y"]) := by decide +kernel
  have h : ∀ tree, Expr.ofSource dividing = .ok tree → tree.Repeatable := by
    intro tree htree
    rw [htree] at hnames
    obtain ⟨hread, hdeclared⟩ := Prod.mk.inj (Except.ok.inj hnames)
    rw [Expr.Repeatable, hread, hdeclared]
    decide
  exact ⟨h, by decide +kernel, by decide +kernel, (run_run dividing).1 h _⟩

end Session

end Reckoner
