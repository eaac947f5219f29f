import Reckoner.Proofs.Evaluation.Names
import Reckoner.Proofs.Store.Flat

/-!
# Independent trees

Two trees are independent if no name that one of them declares occurs in the other. Then it does not matter which of
them is evaluated first: each comes to what it comes to alone, be it a value or a problem, and the stores are the same
afterwards (`Place.evaluate_comm`). A tree that ends in a problem has made some of its assignments by then; they stay,
and still are no concern of the other tree (`Place.evaluate_evaluate`).
-/

namespace Reckoner

/-- No name that one of the trees declares occurs in the other. -/
def Expr.Independent (a b : Expr) : Prop :=
  (∀ name ∈ a.namesDeclared, name ∉ b.namesRead ∧ name ∉ b.namesDeclared) ∧
    ∀ name ∈ b.namesDeclared, name ∉ a.namesRead ∧ name ∉ a.namesDeclared

namespace Place

variable {s : Store} {p : Place} {a b : Expr}

/-- A name that the tree does not declare is found in the place as before. -/
theorem get?_evaluate_of_not_mem {e : Expr} {name : String} (h : name ∉ e.namesDeclared) (s : Store) (p : Place) :
    (p.evaluate s e).2.get? p.table name = s.get? p.table name := by
  rcases Nat.lt_or_ge p.table s.length with hp | hp
  · rw [get?_evaluate hp, Expr.lookup?_evaluate h, lookup?_scope]
  · rw [snd_evaluate, Store.update_of_length_le _ hp]

/-- A tree that reads no name that `a` declares comes to the same and makes the same assignments, whether `a` was
evaluated before or not. -/
theorem evaluate_evaluate (h : ∀ name ∈ a.namesDeclared, name ∉ b.namesRead) (s : Store) (p : Place) :
    p.evaluate (p.evaluate s a).2 b =
      ((p.evaluate s b).1,
        s.update (fun t => (t.insertMany (a.assignments p.context (p.scope s))).insertMany
          (b.assignments p.context (p.scope s))) p.table) := by
  have hagree : (p.scope (p.evaluate s a).2).AgreesOn (p.scope s) b.namesRead := by
    intro name hname
    have hnot : name ∉ a.namesDeclared := fun hdeclared => h name hdeclared hname
    rw [lookup?_scope, lookup?_scope, get?_evaluate_of_not_mem hnot]
  refine Prod.ext (Expr.evaluate_congr hagree).1 ?_
  rw [snd_evaluate _ p b, Expr.assignments_congr hagree, snd_evaluate s p a, Store.update_update]

/-- **Independent trees commute.** Whichever of two independent trees is evaluated first in a place, each of them comes
to the same value, with its span, or to the same problem, with its span and frames, and the store is the same
afterwards. -/
theorem evaluate_comm (h : a.Independent b) (s : Store) (p : Place) :
    let afterA := (p.evaluate s a).2
    let afterB := (p.evaluate s b).2
    (p.evaluate s a).1 = (p.evaluate afterB a).1 ∧ (p.evaluate afterA b).1 = (p.evaluate s b).1 ∧
      (p.evaluate afterA b).2 = (p.evaluate afterB a).2 := by
  intro afterA afterB
  obtain ⟨houtcomeB, hstoreAB⟩ := Prod.ext_iff.mp (evaluate_evaluate (fun name hname => (h.1 name hname).1) s p)
  obtain ⟨houtcomeA, hstoreBA⟩ := Prod.ext_iff.mp (evaluate_evaluate (fun name hname => (h.2 name hname).1) s p)
  have hdisjoint : ∀ name ∈ (a.assignments p.context (p.scope s)).map Prod.fst,
      name ∉ (b.assignments p.context (p.scope s)).map Prod.fst := by
    intro name ha hb
    exact (h.1 name (Expr.mem_namesDeclared_of_assigned ha)).2 (Expr.mem_namesDeclared_of_assigned hb)
  refine ⟨houtcomeA.symm, houtcomeB, ?_⟩
  rw [hstoreAB, hstoreBA]
  exact Store.update_congr (Table.insertMany_comm _ hdisjoint)

/-- Two trees that both end in a problem behind an assignment: the one divides by zero, the other reads a name that is
not bound. -/
theorem evaluate_comm_entered :
    let (p, s) := entered
    ∃ a b, Expr.ofSource ⟨"<stdin>", "(var a = x) / 0"⟩ = .ok a ∧ Expr.ofSource ⟨"<stdin>", "(var b = x) + c"⟩ = .ok b ∧
      a.Independent b ∧ (p.evaluate s a).1.isOk = false ∧ (p.evaluate s b).1.isOk = false ∧
      (p.evaluate s a).1 = (p.evaluate (p.evaluate s b).2 a).1 ∧
      (p.evaluate (p.evaluate s a).2 b).1 = (p.evaluate s b).1 ∧
      (p.evaluate (p.evaluate s a).2 b).2 = (p.evaluate (p.evaluate s b).2 a).2 := by
  let facts (tree : Expr) := (tree.namesRead, tree.namesDeclared, (entered.1.evaluate entered.2 tree).1.isOk)
  have ha : (Expr.ofSource ⟨"<stdin>", "(var a = x) / 0"⟩).map facts = .ok (["x"], ["a"], false) := by decide +kernel
  have hb : (Expr.ofSource ⟨"<stdin>", "(var b = x) + c"⟩).map facts = .ok (["x", "c"], ["b"], false) := by
    decide +kernel
  obtain ⟨a, hsourceA, hfactsA⟩ := Except.map_eq_ok_iff.mp ha
  obtain ⟨b, hsourceB, hfactsB⟩ := Except.map_eq_ok_iff.mp hb
  simp only [facts, Prod.mk.injEq] at hfactsA hfactsB
  have h : a.Independent b := by
    rw [Expr.Independent, hfactsA.1, hfactsA.2.1, hfactsB.1, hfactsB.2.1]
    decide
  exact ⟨a, b, hsourceA, hsourceB, h, hfactsA.2.2, hfactsB.2.2, evaluate_comm h entered.2 entered.1⟩

end Place

end Reckoner
