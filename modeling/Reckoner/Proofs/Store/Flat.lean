import Reckoner.Proofs.Evaluation.Alike
import Reckoner.Proofs.Session.Journal
import Reckoner.Store

/-!
# Chains of tables as one table

A place sees a chain of tables, of which only the first is assigned in. `Store.flat` is the one table with all bindings
that are seen. Evaluating in the place or in a root frame over that table comes to the same, and afterwards every name
is found alike in both (`Place.evaluate_flat`): what an assignment hides in the chain it replaces in the flat table. No
other table changes.
-/

namespace Reckoner

/-! ## Flat tables -/

/-- The bindings of all tables, where the first table that binds a name decides. -/
def Table.flatten (tables : List Table) : Table :=
  tables.foldr (fun t flat => flat ∪ t) ∅

theorem Table.getElem?_flatten (tables : List Table) (name : String) :
    (flatten tables)[name]? = lookup? tables name := by
  induction tables with
  | nil => exact Std.ExtTreeMap.getElem?_empty
  | cons t tables ih =>
    rw [lookup?, List.findSome?_cons, flatten, List.foldr_cons, Std.ExtTreeMap.getElem?_union]
    cases t[name]? with
    | some v => rfl
    | none => exact ih

/-- The bindings that are seen from table `i`. -/
def Store.flat (s : Store) (i : Nat) : Table :=
  Table.flatten (s.chain i)

theorem Store.getElem?_flat (s : Store) (i : Nat) (name : String) : (s.flat i)[name]? = s.get? i name :=
  Table.getElem?_flatten _ name

theorem Store.get?_singleton (t : Table) (name : String) : Store.get? [{ table := t }] 0 name = t[name]? := by
  rw [get?, Table.lookup?]
  exact List.findSome?_singleton

/-! ## Places -/

theorem Scope.alike_eq_iff {s s' : Scope} : s.Alike Eq s' ↔ ∀ name, s.lookup? name = s'.lookup? name := by
  refine forall_congr' fun name => ?_
  cases s.lookup? name <;> cases s'.lookup? name <;> simp [Value.alike_eq_iff]

namespace Place

variable {s : Store} {p : Place}

theorem lookup?_scope (s : Store) (p : Place) (name : String) : (p.scope s).lookup? name = s.get? p.table name := by
  rw [Scope.lookup?, scope, Store.get?, Store.own]
  cases s.chain p.table with
  | nil => rfl
  | cons t outer => rfl

/-- In a frame entered from `p`, an empty table is inside of what `p` sees. -/
theorem scope_child (hp : p.table < s.length) (name : String) (entry : Option Position) :
    (p.child s name entry).1.scope (p.child s name entry).2 = (p.scope s).nested := by
  let tables := (p.child s name entry).2.chain s.length
  have htables : tables = ∅ :: s.chain p.table := s.chain_add_length _
  have hchain : s.chain p.table = s.own p.table :: (s.chain p.table).drop 1 := Store.chain_eq_cons hp
  calc (p.child s name entry).1.scope (p.child s name entry).2
    _ = { own := tables.headD ∅, outer := tables.drop 1 } := rfl
    _ = { own := ∅, outer := s.chain p.table } := by rw [htables]; rfl
    _ = (p.scope s).nested := congrArg (fun outer => ({ own := ∅, outer } : Scope)) hchain

/-- In a frame just entered, every name is found as it is where the frame was entered. -/
theorem get?_child (hp : p.table < s.length) (frameName : String) (entry : Option Position) (name : String) :
    (p.child s frameName entry).2.get? s.length name = s.get? p.table name := by
  have hlookup := lookup?_scope (p.child s frameName entry).2 (p.child s frameName entry).1 name
  rw [scope_child hp, Scope.lookup?_nested, lookup?_scope] at hlookup
  exact hlookup.symm

/-- An evaluation updates the table of its place by the assignments that it completes. -/
theorem snd_evaluate (s : Store) (p : Place) (e : Expr) :
    (p.evaluate s e).2 = s.update (·.insertMany (e.assignments p.context (p.scope s))) p.table := by
  refine Store.update_congr ?_
  rw [Expr.scope_evaluate, Scope.own_assignAll]
  rfl

/-- After an evaluation a place sees the scope that the evaluation left. -/
theorem get?_evaluate (hp : p.table < s.length) (e : Expr) (name : String) :
    (p.evaluate s e).2.get? p.table name = (e.evaluate p.context (p.scope s)).2.lookup? name := by
  rw [evaluate, Store.get?, Store.chain_update _ hp, Scope.lookup?, Expr.outer_evaluate]
  rfl

/-- **A chain of tables is as good as one table**: evaluation in a place, and in a root frame whose table binds each
name as it is found from there, come to the same value, or to the same problem at the same span. In both cases each name
is found alike afterwards, and no table but that of the place has changed. -/
theorem evaluate_flat (hp : p.table < s.length) (e : Expr) (frameName : String) :
    let root := Place.root frameName 0
    let flat : Store := [{ table := s.flat p.table }]
    (∀ name, (s.flat p.table)[name]? = s.get? p.table name) ∧
    Outcome.Alike Eq p.context root.context (p.evaluate s e).1 (root.evaluate flat e).1 ∧
    (∀ name, (p.evaluate s e).2.get? p.table name = (root.evaluate flat e).2.get? 0 name) ∧
    ∀ i, i ≠ p.table → (p.evaluate s e).2.own i = s.own i := by
  intro root flat
  have hscope : (p.scope s).Alike Eq (root.scope flat) := by
    refine Scope.alike_eq_iff.mpr fun name => ?_
    rw [lookup?_scope, lookup?_scope, ← s.getElem?_flat]
    exact (Store.get?_singleton _ name).symm
  obtain ⟨houtcome, hafter⟩ := (Expr.alike_refl (fun _ => rfl) e).evaluate p.context root.context hscope
  refine ⟨s.getElem?_flat p.table, houtcome, fun name => ?_, fun i hi => Store.own_update_of_ne s _ hi⟩
  have hroot : (root.evaluate flat e).2.get? 0 name = _ := get?_evaluate Nat.zero_lt_one e name
  rw [get?_evaluate hp, hroot]
  exact Scope.alike_eq_iff.mp hafter name

/-- A table that binds `x`, and a frame entered from there. -/
def entered : Place × Store :=
  (root defaultModule 0).child [{ table := Table.initial.insert "x" { number := .int 2 } }] "f" none

/-- In `(var x = x + 1) * x` the last `x` is that of the new frame, which hides the one outside. -/
theorem evaluate_flat_entered :
    let (p, s) := entered
    let root := root "flat" 0
    let flat : Store := [{ table := s.flat p.table }]
    p.table < s.length ∧
    ∃ tree, Expr.ofSource ⟨"<stdin>", "(var x = x + 1) * x"⟩ = .ok tree ∧
      (p.evaluate s tree).1.map Value.number = .ok (.int 9) ∧
      Outcome.Alike Eq p.context root.context (p.evaluate s tree).1 (root.evaluate flat tree).1 ∧
      (p.evaluate s tree).2.get? p.table "x" = (root.evaluate flat tree).2.get? 0 "x" ∧
      (p.evaluate s tree).2.own 0 = s.own 0 := by
  have hp : entered.1.table < entered.2.length := by decide
  have h : (Expr.ofSource ⟨"<stdin>", "(var x = x + 1) * x"⟩).map
      (fun tree => (entered.1.evaluate entered.2 tree).1.map Value.number) = .ok (.ok (.int 9)) := by decide +kernel
  obtain ⟨tree, htree, hvalue⟩ := Except.map_eq_ok_iff.mp h
  obtain ⟨-, houtcome, hafter, hothers⟩ := evaluate_flat hp tree "flat"
  exact ⟨hp, tree, htree, hvalue, houtcome, hafter "x", hothers 0 (by decide)⟩

end Place

end Reckoner
