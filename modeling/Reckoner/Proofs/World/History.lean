import Reckoner.Proofs.Store.Flat
import Reckoner.Proofs.Store.Forest
import Reckoner.World

/-!
# The history of a world

The edits that a step makes (`World.edits`) are told by what is called: a call that binds or unbinds a name makes one,
and an evaluation makes one for each declaration that it completes, in order. After any script the store is what the
edits of its steps say (`World.runAll_forest`), whichever handles they were made through.
-/

namespace Reckoner

/-! ## Evaluations as edits -/

/-- The edits of declarations that are completed in a place. -/
def Place.edits (p : Place) (s : Store) (tree : Expr) : List Edit :=
  (tree.assignments p.context (p.scope s)).map fun b => .bound p.table b.1 b.2

theorem Store.applyAll_map_bound (s : Store) (i : Nat) (bindings : List (String × Value)) :
    s.applyAll (bindings.map fun b => .bound i b.1 b.2) = s.update (·.insertMany bindings) i := by
  induction bindings generalizing s with
  | nil =>
    have hnil : (fun t : Table => t.insertMany ([] : List (String × Value))) = fun t => t :=
      funext fun _ => Std.ExtTreeMap.insertMany_nil
    rw [hnil, update_id]
    rfl
  | cons b bindings ih =>
    have hcons : (fun t : Table => t.insertMany (b :: bindings)) = fun t => (t.insert b.1 b.2).insertMany bindings :=
      funext fun _ => Std.ExtTreeMap.insertMany_cons
    rw [hcons]
    exact (ih (s.insert i b.1 b.2)).trans (update_update _ _ s i)

theorem Store.admits_elim {α : Type} {s : Store} {x : Option α} {edits : α → List Edit}
    (h : ∀ a, x = some a → s.Admits (edits a)) : s.Admits (x.elim [] edits) := by
  cases x with
  | none => trivial
  | some a => exact h a rfl

theorem Store.admits_map_bound {s : Store} {i : Nat} (hi : i < s.length) (bindings : List (String × Value)) :
    s.Admits (bindings.map fun b => .bound i b.1 b.2) := by
  induction bindings generalizing s with
  | nil => trivial
  | cons b bindings ih => exact ⟨hi, ih (by rwa [apply, insert, length_update])⟩

/-- The table that programs begin with is an empty one in which `null` is bound. -/
theorem Store.add_initial (s : Store) :
    s.add { table := Table.initial } = s.applyAll [.made none, .bound s.length "null" { number := .int 0 }] := by
  simp only [applyAll, List.foldl_cons, List.foldl_nil, apply, insert, add, update, if_true]
  rfl

/-- An evaluation makes the edits of the declarations that it completes. -/
theorem Place.store_evaluate (s : Store) (p : Place) (tree : Expr) :
    (p.evaluate s tree).2 = s.applyAll (p.edits s tree) := by
  rw [edits, Store.applyAll_map_bound, snd_evaluate]

/-- The run of a text that holds a tree evaluates the tree. -/
theorem Place.run_of_ofSource_eq_ok {s : Store} {p : Place} {source : Source} {tree : Expr}
    (h : Expr.ofSource source = .ok tree) :
    (p.run s source).1.outcome = (p.evaluate s tree).1 ∧ (p.run s source).2 = (p.evaluate s tree).2 := by
  obtain ⟨houtcome, htable, -⟩ := Reckoner.run_of_ofSource_eq_ok p.context (s.own p.table) ((s.chain p.table).drop 1) h
  refine ⟨houtcome, ?_⟩
  simp only [run, htable]
  rfl

theorem Place.run_of_ofSource_eq_error {s : Store} {p : Place} {source : Source} {d : Diagnostic}
    (h : Expr.ofSource source = .error d) : (p.run s source).1.outcome = .error d ∧ (p.run s source).2 = s := by
  obtain ⟨houtcome, htable, -⟩ :=
    Reckoner.run_of_ofSource_eq_error p.context (s.own p.table) ((s.chain p.table).drop 1) h
  refine ⟨houtcome, ?_⟩
  have hsame : s.update (fun _ => s.own p.table) p.table = s.update (fun t => t) p.table := Store.update_congr rfl
  simp only [run, htable]
  rw [hsame, Store.update_id]

/-! ## The edits of a script -/

/-- The handle of the table that a step changes, if it changes one that there was. -/
def Step.target? : Step → Option Handle
  | .set h _ _ | .remove h _ | .run h _ | .evaluate h _ => some h
  | _ => none

/-- The handle of the table that something is made over, if it is not made over a new one. -/
def Step.shares? : Step → Option Handle
  | .sameTable h | .context h _ => some h
  | _ => none

namespace World

/-- The edits that a step makes. -/
def edits (w : World) : Step → List Edit
  | .table => [.made none]
  | .globalTable | .session _ => [.made none, .bound w.store.length "null" { number := .int 0 }]
  | .childTable h => (w.place? h).elim [] fun p => [.made (some p.table)]
  | .childContext n _ _ => (w.place? (.context n)).elim [] fun p => [.made (some p.table)]
  | .sameTable _ | .context _ _ => []
  | .set h name v => (w.place? h).elim [] fun p => [.bound p.table name v]
  | .remove h name => (w.place? h).elim [] fun p => [.unbound p.table name]
  | .run h source =>
    (w.place? h).elim [] fun p => (Expr.ofSource source).toOption.elim [] (p.edits w.store)
  | .evaluate h tree => (w.place? h).elim [] fun p => p.edits w.store tree

/-- The edits of a script, step after step. -/
def history (w : World) : List Step → List Edit
  | [] => []
  | step :: script => w.edits step ++ (w.step step).2.history script

/-! ## One step -/

/-- A step changes the store by its edits and by nothing else. -/
theorem store_step (w : World) (step : Step) : (w.step step).2.store = w.store.applyAll (w.edits step) := by
  cases step with
  | table => rfl
  | globalTable | session moduleName => exact w.store.add_initial
  | childTable h | sameTable h | context h frameName | set h name v | remove h name =>
    simp only [World.step, inPlace, edits]
    cases w.place? h <;> rfl
  | childContext n frameName entry =>
    simp only [World.step, inPlace, edits]
    cases w.place? (.context n) <;> rfl
  | run h source =>
    simp only [World.step, inPlace, edits]
    cases w.place? h with
    | none => rfl
    | some p =>
      rcases hsource : Expr.ofSource source with d | tree
      · exact (p.run_of_ofSource_eq_error hsource).2
      · exact (p.run_of_ofSource_eq_ok hsource).2.trans (p.store_evaluate w.store tree)
  | evaluate h tree =>
    simp only [World.step, inPlace, edits]
    cases w.place? h with
    | none => rfl
    | some p => exact p.store_evaluate w.store tree

theorem exists_of_mem_elim {α : Type} {x : Option α} {f : α → List Edit} {e : Edit} (h : e ∈ x.elim [] f) :
    ∃ a, x = some a ∧ e ∈ f a := by
  cases x with
  | none => cases h
  | some a => exact ⟨a, rfl, h⟩

theorem table?_of_mem_placeEdits {p : Place} {s : Store} {tree : Expr} {e : Edit} (h : e ∈ p.edits s tree) :
    e.table? = some p.table := by
  obtain ⟨b, -, rfl⟩ := List.mem_map.mp h
  rfl

/-- The table that an edit of a step changes is a new one, or that of the handle. -/
theorem table?_of_mem_edits {w : World} {step : Step} {e : Edit} (he : e ∈ w.edits step) :
    e.table? = none ∨ e.table? = some w.store.length ∨
      ∃ h p, step.target? = some h ∧ w.place? h = some p ∧ e.table? = some p.table := by
  cases step with
  | table =>
    obtain rfl := List.mem_singleton.mp he
    exact Or.inl rfl
  | globalTable | session moduleName =>
    rcases List.mem_pair.mp he with rfl | rfl
    · exact Or.inl rfl
    · exact Or.inr (Or.inl rfl)
  | sameTable h | context h frameName => cases he
  | childTable h | childContext n frameName entry =>
    obtain ⟨p, -, he⟩ := exists_of_mem_elim he
    obtain rfl := List.mem_singleton.mp he
    exact Or.inl rfl
  | set h name v | remove h name =>
    obtain ⟨p, hp, he⟩ := exists_of_mem_elim he
    obtain rfl := List.mem_singleton.mp he
    exact Or.inr (Or.inr ⟨h, p, rfl, hp, rfl⟩)
  | run h source =>
    obtain ⟨p, hp, he⟩ := exists_of_mem_elim he
    obtain ⟨tree, -, he⟩ := exists_of_mem_elim he
    exact Or.inr (Or.inr ⟨h, p, rfl, hp, table?_of_mem_placeEdits he⟩)
  | evaluate h tree =>
    obtain ⟨p, hp, he⟩ := exists_of_mem_elim he
    exact Or.inr (Or.inr ⟨h, p, rfl, hp, table?_of_mem_placeEdits he⟩)

/-- A step changes no table that there was but the one of the place that it is done in. -/
theorem own_step_of_ne {w : World} {step : Step} {i : Nat} (hi : i < w.store.length)
    (hne : ∀ h p, step.target? = some h → w.place? h = some p → p.table ≠ i) :
    (w.step step).2.store.own i = w.store.own i := by
  rw [store_step]
  refine Store.own_applyAll_of_forall_ne _ fun e he htable => ?_
  rcases table?_of_mem_edits he with hnone | hnew | ⟨h, p, htarget, hp, hplace⟩
  · cases htable.symm.trans hnone
  · exact Nat.ne_of_lt hi (Option.some.inj (htable.symm.trans hnew))
  · exact hne h p htarget hp (Option.some.inj (hplace.symm.trans htable))

/-! ## Handles -/

theorem getElem?_of_prefix {α : Type} {l l' : List α} {n : Nat} {a : α} (h : l <+: l') (hn : l[n]? = some a) :
    l'[n]? = some a := by
  obtain ⟨more, rfl⟩ := h
  rw [List.getElem?_append_left (List.getElem?_eq_some_iff.mp hn).1, hn]

/-- The handles lead to tables of the store. -/
structure Grounded (w : World) : Prop where
  tables : ∀ i ∈ w.tables, i < w.store.length
  contexts : ∀ p ∈ w.contexts, p.table < w.store.length
  sessions : ∀ p ∈ w.sessions, p.table < w.store.length

theorem Grounded.table_lt {w : World} (hw : w.Grounded) {h : Handle} {p : Place} (hp : w.place? h = some p) :
    p.table < w.store.length := by
  cases h with
  | table n =>
    obtain ⟨i, hi, rfl⟩ := Option.map_eq_some_iff.mp hp
    exact hw.tables i (List.mem_of_getElem? hi)
  | context n => exact hw.contexts p (List.mem_of_getElem? hp)
  | session n => exact hw.sessions p (List.mem_of_getElem? hp)

theorem Grounded.admits_edits {w : World} (hw : w.Grounded) (step : Step) : w.store.Admits (w.edits step) := by
  have hchild {p : Place} {h : Handle} (hp : w.place? h = some p) : w.store.Admits [.made (some p.table)] :=
    ⟨fun _ hi => Option.mem_some_iff.mp hi ▸ hw.table_lt hp, trivial⟩
  cases step with
  | table => exact ⟨fun _ hi => (nomatch hi), trivial⟩
  | globalTable | session moduleName => exact ⟨fun _ hi => (nomatch hi), Nat.lt_succ_self _, trivial⟩
  | sameTable h | context h frameName => trivial
  | childTable h => exact Store.admits_elim fun p hp => hchild hp
  | childContext n frameName entry => exact Store.admits_elim fun p hp => hchild hp
  | set h name v | remove h name => exact Store.admits_elim fun p hp => ⟨hw.table_lt hp, trivial⟩
  | run h source =>
    refine Store.admits_elim fun p hp => Store.admits_elim fun tree _ => ?_
    exact Store.admits_map_bound (hw.table_lt hp) _
  | evaluate h tree => exact Store.admits_elim fun p hp => Store.admits_map_bound (hw.table_lt hp) _

section

variable {w : World} {h : Handle} {s : Store} {i : Nat} {p : Place}

/-- What holds of the world, and of what comes of it in the place of a handle, holds whatever the handle stands for. -/
theorem inPlace_world {P : World → Prop} {f : Place → Answer × World} (hw : P w)
    (hf : ∀ p, w.place? h = some p → P (f p).2) : P (w.inPlace h f).2 := by
  unfold inPlace
  cases hp : w.place? h with
  | none => exact hw
  | some p => exact hf p hp

theorem Grounded.withStore (hw : w.Grounded) (hs : w.store.length ≤ s.length) : { w with store := s }.Grounded where
  tables i hi := Nat.lt_of_lt_of_le (hw.tables i hi) hs
  contexts p hp := Nat.lt_of_lt_of_le (hw.contexts p hp) hs
  sessions p hp := Nat.lt_of_lt_of_le (hw.sessions p hp) hs

theorem Grounded.nameTable (hw : w.Grounded) (hi : i < w.store.length) : (w.nameTable i).2.Grounded :=
  ⟨List.forall_mem_append.mpr ⟨hw.tables, List.forall_mem_singleton.mpr hi⟩, hw.contexts, hw.sessions⟩

theorem Grounded.newContext (hw : w.Grounded) (hp : p.table < w.store.length) : (w.newContext p).2.Grounded :=
  ⟨hw.tables, List.forall_mem_append.mpr ⟨hw.contexts, List.forall_mem_singleton.mpr hp⟩, hw.sessions⟩

theorem Grounded.newTable (hw : w.Grounded) (c : Cell) : (w.newTable c).2.Grounded :=
  (hw.withStore (Nat.le_succ _)).nameTable (Nat.lt_succ_self _)

theorem Grounded.newSession (hw : w.Grounded) (moduleName : String) : (w.newSession moduleName).2.Grounded :=
  have hstore := hw.withStore (s := w.store.add { table := Table.initial }) (Nat.le_succ _)
  ⟨hstore.tables, hstore.contexts,
    List.forall_mem_append.mpr ⟨hstore.sessions, List.forall_mem_singleton.mpr (Nat.lt_succ_self _)⟩⟩

/-- Every step leaves handles that lead to tables. -/
theorem Grounded.step (hw : w.Grounded) (step : Step) : (w.step step).2.Grounded := by
  cases step with
  | table | globalTable => exact hw.newTable _
  | session moduleName => exact hw.newSession moduleName
  | childTable h => exact inPlace_world hw fun p _ => hw.newTable _
  | sameTable h => exact inPlace_world hw fun p hp => hw.nameTable (hw.table_lt hp)
  | context h frameName =>
    refine inPlace_world hw fun p hp => ?_
    have hlt : p.table < w.store.length := hw.table_lt hp
    exact hw.newContext hlt
  | childContext n frameName entry =>
    exact inPlace_world hw fun p _ => (hw.withStore (Nat.le_succ _)).newContext (Nat.lt_succ_self _)
  | set h name v | remove h name | run h source | evaluate h tree =>
    exact inPlace_world hw fun p _ => hw.withStore (Nat.le_of_eq (Store.length_update _ _ _).symm)

end

theorem grounded_empty : ({} : World).Grounded :=
  ⟨fun _ h => (nomatch h), fun _ h => (nomatch h), fun _ h => (nomatch h)⟩

/-- What is held in `w` is held in `w'` under the same number. -/
structure Keeps (w w' : World) : Prop where
  tables : w.tables <+: w'.tables
  contexts : w.contexts <+: w'.contexts
  sessions : w.sessions <+: w'.sessions

theorem Keeps.place? {w w' : World} (hw : Keeps w w') {h : Handle} {p : Place} (hp : w.place? h = some p) :
    w'.place? h = some p := by
  cases h with
  | table n =>
    obtain ⟨i, hi, rfl⟩ := Option.map_eq_some_iff.mp hp
    exact Option.map_eq_some_iff.mpr ⟨i, getElem?_of_prefix hw.tables hi, rfl⟩
  | context n => exact getElem?_of_prefix hw.contexts hp
  | session n => exact getElem?_of_prefix hw.sessions hp

theorem keeps_step (w : World) (step : Step) : Keeps w (w.step step).2 := by
  have hsame (s : Store) : Keeps w { w with store := s } := ⟨List.prefix_rfl, List.prefix_rfl, List.prefix_rfl⟩
  have hname (s : Store) (i : Nat) : Keeps w ({ w with store := s }.nameTable i).2 :=
    ⟨List.prefix_append _ _, List.prefix_rfl, List.prefix_rfl⟩
  have hcontext (s : Store) (p : Place) : Keeps w ({ w with store := s }.newContext p).2 :=
    ⟨List.prefix_rfl, List.prefix_append _ _, List.prefix_rfl⟩
  cases step with
  | table | globalTable => exact hname _ _
  | session moduleName => exact ⟨List.prefix_rfl, List.prefix_rfl, List.prefix_append _ _⟩
  | childTable h | sameTable h => exact inPlace_world (hsame _) fun p _ => hname _ _
  | context h frameName | childContext n frameName entry => exact inPlace_world (hsame _) fun p _ => hcontext _ _
  | set h name v | remove h name | run h source | evaluate h tree => exact inPlace_world (hsame _) fun p _ => hsame _

theorem place?_nameTable (w : World) (i : Nat) :
    (w.nameTable i).2.place? (.table w.tables.length) = some (.root defaultModule i) := by
  rw [place?, nameTable, List.getElem?_concat_length]
  rfl

theorem exists_place_of_inPlace_made {w : World} {k h : Handle} {f : Place → Answer × World}
    (hmade : (w.inPlace k f).1 = .made h) : ∃ q, w.place? k = some q ∧ w.inPlace k f = f q := by
  unfold inPlace at hmade ⊢
  cases hk : w.place? k with
  | none =>
    rw [hk] at hmade
    cases hmade
  | some q => exact ⟨q, rfl, rfl⟩

/-- What a step makes is over a new table, or over that of the handle it shares it with. -/
theorem place?_of_made {w : World} {step : Step} {h : Handle} (hmade : (w.step step).1 = .made h) :
    ∃ p, (w.step step).2.place? h = some p ∧
      p.table = ((step.shares?.bind w.place?).map Place.table).getD w.store.length := by
  cases step with
  | table | globalTable =>
    cases hmade
    exact ⟨_, place?_nameTable _ _, rfl⟩
  | session moduleName =>
    cases hmade
    exact ⟨_, List.getElem?_concat_length, rfl⟩
  | childTable k =>
    obtain ⟨q, -, hstep⟩ := exists_place_of_inPlace_made hmade
    change w.step (.childTable k) = _ at hstep
    rw [hstep] at hmade ⊢
    cases hmade
    exact ⟨_, place?_nameTable _ _, rfl⟩
  | sameTable k =>
    obtain ⟨q, hq, hstep⟩ := exists_place_of_inPlace_made hmade
    change w.step (.sameTable k) = _ at hstep
    rw [hstep] at hmade ⊢
    cases hmade
    exact ⟨_, place?_nameTable _ _, by simp [Step.shares?, hq, Place.root]⟩
  | context k frameName =>
    obtain ⟨q, hq, hstep⟩ := exists_place_of_inPlace_made hmade
    change w.step (.context k frameName) = _ at hstep
    rw [hstep] at hmade ⊢
    cases hmade
    exact ⟨_, List.getElem?_concat_length, by simp [Step.shares?, hq, Place.root]⟩
  | childContext n frameName entry =>
    obtain ⟨q, -, hstep⟩ := exists_place_of_inPlace_made hmade
    change w.step (.childContext n frameName entry) = _ at hstep
    rw [hstep] at hmade ⊢
    cases hmade
    exact ⟨_, List.getElem?_concat_length, rfl⟩
  | set k name v | remove k name | run k source | evaluate k tree =>
    obtain ⟨q, -, hstep⟩ := exists_place_of_inPlace_made hmade
    rw [World.step, hstep] at hmade
    cases hmade

/-! ## Scripts -/

/-- After a script the store is what the edits before it and those of its steps say. -/
theorem runAll_reflects {w : World} {h : List Edit} (hw : w.Grounded) (hs : w.store.Reflects h) (script : List Step) :
    (w.runAll script).Grounded ∧ (w.runAll script).store.Reflects (h ++ w.history script) := by
  induction script generalizing w h with
  | nil => exact ⟨hw, by rwa [history, List.append_nil]⟩
  | cons step script ih =>
    have hstep : (w.step step).2.store.Reflects (h ++ w.edits step) := by
      rw [store_step]
      exact hs.applyAll (hw.admits_edits step)
    rw [history, ← List.append_assoc]
    exact ih (hw.step step) hstep

/-- What the edits made so far say of a world, in terms of its handles. -/
structure Forest (w : World) (history : List Edit) : Prop where
  /-- The tables are those that were made, each inside the table that it was made in. -/
  parents : w.store.parents = Edit.parents history
  /-- A name is found with the value that it was last bound to in the first table on the way up where it is live. -/
  found : ∀ h p, w.place? h = some p → ∀ name, Finds history name p.table (w.get? h name)
  /-- A table has as many bindings as there are names live in it. -/
  size : ∀ h p, w.place? h = some p → (w.own h).size = {name | ∃ v, Live history p.table name v}.ncard
  /-- Removing a name tells whether it was live in the table itself. -/
  removed : ∀ h p, w.place? h = some p → ∀ name, ∃ existed, (w.step (.remove h name)).1 = .removed existed ∧
    (existed = true ↔ ∃ v, Live history p.table name v)
  /-- A step changes no table that there was but the one of its handle. -/
  others : ∀ step i, i < w.store.length → (∀ h p, step.target? = some h → w.place? h = some p → p.table ≠ i) →
    (w.step step).2.store.own i = w.store.own i
  /-- A handle goes on to stand for the place that it stands for. -/
  kept : ∀ step h p, w.place? h = some p → (w.step step).2.place? h = some p
  /-- What a step makes is over a new table, or over that of the handle it shares it with. -/
  made : ∀ step h, (w.step step).1 = .made h → ∃ p, (w.step step).2.place? h = some p ∧
    p.table = ((step.shares?.bind w.place?).map Place.table).getD w.store.length

/-- **Shared tables are a forest of maps**, after any script, whatever handles its steps went through. -/
theorem runAll_forest (script : List Step) : (({} : World).runAll script).Forest (({} : World).history script) := by
  obtain ⟨hground, hreflects⟩ := runAll_reflects grounded_empty Store.reflects_nil script
  rw [List.nil_append] at hreflects
  generalize ({} : World).runAll script = w at hground hreflects ⊢
  generalize ({} : World).history script = history at hreflects ⊢
  constructor
  case parents => exact hreflects.parents
  case found =>
    intro h p hp name
    rw [get?, hp]
    exact hreflects.finds (hground.table_lt hp) name
  case size =>
    intro h p hp
    rw [own, hp]
    exact hreflects.size_own p.table
  case removed =>
    intro h p hp name
    refine ⟨(w.store.own p.table).contains name, ?_, ?_⟩
    · simp only [step, inPlace, hp]
    · exact Std.ExtTreeMap.contains_iff_mem.trans hreflects.mem_own_iff
  case others => exact fun step i hi hne => own_step_of_ne hi hne
  case kept => exact fun step h p hp => (keeps_step w step).place? hp
  case made => exact fun step h hmade => place?_of_made hmade

/-- `x` is zero in a table and declared in a frame inside, where it is then removed. -/
def uncovering : List Step :=
  [.table, .set (.table 0) "x" { number := .int 0 }, .childTable (.table 0), .context (.table 1) "f",
    .run (.context 0) ⟨"<stdin>", "var x = 5"⟩, .remove (.table 1) "x"]

/-- The zero is uncovered: it is found from inside, where there is nothing left to remove. -/
theorem runAll_forest_uncovering :
    let w := ({} : World).runAll uncovering
    let history := ({} : World).history uncovering
    w.place? (.context 0) = some (.root "f" 1) ∧
    Finds history "x" 1 (some { number := .int 0 }) ∧
    {name | ∃ v, Live history 1 name v}.ncard = 0 ∧
    (∃ existed, (w.step (.remove (.context 0) "x")).1 = .removed existed ∧
      (existed = true ↔ ∃ v, Live history 1 "x" v)) ∧
    (w.step (.remove (.context 0) "x")).2.store.own 0 = w.store.own 0 := by
  have hplace : (({} : World).runAll uncovering).place? (.context 0) = some (.root "f" 1) := by decide +kernel
  have hfound : (({} : World).runAll uncovering).get? (.context 0) "x" = some { number := .int 0 } := by decide +kernel
  have hsize : ((({} : World).runAll uncovering).own (.context 0)).size = 0 := by decide +kernel
  have hlength : 0 < (({} : World).runAll uncovering).store.length := by decide +kernel
  have hforest := runAll_forest uncovering
  refine ⟨hplace, hfound ▸ hforest.found _ _ hplace "x", (hforest.size _ _ hplace).symm.trans hsize,
    hforest.removed _ _ hplace "x", hforest.others _ 0 hlength ?_⟩
  rintro h p ⟨rfl⟩ hp
  rw [hplace] at hp
  cases hp
  decide

end World

end Reckoner
