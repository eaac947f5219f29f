import Reckoner.Session

/-!
# Stores of shared tables

Tables that several users share are kept in a `Store`, and known there by number. A table may have a parent, which is
older than it, so the tables of a store form a forest. A `Place` is where expressions are evaluated: a chain of frames
and the table that the innermost frame assigns in.

An update changes the table it is for (`own_update`) and no other (`own_update_of_ne`), and is not seen from older
tables (`chain_update_of_lt`); a new table leaves the others as they are (`chain_add_of_lt`).
-/

namespace Reckoner

/-- A table and the number of its parent. -/
structure Cell where
  table : Table
  parent : Option Nat := none

/-- The tables, the newest first. A table has the number of tables that are older. -/
abbrev Store := List Cell

namespace Store

/-- A further table. Its number is the length of the store. -/
def add (s : Store) (c : Cell) : Store :=
  c :: s

/-- Table `i` and the tables around it, from the inside out. -/
def chain : Store → Nat → List Table
  | [], _ => []
  | c :: older, i =>
    if i = older.length then
      c.table :: match c.parent with
        | some p => chain older p
        | none => []
    else
      chain older i

/-- Table `i` without those around it. -/
def own (s : Store) (i : Nat) : Table :=
  (s.chain i).headD ∅

/-- Replaces table `i` by `f` of it. -/
def update (f : Table → Table) : Store → Nat → Store
  | [], _ => []
  | c :: older, i =>
    if i = older.length then { c with table := f c.table } :: older else c :: update f older i

/-- The value of a name in table `i`, or else in the tables around it. -/
def get? (s : Store) (i : Nat) (name : String) : Option Value :=
  Table.lookup? (s.chain i) name

def insert (s : Store) (i : Nat) (name : String) (v : Value) : Store :=
  s.update (·.insert name v) i

def erase (s : Store) (i : Nat) (name : String) : Store :=
  s.update (·.erase name) i

theorem chain_add_length (s : Store) (c : Cell) :
    (s.add c).chain s.length = c.table :: (c.parent.elim [] s.chain) := by
  rw [add, chain, if_pos rfl]
  cases c.parent <;> rfl

/-- The tables that were there are as they were. -/
theorem chain_add_of_lt {s : Store} {i : Nat} (c : Cell) (h : i < s.length) : (s.add c).chain i = s.chain i := by
  rw [add, chain, if_neg (Nat.ne_of_lt h)]

theorem chain_eq_cons {s : Store} {i : Nat} (h : i < s.length) : s.chain i = s.own i :: (s.chain i).drop 1 := by
  induction s with
  | nil => exact absurd h (Nat.not_lt_zero i)
  | cons c older ih =>
    by_cases hi : i = older.length
    · simp [own, chain, hi]
    · have hlt : i < older.length := Nat.lt_of_le_of_ne (Nat.le_of_lt_succ h) hi
      simpa [own, chain, hi] using ih hlt

@[simp] theorem length_update (f : Table → Table) (s : Store) (i : Nat) : (s.update f i).length = s.length := by
  induction s with
  | nil => rfl
  | cons c older ih =>
    unfold update
    split
    · rfl
    · simp [ih]

theorem update_id (s : Store) (i : Nat) : s.update (fun t => t) i = s := by
  induction s with
  | nil => rfl
  | cons c older ih =>
    rw [update, ih]
    exact ite_self _

theorem update_update (f g : Table → Table) (s : Store) (i : Nat) :
    (s.update f i).update g i = s.update (fun t => g (f t)) i := by
  induction s with
  | nil => rfl
  | cons c older ih =>
    by_cases hi : i = older.length <;> simp [update, hi, ih]

theorem update_congr {f g : Table → Table} {s : Store} {i : Nat} (h : f (s.own i) = g (s.own i)) :
    s.update f i = s.update g i := by
  induction s with
  | nil => rfl
  | cons c older ih =>
    by_cases hi : i = older.length
    · simpa [own, update, chain, hi] using h
    · simpa [own, update, chain, hi] using ih (by simpa [own, chain, hi] using h)

theorem own_update {s : Store} {i : Nat} (f : Table → Table) (h : i < s.length) :
    (s.update f i).own i = f (s.own i) := by
  induction s with
  | nil => exact absurd h (Nat.not_lt_zero i)
  | cons c older ih =>
    by_cases hi : i = older.length
    · simp [own, update, chain, hi]
    · have hlt : i < older.length := Nat.lt_of_le_of_ne (Nat.le_of_lt_succ h) hi
      simpa [own, update, chain, hi] using ih hlt

theorem own_update_of_ne {i j : Nat} (s : Store) (f : Table → Table) (h : j ≠ i) :
    (s.update f i).own j = s.own j := by
  induction s with
  | nil => rfl
  | cons c older ih =>
    by_cases hi : i = older.length
    · simp [own, update, chain, hi, hi ▸ h]
    · by_cases hj : j = older.length
      · simp [own, update, chain, hi, hj]
      · simpa [own, update, chain, hi, hj] using ih

/-- The tables around an updated one are as they were. -/
theorem chain_update {s : Store} {i : Nat} (f : Table → Table) (h : i < s.length) :
    (s.update f i).chain i = f (s.own i) :: (s.chain i).drop 1 := by
  induction s with
  | nil => exact absurd h (Nat.not_lt_zero i)
  | cons c older ih =>
    by_cases hi : i = older.length
    · simp [own, update, chain, hi]
    · have hlt : i < older.length := Nat.lt_of_le_of_ne (Nat.le_of_lt_succ h) hi
      simpa [own, update, chain, hi] using ih hlt

theorem update_of_length_le {s : Store} {i : Nat} (f : Table → Table) (h : s.length ≤ i) : s.update f i = s := by
  induction s with
  | nil => rfl
  | cons c older ih => rw [update, if_neg (Nat.ne_of_gt h), ih (Nat.le_of_lt h)]

/-- A table and those around it are older than the tables that come after it, so they do not see an update there. -/
theorem chain_update_of_lt {s : Store} {i j : Nat} (f : Table → Table) (h : j < i) :
    (s.update f i).chain j = s.chain j := by
  induction s with
  | nil => rfl
  | cons c older ih =>
    by_cases hi : i = older.length
    · simp [update, chain, hi, Nat.ne_of_lt (hi ▸ h)]
    · by_cases hj : j = older.length
      · rw [update, if_neg hi, update_of_length_le f (hj ▸ Nat.le_of_lt h)]
      · simp [update, chain, hi, hj, ih]

end Store

structure Place where
  context : Context
  table : Nat
deriving DecidableEq, Repr

namespace Place

/-- An outermost frame that assigns in table `table`. -/
def root (name : String) (table : Nat) : Place :=
  ⟨.root name, table⟩

/-- A frame entered from `p`, with a new table inside that of `p`. -/
def child (s : Store) (p : Place) (name : String) (entry : Option Position) : Place × Store :=
  (⟨.child p.context name entry, s.length⟩, s.add { table := ∅, parent := some p.table })

/-- What an evaluation in a place sees. -/
def scope (s : Store) (p : Place) : Scope where
  own := s.own p.table
  outer := (s.chain p.table).drop 1

/-- Evaluates a tree in a place, and returns the store as it is afterwards. -/
def evaluate (s : Store) (p : Place) (tree : Expr) : Outcome Value × Store :=
  let (outcome, after) := tree.evaluate p.context (p.scope s)
  (outcome, s.update (fun _ => after.own) p.table)

/-- Runs a text in a place, and returns the store as it is afterwards. -/
def run (s : Store) (p : Place) (source : Source) : Run × Store :=
  let r := Reckoner.run p.context (s.own p.table) ((s.chain p.table).drop 1) source
  (r, s.update (fun _ => r.table) p.table)

end Place

end Reckoner
