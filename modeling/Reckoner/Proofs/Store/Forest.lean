import Mathlib.Data.Set.Card
import Reckoner.Proofs.Session.Journal
import Reckoner.Store

/-!
# Stores as forests of maps

A store is told by the edits that made it what it is: tables made, names bound and unbound. A name is `Live` in a table
if it was bound there, and neither bound again nor unbound since. What a name is found to be from a table (`Finds`) is
read off from the edits alone: the value it is live with in the first table on the way up where it is live.

`Store.Reflects` says that a store is what its edits say. Each edit keeps this (`Store.Reflects.apply`), and it tells
what is found (`Store.Reflects.finds`) and how many names a table has (`Store.Reflects.size_own`).
-/

namespace Reckoner

/-! ## Edits -/

inductive Edit where
  /-- A new table, which is empty. -/
  | made (parent : Option Nat)
  | bound (table : Nat) (name : String) (value : Value)
  | unbound (table : Nat) (name : String)

namespace Edit

/-- The edit is about the name in table `i`. -/
def Touches (e : Edit) (i : Nat) (name : String) : Prop :=
  (∃ v, e = .bound i name v) ∨ e = .unbound i name

/-- The parent of the table that is made, if one is made. -/
def parent? : Edit → Option (Option Nat)
  | made parent => some parent
  | _ => none

/-- The table that is changed, if one is. -/
def table? : Edit → Option Nat
  | made _ => none
  | bound i _ _ => some i
  | unbound i _ => some i

/-- Among `n` tables the edit speaks of none that there is not. -/
def Fits (n : Nat) : Edit → Prop
  | made parent => ∀ p ∈ parent, p < n
  | bound i _ _ => i < n
  | unbound i _ => i < n

end Edit

/-- In table `i` itself the name was last bound to `v`, and not unbound since. -/
def Live (h : List Edit) (i : Nat) (name : String) (v : Value) : Prop :=
  ∃ before after, h = before ++ .bound i name v :: after ∧ ∀ e ∈ after, ¬ e.Touches i name

/-- The parents of the tables, in the order in which they were made. -/
def Edit.parents (h : List Edit) : List (Option Nat) :=
  h.filterMap parent?

/-- Every table is younger than its parent. -/
def Descending (parents : List (Option Nat)) : Prop :=
  ∀ i p : Nat, parents[i]? = some (some p) → p < i

theorem descending_concat_iff {parents : List (Option Nat)} {parent : Option Nat} :
    Descending (parents ++ [parent]) ↔ Descending parents ∧ ∀ p ∈ parent, p < parents.length := by
  constructor
  · intro h
    refine ⟨fun i p hi => h i p ?_, fun p hp => h parents.length p ?_⟩
    · rw [List.getElem?_append_left (List.getElem?_eq_some_iff.mp hi).1, hi]
    · rw [List.getElem?_concat_length, Option.mem_def.mp hp]
  · rintro ⟨hparents, hparent⟩ i p hi
    rcases Nat.lt_trichotomy i parents.length with hlt | rfl | hgt
    · rw [List.getElem?_append_left hlt] at hi
      exact hparents i p hi
    · rw [List.getElem?_concat_length] at hi
      exact hparent p (Option.some.inj hi)
    · rw [List.getElem?_eq_none (by simpa using hgt)] at hi
      cases hi

/-- What is found for the name from table `i` on: the value that it is live with in the first table on the way up where
it is live. -/
inductive Finds (h : List Edit) (name : String) : Nat → Option Value → Prop
  | here {i : Nat} {v : Value} : Live h i name v → Finds h name i (some v)
  | above {i p : Nat} {found : Option Value} : (∀ v, ¬ Live h i name v) → (Edit.parents h)[i]? = some (some p) →
      Finds h name p found → Finds h name i found
  | nowhere {i : Nat} : (∀ v, ¬ Live h i name v) → (Edit.parents h)[i]? = some none → Finds h name i none

section

variable {h : List Edit} {e : Edit} {i : Nat} {name : String} {v v' : Value}

theorem not_live_nil : ¬ Live [] i name v := by
  rintro ⟨before, after, heq, -⟩
  simp at heq

/-- After one more edit, a name is live if that bound it, or if it was live and the edit is about something else. -/
theorem live_concat_iff : Live (h ++ [e]) i name v ↔ e = .bound i name v ∨ ¬ e.Touches i name ∧ Live h i name v := by
  constructor
  · rintro ⟨before, after, heq, hafter⟩
    rcases List.eq_nil_or_concat after with rfl | ⟨after, last, rfl⟩
    · exact Or.inl (List.append_inj_right' heq rfl |> List.singleton_inj.mp)
    · rw [List.concat_eq_append, ← List.cons_append, ← List.append_assoc] at heq
      obtain ⟨rfl, hlast⟩ := List.append_inj' heq rfl
      obtain rfl := List.singleton_inj.mp hlast
      rw [List.concat_eq_append, List.forall_mem_append] at hafter
      exact Or.inr ⟨hafter.2 e (List.mem_singleton_self e), before, after, rfl, hafter.1⟩
  · rintro (rfl | ⟨htouches, before, after, rfl, hafter⟩)
    · exact ⟨h, [], rfl, fun _ he => nomatch he⟩
    · refine ⟨before, after ++ [e], by simp, ?_⟩
      exact List.forall_mem_append.mpr ⟨hafter, List.forall_mem_singleton.mpr htouches⟩

theorem Live.unique (hv : Live h i name v) (hv' : Live h i name v') : v = v' := by
  induction h using List.reverseRecOn with
  | nil => exact absurd hv not_live_nil
  | append_singleton h e ih =>
    rcases live_concat_iff.mp hv with rfl | ⟨htouches, hv⟩ <;>
      rcases live_concat_iff.mp hv' with heq | ⟨htouches', hv'⟩
    · exact (Edit.bound.inj heq).2.2
    · exact absurd (Or.inl ⟨v, rfl⟩) htouches'
    · exact absurd (Or.inl ⟨v', heq⟩) htouches
    · exact ih hv hv'

/-- There is only one answer to what is found. -/
theorem Finds.unique {found found' : Option Value} (hf : Finds h name i found) (hf' : Finds h name i found') :
    found = found' := by
  induction hf with
  | here hv =>
    cases hf' with
    | here hv' => rw [hv.unique hv']
    | above hnone _ _ | nowhere hnone _ => exact absurd hv (hnone _)
  | above hnone hparent _ ih =>
    cases hf' with
    | here hv' => exact absurd hv' (hnone _)
    | above _ hparent' hf' =>
      obtain rfl := Option.some.inj (Option.some.inj (hparent.symm.trans hparent'))
      exact ih hf'
    | nowhere _ hparent' => cases hparent.symm.trans hparent'
  | nowhere hnone hparent =>
    cases hf' with
    | here hv' => exact absurd hv' (hnone _)
    | above _ hparent' _ => cases hparent.symm.trans hparent'
    | nowhere _ _ => rfl

end

/-! ## Tables and their parents -/

namespace Store

/-- The parents of the tables, the oldest table first. -/
def parents (s : Store) : List (Option Nat) :=
  (s.map Cell.parent).reverse

@[simp] theorem length_parents (s : Store) : s.parents.length = s.length := by
  simp [parents]

theorem parents_add (s : Store) (c : Cell) : (s.add c).parents = s.parents ++ [c.parent] := by
  simp [parents, add]

@[simp] theorem parents_update (f : Table → Table) (s : Store) (i : Nat) : (s.update f i).parents = s.parents := by
  induction s with
  | nil => rfl
  | cons c older ih =>
    unfold update
    split
    · rfl
    · exact (parents_add _ c).trans ((congrArg (· ++ [c.parent]) ih).trans (parents_add older c).symm)

theorem chain_of_length_le {s : Store} {i : Nat} (h : s.length ≤ i) : s.chain i = [] := by
  induction s with
  | nil => rfl
  | cons c older ih => rw [chain, if_neg (Nat.ne_of_gt h), ih (Nat.le_of_lt h)]

/-- No table is changed by a new one without bindings. -/
theorem own_add_empty (s : Store) (parent : Option Nat) (i : Nat) :
    (s.add { table := ∅, parent }).own i = s.own i := by
  unfold own
  rcases Nat.lt_trichotomy i s.length with hlt | rfl | hgt
  · rw [chain_add_of_lt _ hlt]
  · rw [chain_add_length, chain_of_length_le (Nat.le_refl _)]
    rfl
  · rw [chain_of_length_le (Nat.le_of_lt hgt), chain_of_length_le (s := s.add _) hgt]

/-- A new table is not seen from the tables that were there. -/
theorem elim_chain_add {s : Store} {parent : Option Nat} (c : Cell) (h : ∀ p ∈ parent, p < s.length) :
    parent.elim [] (s.add c).chain = parent.elim [] s.chain := by
  cases parent with
  | none => rfl
  | some p => exact chain_add_of_lt c (h p rfl)

/-- A chain goes from a table on to that of its parent, if parents are older. -/
theorem chain_eq_of_parents {s : Store} {i : Nat} {parent : Option Nat} (hs : Descending s.parents)
    (h : s.parents[i]? = some parent) : s.chain i = s.own i :: parent.elim [] s.chain := by
  induction s with
  | nil => cases h
  | cons c older ih =>
    change Descending (add older c).parents at hs
    change (add older c).parents[i]? = some parent at h
    change (add older c).chain i = (add older c).own i :: parent.elim [] (add older c).chain
    rw [parents_add] at hs h
    obtain ⟨holder, hparent⟩ := descending_concat_iff.mp hs
    rw [length_parents] at hparent
    rcases Nat.lt_trichotomy i older.length with hlt | rfl | hgt
    · rw [List.getElem?_append_left (by simpa using hlt)] at h
      have hp : ∀ p ∈ parent, p < older.length := by
        rintro p rfl
        exact Nat.lt_trans (holder i p h) hlt
      rw [elim_chain_add c hp, own, chain_add_of_lt c hlt]
      exact ih holder h
    · rw [← length_parents, List.getElem?_concat_length] at h
      obtain rfl := Option.some.inj h
      rw [elim_chain_add c hparent, own, chain_add_length]
      rfl
    · rw [List.getElem?_eq_none (by simpa using hgt)] at h
      cases h

/-! ## What the edits say of a store -/

/-- The store after an edit. -/
def apply (s : Store) : Edit → Store
  | .made parent => s.add { table := ∅, parent }
  | .bound i name v => s.insert i name v
  | .unbound i name => s.erase i name

/-- The store is what the edits made of an empty one. -/
structure Reflects (s : Store) (h : List Edit) : Prop where
  parents : s.parents = Edit.parents h
  descending : Descending s.parents
  live : ∀ (i : Nat) (name : String) (v : Value), (s.own i)[name]? = some v ↔ Live h i name v

theorem reflects_nil : Reflects [] [] where
  parents := rfl
  descending := fun i p h => nomatch h
  live i name v := iff_of_false (by simp [own, chain]) not_live_nil

section

variable {s : Store} {h : List Edit} {e : Edit} {i : Nat} {name : String}

theorem parents_apply (s : Store) (e : Edit) : (s.apply e).parents = s.parents ++ e.parent?.toList := by
  cases e with
  | made parent => exact parents_add s _
  | bound i name v | unbound i name => exact (parents_update _ s i).trans (List.append_nil _).symm

/-- What an edit is not about stays as it is. -/
theorem getElem?_own_apply (he : e.Fits s.length) (htouches : ¬ e.Touches i name) :
    ((s.apply e).own i)[name]? = (s.own i)[name]? := by
  cases e with
  | made parent => rw [apply, own_add_empty]
  | bound j x v =>
    by_cases hi : i = j
    · subst hi
      have hx : x ≠ name := fun hx => htouches (Or.inl ⟨v, by rw [hx]⟩)
      rw [apply, insert, own_update _ he, Std.ExtTreeMap.getElem?_insert, if_neg (by simpa using hx)]
    · rw [apply, insert, own_update_of_ne s _ hi]
  | unbound j x =>
    by_cases hi : i = j
    · subst hi
      have hx : x ≠ name := fun hx => htouches (Or.inr (by rw [hx]))
      rw [apply, erase, own_update _ he, Std.ExtTreeMap.getElem?_erase, if_neg (by simpa using hx)]
    · rw [apply, erase, own_update_of_ne s _ hi]

/-- **A step of a store**: each edit keeps what the edits say. -/
theorem Reflects.apply (hs : s.Reflects h) (he : e.Fits s.length) : (s.apply e).Reflects (h ++ [e]) where
  parents := by
    rw [parents_apply, hs.parents, Edit.parents, Edit.parents, List.filterMap_append]
    cases e <;> rfl
  descending := by
    rw [parents_apply]
    cases e with
    | made parent => exact descending_concat_iff.mpr ⟨hs.descending, by rwa [length_parents]⟩
    | bound i name v | unbound i name => exact (List.append_nil s.parents).symm ▸ hs.descending
  live i name v := by
    rw [live_concat_iff]
    by_cases htouches : e.Touches i name
    · rcases htouches with ⟨w, rfl⟩ | rfl
      · rw [Store.apply, insert, own_update _ he, Std.ExtTreeMap.getElem?_insert_self]
        simp [Edit.Touches]
      · rw [Store.apply, erase, own_update _ he, Std.ExtTreeMap.getElem?_erase_self]
        simp [Edit.Touches]
    · have hne : e ≠ .bound i name v := fun h => htouches (Or.inl ⟨v, h⟩)
      rw [getElem?_own_apply he htouches, hs.live]
      simp [hne, htouches]

theorem own_apply_of_ne (s : Store) (h : e.table? ≠ some i) : (s.apply e).own i = s.own i := by
  cases e with
  | made parent => exact own_add_empty s parent i
  | bound j x v | unbound j x => exact own_update_of_ne s _ fun hi => h (congrArg some hi.symm)

/-! ## Many edits -/

def applyAll (s : Store) (es : List Edit) : Store :=
  es.foldl apply s

/-- No edit speaks of a table that there is not by then. -/
def Admits (s : Store) : List Edit → Prop
  | [] => True
  | e :: es => e.Fits s.length ∧ (s.apply e).Admits es

theorem Reflects.applyAll {es : List Edit} (hs : s.Reflects h) (hes : s.Admits es) :
    (s.applyAll es).Reflects (h ++ es) := by
  induction es generalizing s h with
  | nil => rwa [List.append_nil]
  | cons e es ih =>
    rw [← List.singleton_append, ← List.append_assoc]
    exact ih (hs.apply hes.1) hes.2

theorem own_applyAll_of_forall_ne {es : List Edit} (s : Store) (h : ∀ e ∈ es, e.table? ≠ some i) :
    (s.applyAll es).own i = s.own i := by
  induction es generalizing s with
  | nil => rfl
  | cons e es ih =>
    obtain ⟨he, hes⟩ := List.forall_mem_cons.mp h
    exact (ih (s.apply e) hes).trans (own_apply_of_ne s he)

/-! ## What is found, and how many names there are -/

/-- What a store finds for a name is what its edits say. -/
theorem Reflects.finds (hs : s.Reflects h) (hi : i < s.length) (name : String) : Finds h name i (s.get? i name) := by
  induction i using Nat.strong_induction_on with
  | _ i ih =>
    obtain ⟨parent, hparent⟩ : ∃ parent, s.parents[i]? = some parent :=
      ⟨_, List.getElem?_eq_getElem (by rwa [length_parents])⟩
    have hedits : (Edit.parents h)[i]? = some parent := by rwa [← hs.parents]
    rw [get?, chain_eq_of_parents hs.descending hparent, Table.lookup?, List.findSome?_cons]
    cases hown : (s.own i)[name]? with
    | some v => exact .here ((hs.live i name v).mp hown)
    | none =>
      have hnone : ∀ v, ¬ Live h i name v := by
        intro v hv
        rw [(hs.live i name v).mpr hv] at hown
        cases hown
      cases parent with
      | none => exact .nowhere hnone hedits
      | some p =>
        have hp : p < i := hs.descending i p hparent
        exact .above hnone hedits (ih p hp (Nat.lt_trans hp hi))

theorem Reflects.mem_own_iff (hs : s.Reflects h) : name ∈ s.own i ↔ ∃ v, Live h i name v := by
  rw [Std.ExtTreeMap.mem_iff_isSome_getElem?, Option.isSome_iff_exists]
  exact exists_congr fun v => hs.live i name v

theorem Reflects.size_own (hs : s.Reflects h) (i : Nat) : (s.own i).size = {name | ∃ v, Live h i name v}.ncard := by
  have hnames : {name | ∃ v, Live h i name v} = ↑(s.own i).keys.toFinset := by
    ext name
    rw [Set.mem_ofPred_eq, ← hs.mem_own_iff, Finset.mem_coe, List.mem_toFinset, Std.ExtTreeMap.mem_keys]
  rw [hnames, Set.ncard_coe_finset]
  refine Table.size_eq_card fun name => ?_
  rw [List.mem_toFinset, Std.ExtTreeMap.mem_keys]

end

end Store

end Reckoner
