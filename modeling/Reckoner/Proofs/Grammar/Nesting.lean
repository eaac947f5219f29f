import Mathlib.Tactic.Ring
import Reckoner.Proofs.Grammar.Reading

/-!
# How deep accepted expressions nest

`depth p e` is the most nodes with the property `p` on a path from the root of `e` to a leaf.

A chain gives its levels back at its end, after its first operand was read with all of them. So operators may lie on
each other along first operands: with room `r`, a product of `r` operators under a sum of `r`, and in front of it a
group that has room `r - 1` and is raised to a power. The operators on a path are at most `Rule.operatorLimit` many
(`Derives.operators_le`), which is `maxDepth * (maxDepth + 2)` for a whole text, and no limit below that holds
(`exists_derives_of_le`, `operators_le_iff`).

It is the left operands that go uncounted: all other turns of a path are `maxDepth` at most
(`Derives.turns_others_le`), so `maxDepth` bounds the operators of a tree where its left operands leave them that
room (`operators_le_maxDepth_iff`).
-/

namespace Reckoner.Expr

/-! ## Paths and depth -/

/-- The nodes that compute: signs and operators. -/
def isOperation : Expr → Bool
  | unary _ _ _ | binary _ _ _ _ => true
  | _ => false

def isDeclaration : Expr → Bool
  | assign _ _ _ _ => true
  | _ => false

/-- The nodes from the root to a leaf, for every leaf. -/
def paths : Expr → List (List Expr)
  | e@(literal _ _) => [[e]]
  | e@(access _ _) => [[e]]
  | e@(unary _ operand _) => operand.paths.map (e :: ·)
  | e@(binary left _ right _) => (left.paths ++ right.paths).map (e :: ·)
  | e@(assign _ _ value _) => value.paths.map (e :: ·)

/-- The most nodes with the property on a path from the root to a leaf. -/
def depth (p : Expr → Bool) : Expr → Nat
  | e@(literal _ _) => (p e).toNat
  | e@(access _ _) => (p e).toNat
  | e@(unary _ operand _) => (p e).toNat + operand.depth p
  | e@(binary left _ right _) => (p e).toNat + max (left.depth p) (right.depth p)
  | e@(assign _ _ value _) => (p e).toNat + value.depth p

variable {p : Expr → Bool}

theorem countP_cons_toNat (e : Expr) (path : List Expr) : (e :: path).countP p = (p e).toNat + path.countP p := by
  rw [List.countP_cons]
  cases p e <;> simp [Nat.add_comm]

theorem countP_le_depth (e : Expr) : ∀ path ∈ e.paths, path.countP p ≤ e.depth p := by
  induction e with
  | literal _ _ | access _ _ =>
    simp only [paths, List.mem_singleton, forall_eq, countP_cons_toNat, depth]
    exact Nat.le_refl _
  | unary op operand s ih | assign k name operand s ih =>
    simp only [paths, List.mem_map, depth, forall_exists_index, and_imp]
    rintro _ path hpath rfl
    rw [countP_cons_toNat]
    exact Nat.add_le_add_left (ih path hpath) _
  | binary left op right s ihl ihr =>
    simp only [paths, List.mem_map, List.mem_append, depth, forall_exists_index, and_imp]
    rintro _ path hpath rfl
    rw [countP_cons_toNat]
    refine Nat.add_le_add_left ?_ _
    rcases hpath with h | h
    · exact (ihl path h).trans (Nat.le_max_left _ _)
    · exact (ihr path h).trans (Nat.le_max_right _ _)

theorem exists_countP_eq_depth (e : Expr) : ∃ path ∈ e.paths, path.countP p = e.depth p := by
  induction e with
  | literal _ _ | access _ _ => exact ⟨_, List.mem_singleton_self _, countP_cons_toNat _ _⟩
  | unary op operand s ih | assign k name operand s ih =>
    obtain ⟨path, hpath, hp⟩ := ih
    exact ⟨_, List.mem_map_of_mem hpath, by rw [countP_cons_toNat, hp, depth]⟩
  | binary left op right s ihl ihr =>
    obtain ⟨path₁, hpath₁, hp₁⟩ := ihl
    obtain ⟨path₂, hpath₂, hp₂⟩ := ihr
    rcases Nat.le_total (left.depth p) (right.depth p) with h | h
    · refine ⟨_, List.mem_map_of_mem (List.mem_append_right _ hpath₂), ?_⟩
      rw [countP_cons_toNat, hp₂, depth, Nat.max_eq_right h]
    · refine ⟨_, List.mem_map_of_mem (List.mem_append_left _ hpath₁), ?_⟩
      rw [countP_cons_toNat, hp₁, depth, Nat.max_eq_left h]

/-- The depth bounds the paths, and one path has it. -/
theorem depth_le_iff {e : Expr} {n : Nat} : e.depth p ≤ n ↔ ∀ path ∈ e.paths, path.countP p ≤ n := by
  constructor
  · intro h path hpath
    exact (countP_le_depth e path hpath).trans h
  · intro h
    obtain ⟨path, hpath, hp⟩ := exists_countP_eq_depth (p := p) e
    exact hp ▸ h path hpath

theorem depth_sign (op : Sign) (s : Span) (operand : Expr) :
    (sign op s operand).depth isOperation = operand.depth isOperation + 1 := by
  rw [sign, depth]
  exact Nat.add_comm _ _

theorem depth_operate (left : Expr) (op : Op) (right : Expr) : (operate left op right).depth isOperation =
    max (left.depth isOperation) (right.depth isOperation) + 1 := by
  rw [operate, depth]
  exact Nat.add_comm _ _

theorem depth_declare (k : Keyword) (name : String) (s : Span) (value : Expr) :
    (declare k name s value).depth isOperation = value.depth isOperation := by
  rw [declare, depth]
  exact Nat.zero_add _

/-! ## The operators on a path -/

/-- The most operators on a path of what the rule derives with the room `r`. -/
def Rule.operatorLimit : Rule → Nat → Nat
  | expression, r | chain .sum, r => r * (r + 2)
  | chain .product, r => r * (r + 1)
  | factor, r | power, r => r * r
  | atom, r => r * r - 1

theorem Rule.operatorLimit_mono (rule : Rule) {r r' : Nat} (h : r ≤ r') :
    rule.operatorLimit r ≤ rule.operatorLimit r' := by
  cases rule with
  | chain c => cases c <;> exact Nat.mul_le_mul h (Nat.add_le_add_right h _)
  | expression => exact Nat.mul_le_mul h (Nat.add_le_add_right h _)
  | factor | power => exact Nat.mul_le_mul h h
  | atom => exact Nat.sub_le_sub_right (Nat.mul_le_mul h h) 1

theorem Chain.operatorLimit_eq (c : Chain) (r : Nat) :
    (Rule.chain c).operatorLimit r = r + c.operand.operatorLimit r := by
  cases c <;> simp only [Rule.operatorLimit, operand] <;> ring

theorem Rule.operatorLimit_atom_succ (r : Nat) :
    Rule.atom.operatorLimit (r + 1) = Rule.expression.operatorLimit r := by
  have hsquare : (r + 1) * (r + 1) = r * (r + 2) + 1 := by ring
  simp only [operatorLimit, hsquare, Nat.add_sub_cancel]

theorem Rule.operatorLimit_factor_succ (r : Nat) :
    Rule.factor.operatorLimit (r + 1) = Rule.expression.operatorLimit r + 1 := by
  simp only [operatorLimit]
  ring

theorem Rule.operatorLimit_factor_le (r : Nat) : Rule.factor.operatorLimit r ≤ Rule.expression.operatorLimit r :=
  Nat.mul_le_mul_left r (Nat.le_add_right r 2)

/-- With `d` levels taken, the operators on a path are as many at most as the room left admits. The operators of a chain
come on top of those of its first operand, which was read with the same room. -/
theorem Derives.operators_le {rule : Rule} {d : Nat} {ts : List Token} {tree : Expr} (h : Derives rule d ts tree) :
    tree.depth isOperation ≤ rule.operatorLimit (maxDepth - d) := by
  induction h using Derives.rec (motive_2 := fun c d k _ tree _ =>
    k ≤ maxDepth - d ∧ tree.depth isOperation ≤ k + c.operand.operatorLimit (maxDepth - d)) with
  | declaration k name s nameSpan s' _ ih =>
    rw [depth_declare]
    exact ih
  | sum _ ih | unsigned _ ih => exact ih
  | chain _ ih =>
    rw [Chain.operatorLimit_eq]
    omega
  | signed _ hd _ ih =>
    rw [depth_sign, room_eq_succ hd, Rule.operatorLimit_factor_succ]
    exact Nat.succ_le_succ (ih.trans (Rule.operatorLimit_factor_le _))
  | base _ ih => exact ih.trans (Nat.sub_le _ _)
  | raised s _ hd _ ih₁ ih₂ =>
    rw [room_eq_succ hd, Rule.operatorLimit_atom_succ] at ih₁
    rw [depth_operate, room_eq_succ hd]
    refine (Nat.succ_le_succ (Nat.max_le.mpr ⟨ih₁, ?_⟩)).trans_eq (Rule.operatorLimit_factor_succ _).symm
    exact ih₂.trans (Rule.operatorLimit_factor_le _)
  | number n s | identifier name s => exact Nat.zero_le _
  | group s s' hd _ ih =>
    rw [room_eq_succ hd, Rule.operatorLimit_atom_succ]
    exact ih
  | first _ ih => exact ⟨Nat.zero_le _, by rwa [Nat.zero_add]⟩
  | @next c d k _ _ _ _ _ _ _ _ hd _ ih₁ ih₂ =>
    have hmono := c.operand.operatorLimit_mono (Nat.sub_le_sub_left (Nat.le_add_right d (k + 1)) maxDepth)
    rw [depth_operate]
    omega

/-! ## First operands -/

/-- How often a path goes on with a left operand, and how often with a right one or with the operand of a sign. -/
structure Turns where
  left : Nat
  others : Nat

/-- The turns of the paths. -/
def turns : Expr → List Turns
  | literal _ _ => [⟨0, 0⟩]
  | access _ _ => [⟨0, 0⟩]
  | unary _ operand _ => operand.turns.map fun t => ⟨t.left, t.others + 1⟩
  | binary left _ right _ =>
    left.turns.map (fun t => ⟨t.left + 1, t.others⟩) ++ right.turns.map fun t => ⟨t.left, t.others + 1⟩
  | assign _ _ value _ => value.turns

/-- A path turns at each of its operators. -/
theorem forall_paths_iff_turns (q : Nat → Prop) (e : Expr) :
    (∀ path ∈ e.paths, q (path.countP isOperation)) ↔ ∀ t ∈ e.turns, q (t.left + t.others) := by
  have hleft : ∀ t : Turns, 1 + (t.left + t.others) = t.left + 1 + t.others := by
    intro t
    omega
  have hothers : ∀ t : Turns, 1 + (t.left + t.others) = t.left + (t.others + 1) := by
    intro t
    omega
  induction e generalizing q with
  | literal _ _ | access _ _ => simp [paths, turns, isOperation]
  | unary op operand s ih =>
    simp only [paths, turns, List.forall_mem_map, countP_cons_toNat, isOperation, Bool.toNat_true, ← hothers]
    exact ih (fun n => q (1 + n))
  | binary left op right s ihl ihr =>
    simp only [paths, turns, List.forall_mem_map, List.forall_mem_append, countP_cons_toNat, isOperation,
      Bool.toNat_true, ← hothers, ← hleft]
    exact and_congr (ihl fun n => q (1 + n)) (ihr fun n => q (1 + n))
  | assign k name value s ih =>
    simp only [paths, turns, List.forall_mem_map, countP_cons_toNat, isOperation, Bool.toNat_false, Nat.zero_add]
    exact ih q

/-- Every turn but those to a left operand takes a level, which is kept to the end of the path. -/
theorem Derives.turns_others_le {rule : Rule} {d : Nat} {ts : List Token} {tree : Expr} (h : Derives rule d ts tree) :
    d ≤ maxDepth → ∀ t ∈ tree.turns, d + t.others ≤ maxDepth := by
  induction h using Derives.rec (motive_2 := fun _ d _ _ tree _ =>
    d ≤ maxDepth → ∀ t ∈ tree.turns, d + t.others ≤ maxDepth) with
  | declaration k name s nameSpan s' _ ih => exact ih
  | sum _ ih | chain _ ih | unsigned _ ih | base _ ih => exact ih
  | signed _ hd _ ih =>
    intro _
    simp only [sign, turns, List.forall_mem_map]
    intro t ht
    have := ih hd t ht
    omega
  | raised s _ hd _ ih₁ ih₂ =>
    intro hd'
    simp only [operate, turns, List.forall_mem_append, List.forall_mem_map]
    refine ⟨ih₁ hd', ?_⟩
    intro t ht
    have := ih₂ hd t ht
    omega
  | number n s | identifier name s =>
    intro hd
    simpa [literal, access, turns] using hd
  | group s s' hd _ ih =>
    intro _ t ht
    have := ih hd t ht
    omega
  | first _ ih hd t ht => exact ih hd t ht
  | next _ _ hd _ ih₁ ih₂ hd' t ht =>
    simp only [operate, turns, List.mem_append, List.mem_map] at ht
    rcases ht with ⟨u, hu, rfl⟩ | ⟨u, hu, rfl⟩
    · exact ih₁ hd' u hu
    · have := ih₂ hd u hu
      dsimp only
      omega

/-- What is accepted nests `maxDepth` operators at most, where left operands are not counted. So its paths have
`maxDepth` operators at most if and only if their left operands are as few as the others leave room for. -/
theorem operators_le_maxDepth_iff {ts : List Token} {tree : Expr} (h : ofTokens ts = .ok tree) :
    (∀ path ∈ tree.paths, path.countP isOperation ≤ maxDepth) ↔ ∀ t ∈ tree.turns, t.left ≤ maxDepth - t.others := by
  have hothers := (ofTokens_eq_ok_iff.mp h).turns_others_le (Nat.zero_le _)
  rw [forall_paths_iff_turns (· ≤ maxDepth)]
  refine forall₂_congr ?_
  intro t ht
  have := hothers t ht
  omega

/-! ## Every depth up to the limit occurs -/

def one : Token :=
  ⟨.number (.int 1), nowhere⟩

theorem isEof_eof : Token.isEof ⟨.eof, nowhere⟩ = true := rfl

/-- An operator of the chain. -/
def Chain.token : Chain → Token
  | sum => ⟨.plus, nowhere⟩
  | product => ⟨.star, nowhere⟩

theorem Chain.exists_op?_token (c : Chain) : ∃ op, c.op? c.token.kind = some op := by
  cases c <;> exact ⟨_, rfl⟩

theorem derives_factor_number (d : Nat) (n : Number) (s : Span) :
    Derives .factor d [⟨.number n, s⟩] (literal n s) :=
  .unsigned (.base (.number n s))

theorem derives_operand_number (c : Chain) (d : Nat) (n : Number) (s : Span) :
    Derives c.operand d [⟨.number n, s⟩] (literal n s) := by
  cases c with
  | sum => exact .chain (.first (derives_factor_number d n s))
  | product => exact derives_factor_number d n s

/-- A chain folds its first operand as many levels deeper as it has operators. -/
theorem exists_folded {c : Chain} {d k : Nat} {ts : List Token} {left : Expr} (h : Derives c.operand d ts left)
    (hk : d + k ≤ maxDepth) : ∃ tree, Folded c d k (ts ++ (List.replicate k [c.token, one]).flatten) tree ∧
      tree.depth isOperation = left.depth isOperation + k := by
  induction k with
  | zero => exact ⟨left, by simpa using Folded.first h, rfl⟩
  | succ k ih =>
    obtain ⟨tree, hfold, hdepth⟩ := ih (by omega)
    obtain ⟨op, hop⟩ := c.exists_op?_token
    have hnext := Folded.next hfold hop hk (derives_operand_number c (d + (k + 1)) (.int 1) nowhere)
    refine ⟨_, by simpa [List.replicate_succ', one] using hnext, ?_⟩
    rw [depth_operate, hdepth]
    simp only [depth, isOperation, Bool.toNat_false]
    omega

/-- Under a sum and a product with all the room there is, a factor comes as deep as an expression may. -/
theorem exists_expression_of_exists_factor {room d n : Nat} (hd : room + d = maxDepth)
    (hfactor : ∀ m ≤ Rule.factor.operatorLimit room,
      ∃ ts tree, Derives .factor d ts tree ∧ tree.depth isOperation = m)
    (hn : n ≤ Rule.expression.operatorLimit room) :
    ∃ ts tree, Derives .expression d ts tree ∧ tree.depth isOperation = n := by
  have hlimit : Rule.expression.operatorLimit room = room + (room + Rule.factor.operatorLimit room) := by
    simp only [Rule.operatorLimit]
    ring
  obtain ⟨ts, left, hleft, hm⟩ := hfactor (n - min n room - min (n - min n room) room) (by omega)
  obtain ⟨middle, hmiddle, hm'⟩ := exists_folded (c := .product) (k := min (n - min n room) room) hleft (by omega)
  obtain ⟨tree, htree, hm''⟩ := exists_folded (c := .sum) (k := min n room) (.chain hmiddle) (by omega)
  exact ⟨_, tree, .sum (.chain htree), by omega⟩

theorem exists_factor_of_le (room : Nat) {d n : Nat} (hd : room + d = maxDepth)
    (hn : n ≤ Rule.factor.operatorLimit room) :
    ∃ ts tree, Derives .factor d ts tree ∧ tree.depth isOperation = n := by
  induction room generalizing d n with
  | zero => exact ⟨_, _, derives_factor_number d (.int 1) nowhere, (Nat.le_zero.mp hn).symm⟩
  | succ room ih =>
    cases n with
    | zero => exact ⟨_, _, derives_factor_number d (.int 1) nowhere, rfl⟩
    | succ n =>
      rw [Rule.operatorLimit_factor_succ] at hn
      obtain ⟨ts, inner, hinner, hm⟩ :=
        exists_expression_of_exists_factor (d := d + 1) (by omega) (fun m hm => ih (by omega) hm)
          (Nat.le_of_succ_le_succ hn)
      refine ⟨_, _, .unsigned (.raised nowhere (.group nowhere nowhere (by omega) hinner) (by omega)
        (derives_factor_number (d + 1) (.int 1) nowhere)), ?_⟩
      rw [depth_operate, hm]
      simp only [depth, isOperation, Bool.toNat_false]
      omega

/-- Every number of operators up to the limit lies on some path of what is accepted. -/
theorem exists_derives_of_le {n : Nat} (hn : n ≤ Rule.expression.operatorLimit maxDepth) :
    ∃ ts tree, Derives .expression 0 ts tree ∧ tree.depth isOperation = n :=
  exists_expression_of_exists_factor (Nat.add_zero _) (fun _ hm => exists_factor_of_le maxDepth (Nat.add_zero _) hm) hn

/-- **The limit that is kept**: that no path of what is accepted has more than `limit` operators is true if and only if
`limit` is `maxDepth * (maxDepth + 2)` at least. A single tree keeps to `maxDepth` operators if and only if none of its
paths has more left operands than the other turns of the path leave room for. -/
theorem operators_le_iff (limit : Nat) :
    ((∀ ts tree, ofTokens ts = .ok tree → ∀ path ∈ tree.paths, path.countP isOperation ≤ limit) ↔
      maxDepth * (maxDepth + 2) ≤ limit) ∧
    ∀ ts tree, ofTokens ts = .ok tree → ((∀ path ∈ tree.paths, path.countP isOperation ≤ maxDepth) ↔
      ∀ t ∈ tree.turns, t.left ≤ maxDepth - t.others) := by
  constructor
  · constructor
    · intro h
      obtain ⟨ts, tree, hder, hdepth⟩ := exists_derives_of_le (Nat.le_refl _)
      have hle := depth_le_iff.mpr (h _ tree (ofTokens_of_derives isEof_eof [] hder))
      rwa [hdepth] at hle
    · intro hlimit ts tree htree
      exact depth_le_iff.mp ((ofTokens_eq_ok_iff.mp htree).operators_le.trans hlimit)
  · intro ts tree h
    exact operators_le_maxDepth_iff h

/-- `1 * 1 * … * 1 + 1` with `maxDepth` times `*` is accepted, and its first operand lies below one operator more than
`maxDepth`. -/
theorem operators_exceed_maxDepth : ∃ tree,
    ofTokens ([one] ++ (List.replicate maxDepth [Chain.product.token, one]).flatten ++
      [Chain.sum.token, one, ⟨.eof, nowhere⟩]) = .ok tree ∧
    ∃ path ∈ tree.paths, maxDepth < path.countP isOperation := by
  obtain ⟨left, hleft, hl⟩ :=
    exists_folded (c := .product) (k := maxDepth) (derives_factor_number 0 (.int 1) nowhere) (by decide)
  obtain ⟨tree, htree, ht⟩ := exists_folded (c := .sum) (k := 1) (.chain hleft) (by decide)
  refine ⟨tree, ?_, ?_⟩
  · have h := ofTokens_of_derives isEof_eof [] (.sum (.chain htree))
    simpa [one] using h
  · obtain ⟨path, hpath, hp⟩ := exists_countP_eq_depth (p := isOperation) tree
    exact ⟨path, hpath, by omega⟩

end Reckoner.Expr
