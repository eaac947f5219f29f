import Mathlib.Order.Bounds.Defs
import Reckoner.Proofs.Grammar.Height
import Reckoner.Proofs.Grammar.Unplaced
import Reckoner.Proofs.Token.Spelling

/-!
# The deepest expressions

`deepest n` is a family of lists of tokens that takes `n` levels and has as many operators on a path as those allow:
a group around the list for one level less is raised to a power, and then multiplied and added to with a chain as long
as it may be, since each chain gives its levels back (`exists_derives_deepest`).

No list has more, and these lists are those of texts too: lexemes with blanks between them are scanned to any tokens
that can be written at all (`exists_spells`). So the greatest number of operators on a path is the same for all that is
accepted, as a list of tokens or as a text (`isGreatest_operators`).
-/

namespace Reckoner

open Token (Kind)

/-- Some lexeme stands for the kind. -/
def Token.Kind.Writable (kind : Kind) : Prop :=
  ∃ lexeme, Lexeme lexeme kind

theorem writable_of_symbol {c : Char} {kind : Kind} (h : (c, kind) ∈ symbols) : kind.Writable :=
  ⟨[c], .symbol h⟩

/-- Kinds that can be written are those of a text. -/
theorem exists_spells {kinds : List Kind} (h : ∀ kind ∈ kinds, kind.Writable) : ∃ cs, Spells cs kinds := by
  have hspace : Blanks [' '] := by decide
  induction kinds with
  | nil => exact ⟨[], spells_nil⟩
  | cons kind kinds ih =>
    obtain ⟨⟨lexeme, hlexeme⟩, hkinds⟩ := List.forall_mem_cons.mp h
    obtain ⟨cs, hcs⟩ := ih hkinds
    exact ⟨_, .lexeme hlexeme hspace (endsAll_cons rfl (by decide) cs kind) hcs⟩

namespace Expr

/-! ## The family -/

/-- The operator of the chain with the operand `1`, `k` times. -/
def Chain.ones (c : Chain) (k : Nat) : List Token :=
  (List.replicate k [c.token, one]).flatten

/-- One level more: `(ts) ^ 1 * 1 * … * 1 + 1 + … + 1`, with `k` times `*` and `k` times `+`. -/
def deepen (k : Nat) (ts : List Token) : List Token :=
  ⟨.leftParen, nowhere⟩ :: (ts ++ [⟨.rightParen, nowhere⟩]) ++ [⟨.caret, nowhere⟩, one]
    ++ Chain.product.ones k ++ Chain.sum.ones k

/-- The deepest tokens for `n` levels. -/
def deepest : Nat → List Token
  | 0 => [one]
  | n + 1 => deepen (n + 1) (deepest n)

/-- Both chains of a level come on top of what it holds. -/
theorem exists_derives_deepen {d k : Nat} {ts : List Token} {inner : Expr} (h : Derives .expression (d + 1) ts inner)
    (hd : d + 1 ≤ maxDepth) (hk : d + k ≤ maxDepth) : ∃ tree, Derives .expression d (deepen k ts) tree ∧
      tree.depth isOperation = inner.depth isOperation + 1 + k + k := by
  let one : Expr := literal (.int 1) nowhere
  have hpower : Derives .factor d _ (operate inner .pow one) :=
    .unsigned (.raised nowhere (.group nowhere nowhere hd h) hd (derives_factor_number (d + 1) (.int 1) nowhere))
  obtain ⟨product, hproduct, hm⟩ := exists_folded (c := .product) hpower hk
  obtain ⟨sum, hsum, hn⟩ := exists_folded (c := .sum) (.chain hproduct) hk
  refine ⟨sum, .sum (.chain hsum), ?_⟩
  rw [hn, hm, depth_operate]
  exact congrArg (· + 1 + k + k) (Nat.max_zero _)

/-- As many operators as the levels allow. -/
theorem exists_derives_deepest {n d : Nat} (h : d + n ≤ maxDepth) :
    ∃ tree, Derives .expression d (deepest n) tree ∧ tree.depth isOperation = n * (n + 2) := by
  induction n generalizing d with
  | zero =>
    have hfactor : Derives .factor d [one] (literal (.int 1) nowhere) := derives_factor_number d (.int 1) nowhere
    exact ⟨_, .sum (.chain (.first (.chain (.first hfactor)))), rfl⟩
  | succ n ih =>
    obtain ⟨inner, hinner, hdepth⟩ := ih (d := d + 1) (by omega)
    obtain ⟨tree, htree, hdepth'⟩ := exists_derives_deepen (k := n + 1) hinner (by omega) h
    refine ⟨tree, htree, ?_⟩
    rw [hdepth', hdepth]
    ring

/-! ## The family in texts -/

theorem writable_one : one.kind.Writable :=
  ⟨['1'], .integer (List.cons_ne_nil _ _) (by decide) rfl⟩

theorem Chain.writable_token (c : Chain) : c.token.kind.Writable := by
  cases c with
  | sum => exact writable_of_symbol (c := '+') (by simp [symbols, token])
  | product => exact writable_of_symbol (c := '*') (by simp [symbols, token])

theorem Chain.writable_ones (c : Chain) (k : Nat) : ∀ t ∈ c.ones k, t.kind.Writable := by
  have hboth : ∀ t ∈ [c.token, one], t.kind.Writable := by
    simp only [List.forall_mem_cons]
    exact ⟨c.writable_token, writable_one, by simp⟩
  intro t ht
  obtain ⟨ts, hts, ht⟩ := List.mem_flatten.mp ht
  rw [List.eq_of_mem_replicate hts] at ht
  exact hboth t ht

theorem writable_deepest (n : Nat) : ∀ t ∈ deepest n, t.kind.Writable := by
  have hleft : Kind.leftParen.Writable := writable_of_symbol (c := '(') (by simp [symbols])
  have hright : Kind.rightParen.Writable := writable_of_symbol (c := ')') (by simp [symbols])
  have hcaret : Kind.caret.Writable := writable_of_symbol (c := '^') (by simp [symbols])
  induction n with
  | zero => exact List.forall_mem_singleton.mpr writable_one
  | succ n ih =>
    simp only [deepest, deepen, List.forall_mem_append, List.forall_mem_cons]
    exact ⟨⟨⟨⟨hleft, ih, hright, by simp⟩, hcaret, writable_one, by simp⟩, Chain.product.writable_ones _⟩,
      Chain.sum.writable_ones _⟩

/-- Depth is no matter of spans. -/
theorem depth_unplaced (e : Expr) : e.unplaced.depth isOperation = e.depth isOperation := by
  induction e with
  | literal _ _ | access _ _ => rfl
  | unary op operand s ih | assign k name value s ih => exact congrArg (_ + ·) ih
  | binary left op right s ihl ihr =>
    rw [unplaced, depth, depth, ihl, ihr]
    rfl

/-! ## The greatest depth -/

/-- A list that is accepted, and whose tokens can be written, is one of a text that is accepted, with as deep a tree. -/
theorem exists_ofSource_of_ofTokens {ts : List Token} {stop : Token} {tree : Expr}
    (h : ofTokens (ts ++ [stop]) = .ok tree) (hstop : stop.kind = .eof) (hts : ∀ t ∈ ts, t.kind.Writable) :
    ∃ source tree', ofSource source = .ok tree' ∧ tree'.depth isOperation = tree.depth isOperation := by
  obtain ⟨cs, hcs⟩ := exists_spells (List.forall_mem_map.mpr hts)
  let source : Source := ⟨"<stdin>", String.ofList cs⟩
  have htext : Spells source.text.toList (ts.map Token.kind) := by rwa [String.toList_ofList]
  obtain ⟨us, hscan, hkinds⟩ := htext.exists_scan
  have hsame : us.map Token.kind = (ts ++ [stop]).map Token.kind := by
    rw [hkinds, List.map_append, List.map_singleton, hstop]
  rcases ofTokens_of_map_kind_eq (Token.terminated_of_scan hscan) hsame with
    ⟨tree', tree'', htree', htree'', hspans⟩ | ⟨_, _, _, _, _, _, _, herror⟩
  · rw [h] at htree''
    cases htree''
    exact ⟨source, tree', ofSource_eq_ok_iff.mpr ⟨us, hscan, htree'⟩, by rw [← depth_unplaced, hspans, depth_unplaced]⟩
  · rw [h] at herror
    cases herror

/-- The list for all levels is accepted. -/
theorem exists_ofTokens_deepest : ∃ tree, ofTokens (deepest maxDepth ++ [⟨.eof, nowhere⟩]) = .ok tree ∧
    tree.depth isOperation = maxDepth ^ 2 + 2 * maxDepth := by
  obtain ⟨tree, hder, hdepth⟩ := exists_derives_deepest (n := maxDepth) (d := 0) (by omega)
  exact ⟨tree, ofTokens_of_derives isEof_eof [] hder, by rw [hdepth]; ring⟩

/-- No list is deeper. -/
theorem operators_le_of_ofTokens {ts : List Token} {tree : Expr} (h : ofTokens ts = .ok tree) :
    ∀ path ∈ tree.paths, path.countP isOperation ≤ maxDepth ^ 2 + 2 * maxDepth := by
  refine depth_le_iff.mp ((ofTokens_eq_ok_iff.mp h).operators_le.trans_eq ?_)
  simp only [Rule.operatorLimit, Nat.sub_zero]
  ring

/-- **The deepest nesting**: among all lists of tokens that are accepted, the greatest number of operators on a path
from the root to a leaf is `maxDepth ^ 2 + 2 * maxDepth`; among all texts too. -/
theorem isGreatest_operators :
    IsGreatest {n | ∃ ts tree, ofTokens ts = .ok tree ∧ ∃ path ∈ tree.paths, path.countP isOperation = n}
      (maxDepth ^ 2 + 2 * maxDepth) ∧
    IsGreatest {n | ∃ source tree, ofSource source = .ok tree ∧ ∃ path ∈ tree.paths, path.countP isOperation = n}
      (maxDepth ^ 2 + 2 * maxDepth) := by
  obtain ⟨tree, htree, hdepth⟩ := exists_ofTokens_deepest
  refine ⟨⟨⟨_, tree, htree, hdepth ▸ exists_countP_eq_depth tree⟩, ?_⟩, ⟨?_, ?_⟩⟩
  · rintro n ⟨ts, tree, htree, path, hpath, rfl⟩
    exact operators_le_of_ofTokens htree path hpath
  · obtain ⟨source, tree', htree', hdepth'⟩ := exists_ofSource_of_ofTokens htree rfl (writable_deepest maxDepth)
    exact ⟨source, tree', htree', hdepth ▸ hdepth' ▸ exists_countP_eq_depth tree'⟩
  · rintro n ⟨source, tree, htree, path, hpath, rfl⟩
    obtain ⟨ts, -, htree⟩ := ofSource_eq_ok_iff.mp htree
    exact operators_le_of_ofTokens htree path hpath

end Expr

end Reckoner
