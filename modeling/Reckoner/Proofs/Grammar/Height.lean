import Mathlib.Data.Set.Defs
import Reckoner.Proofs.Grammar.Nesting
import Reckoner.Session

/-!
# The height of what a text holds

The height of a tree counts all nodes above a leaf, declarations among them. A declaration takes no level, so a text can
nest as many of them as it likes, and there is no height that all texts keep to (`exists_ofSource_of_declarations`).
They are the only way to grow: apart from them a path is no longer than operators allow (`height_le`), and the trees of
some texts keep to a height if and only if they keep to a number of nested declarations (`height_bounded_iff`).
-/

namespace Reckoner.Expr

/-- The most nodes above a leaf. -/
def height (e : Expr) : Nat :=
  e.depth fun node => node.isOperation || node.isDeclaration

theorem depth_or_le (p q : Expr → Bool) (e : Expr) :
    e.depth (fun node => p node || q node) ≤ e.depth p + e.depth q := by
  have hnode : ∀ node, (p node || q node).toNat ≤ (p node).toNat + (q node).toNat := by
    intro node
    cases p node <;> cases q node <;> decide
  induction e with
  | literal _ _ | access _ _ => exact hnode _
  | unary op operand s ih => have := hnode (unary op operand s); simp only [depth]; omega
  | binary left op right s ihl ihr => have := hnode (binary left op right s); simp only [depth]; omega
  | assign k name value s ih => have := hnode (assign k name value s); simp only [depth]; omega

theorem declarations_le_height (e : Expr) : e.depth isDeclaration ≤ e.height := by
  rw [depth_le_iff]
  intro path hpath
  have hcount : path.countP isDeclaration ≤ path.countP fun node => node.isOperation || node.isDeclaration := by
    refine List.countP_mono_left ?_
    intro node _ h
    rw [h, Bool.or_true]
  exact hcount.trans (countP_le_depth e path hpath)

theorem ofSource_eq_ok_iff {source : Source} {tree : Expr} :
    ofSource source = .ok tree ↔ ∃ ts, Token.scan source = .ok ts ∧ ofTokens ts = .ok tree :=
  Except.bind_eq_ok_iff

theorem height_le {ts : List Token} {tree : Expr} (h : ofTokens ts = .ok tree) :
    tree.height ≤ maxDepth * (maxDepth + 2) + tree.depth isDeclaration :=
  (depth_or_le _ _ tree).trans (Nat.add_le_add_right (ofTokens_eq_ok_iff.mp h).operators_le _)

/-! ## Nested declarations -/

/-- The text `var a=var a=…1` with `n` declarations. -/
def nestedDeclarations : Nat → List Char
  | 0 => ['1']
  | n + 1 => 'v' :: 'a' :: 'r' :: ' ' :: 'a' :: '=' :: nestedDeclarations n

theorem exists_scanAt_nestedDeclarations (n : Nat) (p : Position) : ∃ ts stop tree,
    Token.scanAt p (nestedDeclarations n) = .ok (ts ++ [stop]) ∧ stop.isEof = true ∧
    Derives .expression 0 ts tree ∧ tree.depth isDeclaration = n := by
  induction n generalizing p with
  | zero =>
    let q := p.advanceAll ['1']
    refine ⟨[⟨.number (.int 1), ⟨p, q⟩⟩], ⟨.eof, .atEnd q⟩, literal (.int 1) ⟨p, q⟩, ?_, rfl,
      .sum (.chain (.first (derives_operand_number .sum 0 (.int 1) ⟨p, q⟩))), rfl⟩
    have hm : munch '1' [] = (['1'], []) := rfl
    rw [nestedDeclarations, Token.scanAt_lexeme (by decide) hm rfl, Token.scanAt_nil]
    rfl
  | succ n ih =>
    let q₁ := p.advanceAll ['v', 'a', 'r']
    let q₂ := q₁.advance ' '
    let q₃ := q₂.advanceAll ['a']
    let q₄ := q₃.advanceAll ['=']
    obtain ⟨ts, stop, tree, hscan, hstop, hder, hdepth⟩ := ih q₄
    refine ⟨_, stop, _, ?_, hstop, .declaration .varKeyword "a" ⟨p, q₁⟩ ⟨q₂, q₃⟩ ⟨q₃, q₄⟩ hder, ?_⟩
    · have hvar (cs : List Char) : munch 'v' ('a' :: 'r' :: ' ' :: cs) = (['v', 'a', 'r'], ' ' :: cs) := rfl
      have hname (cs : List Char) : munch 'a' ('=' :: cs) = (['a'], '=' :: cs) := rfl
      have hequal (cs : List Char) : munch '=' cs = (['='], cs) := rfl
      rw [nestedDeclarations, Token.scanAt_lexeme (by decide) (hvar _) rfl, Token.scanAt_blank (by decide),
        Token.scanAt_lexeme (by decide) (hname _) rfl, Token.scanAt_lexeme (by decide) (hequal _) rfl, hscan]
      rfl
    · rw [declare, depth, hdepth]
      exact Nat.add_comm _ _

/-- A text nests as many declarations as it likes. -/
theorem exists_ofSource_of_declarations (n : Nat) : ∃ tree,
    ofSource ⟨"<stdin>", String.ofList (nestedDeclarations n)⟩ = .ok tree ∧ tree.depth isDeclaration = n := by
  let source : Source := ⟨"<stdin>", String.ofList (nestedDeclarations n)⟩
  obtain ⟨ts, stop, tree, hscan, hstop, hder, hdepth⟩ := exists_scanAt_nestedDeclarations n source.start
  refine ⟨tree, ofSource_eq_ok_iff.mpr ⟨ts ++ [stop], ?_, ofTokens_of_derives hstop [] hder⟩, hdepth⟩
  simpa [Token.scan, source] using hscan

/-- **What bounds the height**: the operators of a path are bounded for every text, so the trees of some texts have
bounded height if and only if the declarations nested in them are bounded. -/
theorem height_bounded_iff (texts : Set Source) :
    (∀ source ∈ texts, ∀ tree, ofSource source = .ok tree →
      tree.height ≤ maxDepth * (maxDepth + 2) + tree.depth isDeclaration) ∧
    ((∃ limit, ∀ source ∈ texts, ∀ tree, ofSource source = .ok tree → tree.height ≤ limit) ↔
      ∃ count, ∀ source ∈ texts, ∀ tree, ofSource source = .ok tree → tree.depth isDeclaration ≤ count) := by
  have hlimit : ∀ source tree, ofSource source = .ok tree →
      tree.height ≤ maxDepth * (maxDepth + 2) + tree.depth isDeclaration := by
    intro source tree h
    obtain ⟨ts, _, htree⟩ := ofSource_eq_ok_iff.mp h
    exact height_le htree
  refine ⟨fun source _ => hlimit source, ?_, ?_⟩
  · rintro ⟨limit, h⟩
    refine ⟨limit, ?_⟩
    intro source hs tree htree
    exact (declarations_le_height tree).trans (h source hs tree htree)
  · rintro ⟨count, h⟩
    refine ⟨maxDepth * (maxDepth + 2) + count, ?_⟩
    intro source hs tree htree
    exact (hlimit source tree htree).trans (Nat.add_le_add_left (h source hs tree htree) _)

/-- Two hundred declarations nest in a text that is accepted, and no height bounds the trees of all texts. -/
theorem height_unbounded :
    (∃ tree, ofSource ⟨"<stdin>", String.ofList (nestedDeclarations 200)⟩ = .ok tree ∧ maxDepth < tree.height) ∧
    ¬ ∃ limit, ∀ source tree, ofSource source = .ok tree → tree.height ≤ limit := by
  constructor
  · obtain ⟨tree, htree, hdepth⟩ := exists_ofSource_of_declarations 200
    have hle := declarations_le_height tree
    rw [hdepth] at hle
    exact ⟨tree, htree, Nat.lt_of_lt_of_le (by decide) hle⟩
  · rintro ⟨limit, h⟩
    obtain ⟨tree, htree, hdepth⟩ := exists_ofSource_of_declarations (limit + 1)
    have hle := (declarations_le_height tree).trans (h _ tree htree)
    omega

end Reckoner.Expr
