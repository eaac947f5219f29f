import Reckoner.Expr.Rules

/-!
# The grammar

`Derives rule d ts tree` says that the rule, used at level `d` of nesting, yields the tokens `ts` with the tree
`tree`; a chain of operators is derived one operator after the other (`Folded`). The relation knows nothing of how a
text is read: it splits its tokens at will.

* The first token of a derivation is one that its rule can start with (`Derives.exists_cons`), and no token is an end
  (`Derives.isEof_eq_false`).
* A token that `Rule.continues` admits may go on with what the rule has derived. In front of any other the reader stops,
  which is what makes its choices right (`Rule.Stops`).
-/

namespace Reckoner.Expr

mutual

/-- The tokens and the tree of a rule at a level of nesting. No level is deeper than `maxDepth`. -/
inductive Derives : Rule → Nat → List Token → Expr → Prop
  | declaration {d : Nat} {ts : List Token} {value : Expr} (k : Keyword) (name : String) (s nameSpan s' : Span) :
      Derives .expression d ts value →
      Derives .expression d (⟨.keyword k, s⟩ :: ⟨.identifier name, nameSpan⟩ :: ⟨.equal, s'⟩ :: ts)
        (declare k name nameSpan value)
  | sum {d : Nat} {ts : List Token} {tree : Expr} :
      Derives (.chain .sum) d ts tree → Derives .expression d ts tree
  | chain {c : Chain} {d k : Nat} {ts : List Token} {tree : Expr} :
      Folded c d k ts tree → Derives (.chain c) d ts tree
  | signed {d : Nat} {ts : List Token} {operand : Expr} {t : Token} {op : Sign} :
      t.kind.sign? = some op → d + 1 ≤ maxDepth → Derives .factor (d + 1) ts operand →
      Derives .factor d (t :: ts) (sign op t.span operand)
  | unsigned {d : Nat} {ts : List Token} {tree : Expr} :
      Derives .power d ts tree → Derives .factor d ts tree
  | base {d : Nat} {ts : List Token} {tree : Expr} :
      Derives .atom d ts tree → Derives .power d ts tree
  | raised {d : Nat} {us vs : List Token} {base exponent : Expr} (s : Span) :
      Derives .atom d us base → d + 1 ≤ maxDepth → Derives .factor (d + 1) vs exponent →
      Derives .power d (us ++ ⟨.caret, s⟩ :: vs) (operate base .pow exponent)
  | number {d : Nat} (n : Number) (s : Span) : Derives .atom d [⟨.number n, s⟩] (literal n s)
  | identifier {d : Nat} (name : String) (s : Span) : Derives .atom d [⟨.identifier name, s⟩] (access name s)
  | group {d : Nat} {ts : List Token} {inner : Expr} (s s' : Span) :
      d + 1 ≤ maxDepth → Derives .expression (d + 1) ts inner →
      Derives .atom d (⟨.leftParen, s⟩ :: (ts ++ [⟨.rightParen, s'⟩])) inner

/-- The first operand of a chain and `k` more, operand `i` at the `i`-th level from `d` on, folded to the left. -/
inductive Folded : Chain → Nat → Nat → List Token → Expr → Prop
  | first {c : Chain} {d : Nat} {ts : List Token} {tree : Expr} :
      Derives c.operand d ts tree → Folded c d 0 ts tree
  | next {c : Chain} {d k : Nat} {us vs : List Token} {left right : Expr} {t : Token} {op : Op} :
      Folded c d k us left → c.op? t.kind = some op → d + (k + 1) ≤ maxDepth →
      Derives c.operand (d + (k + 1)) vs right → Folded c d (k + 1) (us ++ t :: vs) (operate left op right)

end

/-! ## Where derivations start and stop -/

/-- The tokens that a derivation by the rule can start with. -/
def Rule.starts : Rule → Token.Kind → Bool
  | expression, .keyword _ => true
  | power, k | atom, k => startsOperand k && k.sign?.isNone
  | _, k => startsOperand k

/-- The tokens that can go on with what the rule has derived. -/
def Rule.continues : Rule → Token.Kind → Bool
  | expression, k | chain .sum, k => k.op?.isSome
  | chain .product, k => k = .caret || (Chain.product.op? k).isSome
  | factor, k | power, k => k = .caret
  | atom, _ => false

/-- What follows does not go on with what the rule has derived. -/
def Rule.Stops (rule : Rule) (rest : List Token) : Prop :=
  ∀ t ∈ rest.head?, rule.continues t.kind = false

theorem Rule.stops_nil (rule : Rule) : rule.Stops [] := by
  simp [Stops]

theorem Rule.stops_cons {rule : Rule} {t : Token} {ts : List Token} :
    rule.Stops (t :: ts) ↔ rule.continues t.kind = false := by
  simp [Stops]

theorem Rule.stops_rightParen (rule : Rule) (s : Span) (ts : List Token) :
    rule.Stops (⟨.rightParen, s⟩ :: ts) := by
  rw [stops_cons]
  cases rule with
  | chain c => cases c <;> rfl
  | _ => rfl

theorem Rule.stops_atom (rest : List Token) : Rule.atom.Stops rest :=
  fun _ _ => rfl

/-- What stops a chain stops its operands. -/
theorem Chain.stops_operand {c : Chain} {rest : List Token} (h : (Rule.chain c).Stops rest) :
    c.operand.Stops rest := by
  intro t ht
  have hc := h t ht
  cases c <;> rcases t with ⟨kind, s⟩ <;> cases kind <;> first | rfl | cases hc

/-- What stops the operands of a chain and is none of its operators stops the chain. -/
theorem Chain.stops_of_operand {c : Chain} {rest : List Token} (h : c.operand.Stops rest)
    (hop : ∀ t ∈ rest.head?, c.op? t.kind = none) : (Rule.chain c).Stops rest := by
  intro t ht
  have ho := h t ht
  have hn := hop t ht
  cases c <;> rcases t with ⟨kind, s⟩ <;> cases kind <;>
    first | rfl | exact absurd ho.symm Bool.false_ne_true | exact absurd hn (Option.some_ne_none _)

/-- An operator of a chain stops the operand in front of it. -/
theorem Chain.stops_operand_of_op? {c : Chain} {t : Token} {op : Op} (h : c.op? t.kind = some op)
    (ts : List Token) : c.operand.Stops (t :: ts) := by
  rw [Rule.stops_cons]
  cases c <;> rcases t with ⟨kind, s⟩ <;> cases kind <;> first | rfl | cases h

theorem Rule.sign?_of_starts_power {k : Token.Kind} (h : Rule.power.starts k = true) : k.sign? = none := by
  simpa using (Bool.and_eq_true_iff.mp h).2

theorem Rule.starts_operand {c : Chain} {k : Token.Kind} (h : c.operand.starts k = true) :
    (Rule.chain c).starts k = true := by
  cases c <;> exact h

theorem starts_of_sign? {k : Token.Kind} {op : Sign} (h : k.sign? = some op) : Rule.factor.starts k = true := by
  cases k <;> first | rfl | cases h

/-- A derivation has a first token, and its rule can start with it. -/
theorem Derives.exists_cons {rule : Rule} {d : Nat} {ts : List Token} {tree : Expr} (h : Derives rule d ts tree) :
    ∃ t us, ts = t :: us ∧ rule.starts t.kind = true := by
  induction h using Derives.rec
    (motive_2 := fun c _ _ ts _ _ => ∃ t us, ts = t :: us ∧ (Rule.chain c).starts t.kind = true) with
  | declaration k name s nameSpan s' _ _ => exact ⟨_, _, rfl, rfl⟩
  | sum _ ih =>
    obtain ⟨t, us, rfl, ht⟩ := ih
    refine ⟨t, us, rfl, ?_⟩
    rcases t with ⟨kind, s⟩
    cases kind <;> first | rfl | exact ht
  | chain _ ih => exact ih
  | signed ht _ _ _ => exact ⟨_, _, rfl, starts_of_sign? ht⟩
  | unsigned _ ih =>
    obtain ⟨t, us, rfl, ht⟩ := ih
    exact ⟨t, us, rfl, (Bool.and_eq_true_iff.mp ht).1⟩
  | base _ ih => exact ih
  | raised s _ _ _ ih _ =>
    obtain ⟨t, us, rfl, ht⟩ := ih
    exact ⟨t, _, rfl, ht⟩
  | number n s => exact ⟨_, _, rfl, rfl⟩
  | identifier name s => exact ⟨_, _, rfl, rfl⟩
  | group s s' _ _ _ => exact ⟨_, _, rfl, rfl⟩
  | first _ ih =>
    obtain ⟨t, us, rfl, ht⟩ := ih
    exact ⟨t, us, rfl, Rule.starts_operand ht⟩
  | next _ _ _ _ ih _ =>
    obtain ⟨t, us, rfl, ht⟩ := ih
    exact ⟨t, _, rfl, ht⟩

theorem isEof_of_op? {c : Chain} {t : Token} {op : Op} (h : c.op? t.kind = some op) : t.isEof = false := by
  rcases t with ⟨kind, s⟩
  cases c <;> cases kind <;> first | rfl | cases h

theorem isEof_of_sign? {t : Token} {op : Sign} (h : t.kind.sign? = some op) : t.isEof = false := by
  rcases t with ⟨kind, s⟩
  cases kind <;> first | rfl | cases h

/-- No token of a derivation is an end. -/
theorem Derives.isEof_eq_false {rule : Rule} {d : Nat} {ts : List Token} {tree : Expr}
    (h : Derives rule d ts tree) : ∀ t ∈ ts, t.isEof = false := by
  induction h using Derives.rec (motive_2 := fun _ _ _ ts _ _ => ∀ t ∈ ts, t.isEof = false) with
  | declaration k name s nameSpan s' _ ih =>
    simp only [List.mem_cons, forall_eq_or_imp]
    exact ⟨rfl, rfl, rfl, ih⟩
  | sum _ ih | chain _ ih | unsigned _ ih | base _ ih => exact ih
  | signed ht _ _ ih => exact List.forall_mem_cons.mpr ⟨isEof_of_sign? ht, ih⟩
  | raised s _ _ _ ih₁ ih₂ =>
    exact List.forall_mem_append.mpr ⟨ih₁, List.forall_mem_cons.mpr ⟨rfl, ih₂⟩⟩
  | number n s | identifier name s => exact List.forall_mem_singleton.mpr rfl
  | group s s' _ _ ih =>
    exact List.forall_mem_cons.mpr ⟨rfl, List.forall_mem_append.mpr ⟨ih, List.forall_mem_singleton.mpr rfl⟩⟩
  | first _ ih t ht => exact ih t ht
  | next _ hop _ _ ih₁ ih₂ t ht =>
    exact List.forall_mem_append.mpr ⟨ih₁, List.forall_mem_cons.mpr ⟨isEof_of_op? hop, ih₂⟩⟩ t ht

end Reckoner.Expr
