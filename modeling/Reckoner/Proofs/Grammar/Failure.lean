import Reckoner.Proofs.Grammar.Nesting

/-!
# Where a rule stops reading

`Blocks rule d us next problem` says that the tokens `us` can be completed to a derivation by the rule at level `d`, but
that the reader stops behind them, at the token `next`. It looks at no token behind that one, so this holds whatever
stands there.

* `Fails` has a constructor for each way in which a rule fails, from a failure of the rule inside it or from a
  derivation of what was read before. The reader fails in no other way (`exists_fails_of_read`). The induction is again
  that of the reader, on the tokens that are left.
* Each of these ways gives a `Blocks` (`Fails.blocks`). A rule can always be completed by a number (`derives_number`),
  which takes no level of nesting. That is why tokens can be completed at the last level too.
-/

namespace Reckoner.Expr

/-- The tokens `us` can be completed to what the rule derives, but with `next` behind them (with `none`, at the end)
its reading stops there, for the reason `problem`. -/
structure Blocks (rule : Rule) (d : Nat) (us : List Token) (next : Option Token) (problem : SyntaxProblem) : Prop where
  completable : ∃ vs tree, Derives rule d (us ++ vs) tree
  stuck : ∀ rest, rest.head? = next → read rule (maxDepth - d) (us ++ rest) = .error ⟨problem, rest⟩

/-- A number is derived by every rule, at every level. -/
theorem derives_number (rule : Rule) (d : Nat) (n : Number) (s : Span) :
    Derives rule d [⟨.number n, s⟩] (literal n s) :=
  match rule with
  | .expression => .sum (.chain (.first (derives_operand_number .sum d n s)))
  | .chain c => .chain (.first (derives_operand_number c d n s))
  | .factor => derives_factor_number d n s
  | .power => .base (.number n s)
  | .atom => .number n s

/-- Behind the operands of a chain, the reader goes on from the tree folded so far. -/
theorem Folded.read_eq {c : Chain} {d k : Nat} {us : List Token} {left : Expr} (h : Folded c d k us left)
    {rest : List Token} (hrest : c.operand.Stops rest) :
    read (.chain c) (maxDepth - d) (us ++ rest) = readChain c (maxDepth - (d + k)) left rest :=
  match h with
  | .first hleft => by
    rw [read_chain, hleft.read_eq rest hrest]
    rfl
  | @Folded.next c d k vs ws left right t op hleft hop hd hright => by
    have hroom : maxDepth - (d + k) = maxDepth - (d + (k + 1)) + 1 := by omega
    rw [List.append_assoc, List.cons_append, hleft.read_eq (Chain.stops_operand_of_op? hop _), hroom,
      readChain_succ left hop, hright.read_eq rest hrest]
    rfl

/-! ## How each rule fails -/

section Rules

variable {c : Chain} {d k : Nat} {us vs : List Token} {next : Option Token} {problem : SyntaxProblem}

/-- In front of its first token a rule can be completed, whatever it is. -/
theorem Blocks.of_nil {rule : Rule}
    (h : ∀ rest, rest.head? = next → read rule (maxDepth - d) rest = .error ⟨problem, rest⟩) :
    Blocks rule d [] next problem :=
  ⟨⟨[one], _, derives_number rule d (.int 1) nowhere⟩, h⟩

theorem blocks_expression (h : ∀ t ∈ next, Rule.expression.starts t.kind = false) :
    Blocks .expression d [] next .expectedExpression := by
  refine .of_nil ?_
  rintro rest rfl
  exact read_expression_of_nothing h

theorem blocks_name (k : Keyword) (s : Span) (h : ∀ t ∈ next, ∀ name, t.kind ≠ .identifier name) :
    Blocks .expression d [⟨.keyword k, s⟩] next .expectedIdentifier := by
  constructor
  · exact ⟨[⟨.identifier "x", nowhere⟩, ⟨.equal, nowhere⟩, one], _,
      .declaration k "x" s nowhere nowhere (derives_number .expression d (.int 1) nowhere)⟩
  · rintro rest rfl
    exact read_expression_of_noName k s h

theorem blocks_equals (k : Keyword) (name : String) (s nameSpan : Span) (h : ∀ t ∈ next, t.kind ≠ .equal) :
    Blocks .expression d [⟨.keyword k, s⟩, ⟨.identifier name, nameSpan⟩] next .expectedEquals := by
  constructor
  · exact ⟨[⟨.equal, nowhere⟩, one], _,
      .declaration k name s nameSpan nowhere (derives_number .expression d (.int 1) nowhere)⟩
  · rintro rest rfl
    exact read_expression_of_noEquals k name s nameSpan h

theorem Blocks.declaration (k : Keyword) (name : String) (s nameSpan s' : Span)
    (h : Blocks .expression d us next problem) :
    Blocks .expression d (⟨.keyword k, s⟩ :: ⟨.identifier name, nameSpan⟩ :: ⟨.equal, s'⟩ :: us) next problem := by
  constructor
  · obtain ⟨vs, value, hvalue⟩ := h.completable
    exact ⟨vs, _, .declaration k name s nameSpan s' hvalue⟩
  · intro rest hrest
    simp only [List.cons_append]
    rw [read_declaration, h.stuck rest hrest]
    rfl

/-- Where the sum is chosen for what it begins with, its failure is that of the expression. -/
theorem Blocks.sum (h : Blocks (.chain .sum) d us next problem)
    (hstart : ∃ t ∈ us.head?.or next, startsOperand t.kind = true) : Blocks .expression d us next problem := by
  constructor
  · obtain ⟨vs, tree, htree⟩ := h.completable
    exact ⟨vs, tree, .sum htree⟩
  · rintro rest rfl
    -- the reader looks at the first token, which is `next` if nothing stands in front
    obtain ⟨t, ht, hkind⟩ := hstart
    rw [← List.head?_append] at ht
    obtain ⟨ts, hts⟩ := List.head?_eq_some_iff.mp ht
    rw [← h.stuck rest rfl, hts]
    exact read_expression_of_startsOperand hkind

theorem Blocks.firstOperand (h : Blocks c.operand d us next problem) : Blocks (.chain c) d us next problem := by
  constructor
  · obtain ⟨vs, tree, htree⟩ := h.completable
    exact ⟨vs, tree, .chain (.first htree)⟩
  · intro rest hrest
    rw [read_chain, h.stuck rest hrest]
    rfl

/-- With no level left, what a chain has folded is complete and its next operator does not fit. -/
theorem blocks_chain_tooDeep {left : Expr} {t : Token} {op : Op} (h : Folded c d k us left)
    (hop : c.op? t.kind = some op) (hd : maxDepth ≤ d + k) : Blocks (.chain c) d us (some t) .tooDeep := by
  constructor
  · exact ⟨[], left, by simpa using Derives.chain h⟩
  · intro rest hrest
    obtain ⟨ts, rfl⟩ := List.head?_eq_some_iff.mp hrest
    rw [h.read_eq (Chain.stops_operand_of_op? hop ts), Nat.sub_eq_zero_of_le hd]
    exact readChain_zero left hop

theorem Blocks.nextOperand {left : Expr} {t : Token} {op : Op} (hleft : Folded c d k us left)
    (hop : c.op? t.kind = some op) (hd : d + (k + 1) ≤ maxDepth)
    (h : Blocks c.operand (d + (k + 1)) vs next problem) : Blocks (.chain c) d (us ++ t :: vs) next problem := by
  constructor
  · obtain ⟨ws, right, hright⟩ := h.completable
    exact ⟨ws, _, by simpa using Derives.chain (.next hleft hop hd hright)⟩
  · intro rest hrest
    have hroom : maxDepth - (d + k) = maxDepth - (d + (k + 1)) + 1 := by omega
    rw [List.append_assoc, List.cons_append, hleft.read_eq (Chain.stops_operand_of_op? hop _), hroom,
      readChain_succ left hop, h.stuck rest hrest]
    rfl

theorem blocks_sign_tooDeep {t : Token} {op : Sign} (hop : t.kind.sign? = some op) (hd : maxDepth ≤ d) :
    Blocks .factor d [] (some t) .tooDeep := by
  refine .of_nil ?_
  intro rest hrest
  obtain ⟨ts, rfl⟩ := List.head?_eq_some_iff.mp hrest
  rw [Nat.sub_eq_zero_of_le hd]
  exact read_factor_zero hop

theorem Blocks.signed {t : Token} {op : Sign} (hop : t.kind.sign? = some op) (hd : d + 1 ≤ maxDepth)
    (h : Blocks .factor (d + 1) us next problem) : Blocks .factor d (t :: us) next problem := by
  constructor
  · obtain ⟨vs, operand, hoperand⟩ := h.completable
    exact ⟨vs, _, .signed hop hd hoperand⟩
  · intro rest hrest
    rw [List.cons_append, room_eq_succ hd, read_factor_succ hop, h.stuck rest hrest]
    rfl

theorem Blocks.unsigned (h : Blocks .power d us next problem)
    (hsign : ∀ t ∈ us.head?.or next, t.kind.sign? = none) : Blocks .factor d us next problem := by
  constructor
  · obtain ⟨vs, tree, htree⟩ := h.completable
    exact ⟨vs, tree, .unsigned htree⟩
  · rintro rest rfl
    rw [← h.stuck rest rfl]
    rw [← List.head?_append] at hsign
    cases hts : us ++ rest with
    | nil => exact read_factor_nil
    | cons t ts => exact read_factor_of_sign?_eq_none (hsign t (by rw [hts]; rfl))

theorem Blocks.base (h : Blocks .atom d us next problem) : Blocks .power d us next problem := by
  constructor
  · obtain ⟨vs, tree, htree⟩ := h.completable
    exact ⟨vs, tree, .base htree⟩
  · intro rest hrest
    rw [read_power, h.stuck rest hrest]
    rfl

theorem blocks_caret_tooDeep {base : Expr} (s : Span) (h : Derives .atom d us base) (hd : maxDepth ≤ d) :
    Blocks .power d us (some ⟨.caret, s⟩) .tooDeep := by
  constructor
  · exact ⟨[], base, by simpa using Derives.base h⟩
  · intro rest hrest
    obtain ⟨ts, rfl⟩ := List.head?_eq_some_iff.mp hrest
    rw [read_power, h.read_eq _ (Rule.stops_atom _), Nat.sub_eq_zero_of_le hd]
    exact readPower_zero base s

theorem Blocks.exponent {base : Expr} (s : Span) (hbase : Derives .atom d us base) (hd : d + 1 ≤ maxDepth)
    (h : Blocks .factor (d + 1) vs next problem) : Blocks .power d (us ++ ⟨.caret, s⟩ :: vs) next problem := by
  constructor
  · obtain ⟨ws, exponent, hexponent⟩ := h.completable
    exact ⟨ws, _, by simpa using Derives.raised s hbase hd hexponent⟩
  · intro rest hrest
    rw [List.append_assoc, List.cons_append, read_power, hbase.read_eq _ (Rule.stops_atom _)]
    simp only [Except.bind]
    rw [room_eq_succ hd, readPower_succ, h.stuck rest hrest]
    rfl

theorem blocks_leftParen_tooDeep (s : Span) (hd : maxDepth ≤ d) :
    Blocks .atom d [] (some ⟨.leftParen, s⟩) .tooDeep := by
  refine .of_nil ?_
  intro rest hrest
  obtain ⟨ts, rfl⟩ := List.head?_eq_some_iff.mp hrest
  rw [Nat.sub_eq_zero_of_le hd]
  exact read_leftParen_zero s

theorem Blocks.group (s : Span) (hd : d + 1 ≤ maxDepth) (h : Blocks .expression (d + 1) us next problem) :
    Blocks .atom d (⟨.leftParen, s⟩ :: us) next problem := by
  constructor
  · obtain ⟨vs, inner, hinner⟩ := h.completable
    exact ⟨vs ++ [⟨.rightParen, nowhere⟩], inner, by simpa using Derives.group s nowhere hd hinner⟩
  · intro rest hrest
    rw [List.cons_append, room_eq_succ hd, read_leftParen_succ, h.stuck rest hrest]
    rfl

theorem blocks_rightParen {inner : Expr} (s : Span) (hd : d + 1 ≤ maxDepth) (h : Derives .expression (d + 1) us inner)
    (hstops : ∀ t ∈ next, Rule.expression.continues t.kind = false) (hclose : ∀ t ∈ next, t.kind ≠ .rightParen) :
    Blocks .atom d (⟨.leftParen, s⟩ :: us) next .expectedRightParen := by
  constructor
  · exact ⟨[⟨.rightParen, nowhere⟩], inner, .group s nowhere hd h⟩
  · rintro rest rfl
    -- the expression inside ends at the same place, since its end is known from the next token
    rw [List.cons_append, room_eq_succ hd, read_leftParen_succ, h.read_eq rest hstops]
    rcases rest with _ | ⟨⟨kind, s'⟩, rest⟩
    · rfl
    · cases kind <;> first | rfl | exact absurd rfl (hclose _ rfl)

theorem blocks_atom (h : ∀ t ∈ next, Rule.atom.starts t.kind = false) :
    Blocks .atom d [] next .expectedOperand := by
  refine .of_nil ?_
  rintro rest rfl
  exact read_atom_of_nothing h

end Rules

/-! ## All ways to fail -/

/-- The rule, used at level `d`, has read the tokens `us` and fails for the reason `problem` with `next` behind them
(with `none`, at the end). -/
inductive Fails : Rule → Nat → List Token → Option Token → SyntaxProblem → Prop
  | expression {d : Nat} {next : Option Token} : (∀ t ∈ next, Rule.expression.starts t.kind = false) →
      Fails .expression d [] next .expectedExpression
  | name {d : Nat} {next : Option Token} (k : Keyword) (s : Span) : (∀ t ∈ next, ∀ name, t.kind ≠ .identifier name) →
      Fails .expression d [⟨.keyword k, s⟩] next .expectedIdentifier
  | equals {d : Nat} {next : Option Token} (k : Keyword) (name : String) (s nameSpan : Span) :
      (∀ t ∈ next, t.kind ≠ .equal) →
      Fails .expression d [⟨.keyword k, s⟩, ⟨.identifier name, nameSpan⟩] next .expectedEquals
  | declaration {d : Nat} {us : List Token} {next : Option Token} {problem : SyntaxProblem} (k : Keyword)
      (name : String) (s nameSpan s' : Span) : Fails .expression d us next problem →
      Fails .expression d (⟨.keyword k, s⟩ :: ⟨.identifier name, nameSpan⟩ :: ⟨.equal, s'⟩ :: us) next problem
  | sum {d : Nat} {us : List Token} {next : Option Token} {problem : SyntaxProblem} :
      Fails (.chain .sum) d us next problem → (∃ t ∈ us.head?.or next, startsOperand t.kind = true) →
      Fails .expression d us next problem
  | firstOperand {c : Chain} {d : Nat} {us : List Token} {next : Option Token} {problem : SyntaxProblem} :
      Fails c.operand d us next problem → Fails (.chain c) d us next problem
  | chainTooDeep {c : Chain} {d k : Nat} {us : List Token} {left : Expr} {t : Token} {op : Op} :
      Folded c d k us left → c.op? t.kind = some op → maxDepth ≤ d + k → Fails (.chain c) d us (some t) .tooDeep
  | nextOperand {c : Chain} {d k : Nat} {us vs : List Token} {left : Expr} {t : Token} {op : Op} {next : Option Token}
      {problem : SyntaxProblem} : Folded c d k us left → c.op? t.kind = some op → d + (k + 1) ≤ maxDepth →
      Fails c.operand (d + (k + 1)) vs next problem → Fails (.chain c) d (us ++ t :: vs) next problem
  | signTooDeep {d : Nat} {t : Token} {op : Sign} : t.kind.sign? = some op → maxDepth ≤ d →
      Fails .factor d [] (some t) .tooDeep
  | signed {d : Nat} {us : List Token} {t : Token} {op : Sign} {next : Option Token} {problem : SyntaxProblem} :
      t.kind.sign? = some op → d + 1 ≤ maxDepth → Fails .factor (d + 1) us next problem →
      Fails .factor d (t :: us) next problem
  | unsigned {d : Nat} {us : List Token} {next : Option Token} {problem : SyntaxProblem} :
      Fails .power d us next problem → (∀ t ∈ us.head?.or next, t.kind.sign? = none) → Fails .factor d us next problem
  | base {d : Nat} {us : List Token} {next : Option Token} {problem : SyntaxProblem} :
      Fails .atom d us next problem → Fails .power d us next problem
  | caretTooDeep {d : Nat} {us : List Token} {base : Expr} (s : Span) : Derives .atom d us base → maxDepth ≤ d →
      Fails .power d us (some ⟨.caret, s⟩) .tooDeep
  | exponent {d : Nat} {us vs : List Token} {base : Expr} {next : Option Token} {problem : SyntaxProblem} (s : Span) :
      Derives .atom d us base → d + 1 ≤ maxDepth → Fails .factor (d + 1) vs next problem →
      Fails .power d (us ++ ⟨.caret, s⟩ :: vs) next problem
  | leftParenTooDeep {d : Nat} (s : Span) : maxDepth ≤ d → Fails .atom d [] (some ⟨.leftParen, s⟩) .tooDeep
  | group {d : Nat} {us : List Token} {next : Option Token} {problem : SyntaxProblem} (s : Span) : d + 1 ≤ maxDepth →
      Fails .expression (d + 1) us next problem → Fails .atom d (⟨.leftParen, s⟩ :: us) next problem
  | rightParen {d : Nat} {us : List Token} {inner : Expr} {next : Option Token} (s : Span) : d + 1 ≤ maxDepth →
      Derives .expression (d + 1) us inner → (∀ t ∈ next, Rule.expression.continues t.kind = false) →
      (∀ t ∈ next, t.kind ≠ .rightParen) → Fails .atom d (⟨.leftParen, s⟩ :: us) next .expectedRightParen
  | atom {d : Nat} {next : Option Token} : (∀ t ∈ next, Rule.atom.starts t.kind = false) →
      Fails .atom d [] next .expectedOperand

/-- A rule that fails is blocked. -/
theorem Fails.blocks {rule : Rule} {d : Nat} {us : List Token} {next : Option Token} {problem : SyntaxProblem}
    (h : Fails rule d us next problem) : Blocks rule d us next problem := by
  induction h with
  | expression hstart => exact blocks_expression hstart
  | name k s hname => exact blocks_name k s hname
  | equals k name s nameSpan heq => exact blocks_equals k name s nameSpan heq
  | declaration k name s nameSpan s' _ ih => exact ih.declaration k name s nameSpan s'
  | sum _ hstart ih => exact ih.sum hstart
  | firstOperand _ ih => exact ih.firstOperand
  | chainTooDeep hleft hop hd => exact blocks_chain_tooDeep hleft hop hd
  | nextOperand hleft hop hd _ ih => exact .nextOperand hleft hop hd ih
  | signTooDeep hop hd => exact blocks_sign_tooDeep hop hd
  | signed hop hd _ ih => exact ih.signed hop hd
  | unsigned _ hsign ih => exact ih.unsigned hsign
  | base _ ih => exact ih.base
  | caretTooDeep s hbase hd => exact blocks_caret_tooDeep s hbase hd
  | exponent s hbase hd _ ih => exact .exponent s hbase hd ih
  | leftParenTooDeep s hd => exact blocks_leftParen_tooDeep s hd
  | group s hd _ ih => exact ih.group s hd
  | rightParen s hd hinner hstops hclose => exact blocks_rightParen s hd hinner hstops hclose
  | atom hstart => exact blocks_atom hstart

/-! ## The reader fails in no other way -/

section Inversion

variable {room : Nat} {ts rest : List Token} {problem : SyntaxProblem}

theorem read_expression_eq_error (h : read .expression room ts = .error ⟨problem, rest⟩) :
    (ts = rest ∧ problem = .expectedExpression ∧ ∀ t ∈ rest.head?, Rule.expression.starts t.kind = false) ∨
    (∃ k s, ts = ⟨.keyword k, s⟩ :: rest ∧ problem = .expectedIdentifier ∧
      ∀ t ∈ rest.head?, ∀ name, t.kind ≠ .identifier name) ∨
    (∃ k s name nameSpan, ts = ⟨.keyword k, s⟩ :: ⟨.identifier name, nameSpan⟩ :: rest ∧ problem = .expectedEquals ∧
      ∀ t ∈ rest.head?, t.kind ≠ .equal) ∨
    (∃ k s name nameSpan s' us, ts = ⟨.keyword k, s⟩ :: ⟨.identifier name, nameSpan⟩ :: ⟨.equal, s'⟩ :: us ∧
      read .expression room us = .error ⟨problem, rest⟩) ∨
    read (.chain .sum) room ts = .error ⟨problem, rest⟩ ∧ ∃ t ∈ ts.head?, startsOperand t.kind = true := by
  cases front ts with
  | declaration k name s nameSpan s' us =>
    rw [read_declaration] at h
    exact Or.inr (Or.inr (Or.inr (Or.inl ⟨k, s, name, nameSpan, s', us, rfl, Except.map_eq_error_iff.mp h⟩)))
  | noEquals k name s nameSpan us hne =>
    rw [read_expression_of_noEquals k name s nameSpan hne] at h
    cases h
    exact Or.inr (Or.inr (Or.inl ⟨k, s, name, nameSpan, rfl, rfl, hne⟩))
  | noName k s us hne =>
    rw [read_expression_of_noName k s hne] at h
    cases h
    exact Or.inr (Or.inl ⟨k, s, rfl, rfl, hne⟩)
  | operand t us hstart =>
    rw [read_expression_of_startsOperand hstart] at h
    exact Or.inr (Or.inr (Or.inr (Or.inr ⟨h, t, rfl, hstart⟩)))
  | nothing _ hstart =>
    rw [read_expression_of_nothing hstart] at h
    cases h
    exact Or.inl ⟨rfl, rfl, hstart⟩

theorem read_chain_eq_error {c : Chain} (h : read (.chain c) room ts = .error ⟨problem, rest⟩) :
    read c.operand room ts = .error ⟨problem, rest⟩ ∨
    ∃ left us, read c.operand room ts = .ok (left, us) ∧
      readChain c room left us = .error ⟨problem, rest⟩ := by
  rw [read_chain] at h
  rcases Except.bind_eq_error_iff.mp h with hl | ⟨⟨left, us⟩, hl, hr⟩
  · exact Or.inl hl
  · exact Or.inr ⟨left, us, hl, hr⟩

theorem readChain_eq_error {c : Chain} {left : Expr} (h : readChain c room left ts = .error ⟨problem, rest⟩) :
    ∃ t op us, ts = t :: us ∧ c.op? t.kind = some op ∧
      ((room = 0 ∧ ts = rest ∧ problem = .tooDeep) ∨
      (∃ room', room = room' + 1 ∧ read c.operand room' us = .error ⟨problem, rest⟩) ∨
      ∃ room' right vs, room = room' + 1 ∧ read c.operand room' us = .ok (right, vs) ∧
        readChain c room' (operate left op right) vs = .error ⟨problem, rest⟩) := by
  rcases ts with _ | ⟨t, ts⟩
  · rw [readChain_nil] at h
    cases h
  cases hop : c.op? t.kind with
  | none =>
    rw [readChain_of_op?_eq_none left hop] at h
    cases h
  | some op =>
    refine ⟨t, op, ts, rfl, hop, ?_⟩
    cases room with
    | zero =>
      rw [readChain_zero left hop] at h
      cases h
      exact Or.inl ⟨rfl, rfl, rfl⟩
    | succ room =>
      rw [readChain_succ left hop] at h
      rcases Except.bind_eq_error_iff.mp h with hr | ⟨⟨right, vs⟩, hr, hc⟩
      · exact Or.inr (Or.inl ⟨room, rfl, hr⟩)
      · exact Or.inr (Or.inr ⟨room, right, vs, rfl, hr, hc⟩)

theorem read_factor_eq_error (h : read .factor room ts = .error ⟨problem, rest⟩) :
    (∃ t op us, ts = t :: us ∧ t.kind.sign? = some op ∧
      ((room = 0 ∧ ts = rest ∧ problem = .tooDeep) ∨
      ∃ room', room = room' + 1 ∧ read .factor room' us = .error ⟨problem, rest⟩)) ∨
    read .power room ts = .error ⟨problem, rest⟩ ∧ ∀ t ∈ ts.head?, t.kind.sign? = none := by
  rcases ts with _ | ⟨t, ts⟩
  · rw [read_factor_nil] at h
    exact Or.inr ⟨h, fun _ ht => nomatch ht⟩
  cases hop : t.kind.sign? with
  | none =>
    rw [read_factor_of_sign?_eq_none hop] at h
    exact Or.inr ⟨h, by simpa using hop⟩
  | some op =>
    refine Or.inl ⟨t, op, ts, rfl, hop, ?_⟩
    cases room with
    | zero =>
      rw [read_factor_zero hop] at h
      cases h
      exact Or.inl ⟨rfl, rfl, rfl⟩
    | succ room =>
      rw [read_factor_succ hop] at h
      exact Or.inr ⟨room, rfl, Except.map_eq_error_iff.mp h⟩

theorem read_power_eq_error (h : read .power room ts = .error ⟨problem, rest⟩) :
    read .atom room ts = .error ⟨problem, rest⟩ ∨
    ∃ base s us, read .atom room ts = .ok (base, ⟨.caret, s⟩ :: us) ∧
      ((room = 0 ∧ ⟨.caret, s⟩ :: us = rest ∧ problem = .tooDeep) ∨
      ∃ room', room = room' + 1 ∧ read .factor room' us = .error ⟨problem, rest⟩) := by
  rw [read_power] at h
  rcases Except.bind_eq_error_iff.mp h with hb | ⟨⟨base, us⟩, hb, hp⟩
  · exact Or.inl hb
  rcases us with _ | ⟨⟨kind, s⟩, us⟩
  · rw [readPower_nil] at hp
    cases hp
  by_cases hk : kind = .caret
  · subst hk
    refine Or.inr ⟨base, s, us, hb, ?_⟩
    cases room with
    | zero =>
      rw [readPower_zero] at hp
      cases hp
      exact Or.inl ⟨rfl, rfl, rfl⟩
    | succ room =>
      rw [readPower_succ] at hp
      exact Or.inr ⟨room, rfl, Except.map_eq_error_iff.mp hp⟩
  · rw [readPower_of_ne_caret base hk] at hp
    cases hp

theorem read_atom_eq_error (h : read .atom room ts = .error ⟨problem, rest⟩) :
    (ts = rest ∧ problem = .expectedOperand ∧ ∀ t ∈ rest.head?, Rule.atom.starts t.kind = false) ∨
    ∃ s us, ts = ⟨.leftParen, s⟩ :: us ∧
      ((room = 0 ∧ ts = rest ∧ problem = .tooDeep) ∨
      (∃ room', room = room' + 1 ∧ read .expression room' us = .error ⟨problem, rest⟩) ∨
      ∃ room' inner, room = room' + 1 ∧ read .expression room' us = .ok (inner, rest) ∧
        problem = .expectedRightParen ∧ ∀ t ∈ rest.head?, t.kind ≠ .rightParen) := by
  rcases ts with _ | ⟨⟨kind, s⟩, ts⟩
  · rw [read_atom_nil] at h
    cases h
    exact Or.inl ⟨rfl, rfl, fun _ ht => nomatch ht⟩
  cases kind with
  | number n =>
    rw [read_number] at h
    cases h
  | identifier name =>
    rw [read_identifier] at h
    cases h
  | leftParen =>
    refine Or.inr ⟨s, ts, rfl, ?_⟩
    cases room with
    | zero =>
      rw [read_leftParen_zero] at h
      cases h
      exact Or.inl ⟨rfl, rfl, rfl⟩
    | succ room =>
      right
      rw [read_leftParen_succ] at h
      rcases Except.bind_eq_error_iff.mp h with hi | ⟨⟨inner, us⟩, hi, hc⟩
      · exact Or.inl ⟨room, rfl, hi⟩
      right
      rcases us with _ | ⟨⟨kind, s'⟩, us⟩
      · cases hc
        exact ⟨room, inner, rfl, hi, rfl, fun _ ht => nomatch ht⟩
      · cases kind with
        | rightParen => cases hc
        | _ =>
          cases hc
          refine ⟨room, inner, rfl, hi, rfl, ?_⟩
          rintro _ ⟨rfl⟩ hkind
          cases hkind
  | _ =>
    rw [read_atom_of_nothing (by simp [Rule.starts, startsOperand, Token.Kind.sign?])] at h
    cases h
    exact Or.inl ⟨rfl, rfl, by simp [Rule.starts, startsOperand, Token.Kind.sign?]⟩

end Inversion

/-- How a chain fails behind what it has folded so far, when that is known of its operands on fewer tokens. -/
theorem exists_fails_of_readChain {c : Chain} {n d : Nat} {rest : List Token} {problem : SyntaxProblem}
    (hoperand : ∀ {room d' : Nat} {ts : List Token}, ts.length < n → room + d' = maxDepth →
      read c.operand room ts = .error ⟨problem, rest⟩ →
      ∃ us, ts = us ++ rest ∧ Fails c.operand d' us rest.head? problem)
    {room k : Nat} {us ts : List Token} {left : Expr} (hn : ts.length ≤ n) (hd : room + (d + k) = maxDepth)
    (hleft : Folded c d k us left) (h : readChain c room left ts = .error ⟨problem, rest⟩) :
    ∃ vs, ts = vs ++ rest ∧ Fails (.chain c) d (us ++ vs) rest.head? problem := by
  induction room generalizing k us ts left with
  | zero =>
    obtain ⟨t, op, ws, rfl, hop, ⟨-, rfl, rfl⟩ | ⟨_, hroom, _⟩ | ⟨_, _, _, hroom, _⟩⟩ := readChain_eq_error h
    · exact ⟨[], rfl, by simpa using Fails.chainTooDeep hleft hop (by omega)⟩
    · cases hroom
    · cases hroom
  | succ room ih =>
    obtain ⟨t, op, ws, rfl, hop, ⟨hroom, _⟩ | ⟨room', hroom, hr⟩ | ⟨room', right, xs, hroom, hr, hc⟩⟩ :=
      readChain_eq_error h
    · cases hroom
    -- the next operand fails
    · cases hroom
      obtain ⟨vs, rfl, hright⟩ := hoperand hn (show room + (d + (k + 1)) = maxDepth by omega) hr
      exact ⟨t :: vs, rfl, .nextOperand hleft hop (by omega) hright⟩
    -- what stands behind the next operand fails
    · cases hroom
      have hlt := length_lt_of_read hr
      obtain ⟨vs, rfl, hright, -⟩ := exists_derives_of_read (show room + (d + (k + 1)) = maxDepth by omega) hr
      rw [List.length_cons] at hn
      obtain ⟨ys, rfl, hfails⟩ := ih (by omega) (by omega) (.next hleft hop (by omega) hright) hc
      exact ⟨t :: (vs ++ ys), by simp, by simpa using hfails⟩

/-- How a rule fails, seen from a bound on what the reader has left to do. -/
theorem exists_fails_of_read_of_lt (n : Nat) {rule : Rule} {room d : Nat} {ts rest : List Token}
    {problem : SyntaxProblem} (hn : 6 * ts.length + rule.rank < n) (hd : room + d = maxDepth)
    (h : read rule room ts = .error ⟨problem, rest⟩) :
    ∃ us, ts = us ++ rest ∧ Fails rule d us rest.head? problem := by
  induction n generalizing rule room d ts rest problem with
  | zero => omega
  | succ n ih =>
    cases rule with
    | expression =>
      rcases read_expression_eq_error h with ⟨rfl, rfl, hstart⟩ | ⟨k, s, rfl, rfl, hname⟩ |
        ⟨k, s, name, nameSpan, rfl, rfl, heq⟩ | ⟨k, s, name, nameSpan, s', us, rfl, hv⟩ | ⟨hs, hstart⟩
      · exact ⟨[], rfl, Fails.expression hstart⟩
      · exact ⟨[_], rfl, Fails.name k s hname⟩
      · exact ⟨[_, _], rfl, Fails.equals k name s nameSpan heq⟩
      · simp only [List.length_cons] at hn
        obtain ⟨vs, rfl, hfails⟩ := ih (by omega) hd hv
        exact ⟨_, rfl, .declaration k name s nameSpan s' hfails⟩
      · obtain ⟨us, rfl, hfails⟩ := ih (by simp only [Rule.rank] at *; omega) hd hs
        rw [List.head?_append] at hstart
        exact ⟨us, rfl, .sum hfails hstart⟩
    | chain c =>
      have hrank := c.rank_operand_lt
      rcases read_chain_eq_error h with hl | ⟨left, us, hl, hr⟩
      · obtain ⟨us, rfl, hfails⟩ := ih (by omega) hd hl
        exact ⟨us, rfl, .firstOperand hfails⟩
      · have hlt := length_lt_of_read hl
        obtain ⟨vs, rfl, hleft, -⟩ := exists_derives_of_read hd hl
        have hoperand : ∀ {room d' : Nat} {ts : List Token}, ts.length < us.length → room + d' = maxDepth →
            read c.operand room ts = .error ⟨problem, rest⟩ →
            ∃ ws, ts = ws ++ rest ∧ Fails c.operand d' ws rest.head? problem :=
          fun hlen hd' hread => ih (by omega) hd' hread
        obtain ⟨ws, rfl, hfails⟩ := exists_fails_of_readChain hoperand (Nat.le_refl _) hd (.first hleft) hr
        exact ⟨vs ++ ws, (List.append_assoc _ _ _).symm, hfails⟩
    | factor =>
      rcases read_factor_eq_error h with
        ⟨t, op, us, rfl, hop, ⟨rfl, rfl, rfl⟩ | ⟨room', rfl, ho⟩⟩ | ⟨hp, hsign⟩
      · exact ⟨[], rfl, Fails.signTooDeep hop (by omega)⟩
      · rw [List.length_cons] at hn
        obtain ⟨vs, rfl, hfails⟩ := ih (d := d + 1) (by omega) (by omega) ho
        exact ⟨t :: vs, rfl, .signed hop (by omega) hfails⟩
      · obtain ⟨us, rfl, hfails⟩ := ih (by simp only [Rule.rank] at *; omega) hd hp
        rw [List.head?_append] at hsign
        exact ⟨us, rfl, .unsigned hfails hsign⟩
    | power =>
      rcases read_power_eq_error h with hb | ⟨base, s, us, hb, ⟨rfl, rfl, rfl⟩ | ⟨room', rfl, he⟩⟩
      · obtain ⟨us, rfl, hfails⟩ := ih (by simp only [Rule.rank] at *; omega) hd hb
        exact ⟨us, rfl, .base hfails⟩
      · obtain ⟨vs, rfl, hbase, -⟩ := exists_derives_of_read hd hb
        exact ⟨vs, rfl, Fails.caretTooDeep s hbase (by omega)⟩
      · have hlt := length_lt_of_read hb
        obtain ⟨vs, rfl, hbase, -⟩ := exists_derives_of_read hd hb
        simp only [List.length_cons, Rule.rank] at hn hlt
        obtain ⟨xs, rfl, hfails⟩ := ih (d := d + 1) (by simp only [Rule.rank]; omega) (by omega) he
        exact ⟨vs ++ ⟨.caret, s⟩ :: xs, by simp, .exponent s hbase (by omega) hfails⟩
    | atom =>
      rcases read_atom_eq_error h with ⟨rfl, rfl, hstart⟩ |
        ⟨s, us, rfl, ⟨rfl, rfl, rfl⟩ | ⟨room', rfl, hi⟩ | ⟨room', inner, rfl, hi, rfl, hclose⟩⟩
      · exact ⟨[], rfl, Fails.atom hstart⟩
      · exact ⟨[], rfl, Fails.leftParenTooDeep s (by omega)⟩
      · simp only [List.length_cons, Rule.rank] at hn
        obtain ⟨vs, rfl, hfails⟩ := ih (d := d + 1) (by simp only [Rule.rank]; omega) (by omega) hi
        exact ⟨⟨.leftParen, s⟩ :: vs, rfl, .group s (by omega) hfails⟩
      · obtain ⟨vs, rfl, hinner, hstops⟩ :=
          exists_derives_of_read (show room' + (d + 1) = maxDepth by omega) hi
        exact ⟨⟨.leftParen, s⟩ :: vs, rfl, Fails.rightParen s (by omega) hinner hstops hclose⟩

/-- Where the reader fails, the rule fails. -/
theorem exists_fails_of_read {rule : Rule} {room d : Nat} {ts rest : List Token} {problem : SyntaxProblem}
    (hd : room + d = maxDepth) (h : read rule room ts = .error ⟨problem, rest⟩) :
    ∃ us, ts = us ++ rest ∧ Fails rule d us rest.head? problem :=
  exists_fails_of_read_of_lt _ (Nat.lt_succ_self _) hd h

/-- Where a rule fails, what it has read can be completed, and what stands there blocks it. -/
theorem exists_blocks_of_read {rule : Rule} {room d : Nat} {ts rest : List Token} {problem : SyntaxProblem}
    (hd : room + d = maxDepth) (h : read rule room ts = .error ⟨problem, rest⟩) :
    ∃ us, ts = us ++ rest ∧ Blocks rule d us rest.head? problem := by
  obtain ⟨us, hus, hfails⟩ := exists_fails_of_read hd h
  exact ⟨us, hus, hfails.blocks⟩

end Reckoner.Expr
