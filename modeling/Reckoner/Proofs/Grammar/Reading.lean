import Reckoner.Proofs.Grammar.Derivation
import Reckoner.Proofs.Token.Scanning

/-!
# The reader against the grammar

The reader reads exactly what the grammar derives, with the same tree.

* A derivation is read as it is, when what follows does not go on with it (`Derives.read_eq`).
* What was read has a derivation, and what is left does not go on with it (`exists_derives_of_read`). The induction is
  that of the reader, on the tokens that are left.
* So a list of tokens has one tree at most (`Derives.tree_unique`), and a whole list is accepted if and only if the
  tokens in front of its end are derived as an expression at level zero (`ofTokens_eq_ok_iff`, `ofTokens_iff_derives`).

The levels of the grammar count up to `maxDepth`, the room of the reader counts down from it.
-/

namespace Reckoner.Expr

/-! ## Derivations are read -/

theorem room_eq_succ {d : Nat} (h : d + 1 ≤ maxDepth) : maxDepth - d = maxDepth - (d + 1) + 1 := by
  omega

theorem readChain_of_stops {c : Chain} {rest : List Token} (room : Nat) (left : Expr)
    (h : (Rule.chain c).Stops rest) : readChain c room left rest = .ok (left, rest) := by
  cases rest with
  | nil => exact readChain_nil c left
  | cons t ts =>
    refine readChain_of_op?_eq_none left ?_
    have hc := Rule.stops_cons.mp h
    rcases t with ⟨kind, s⟩
    cases c <;> cases kind <;> first | rfl | cases hc

theorem readPower_of_stops {rest : List Token} (room : Nat) (base : Expr) (h : Rule.power.Stops rest) :
    readPower room base rest = .ok (base, rest) := by
  cases rest with
  | nil => exact readPower_nil base
  | cons t ts =>
    refine readPower_of_ne_caret base fun ht => ?_
    simpa [Rule.continues, ht] using Rule.stops_cons.mp h

/-- An expression that does not begin with a keyword is a sum. -/
theorem read_expression_of_derives_sum {d room : Nat} {ts : List Token} {tree : Expr} (rest : List Token)
    (h : Derives (.chain .sum) d ts tree) :
    read .expression room (ts ++ rest) = read (.chain .sum) room (ts ++ rest) := by
  obtain ⟨t, us, rfl, ht⟩ := h.exists_cons
  exact read_expression_of_startsOperand ht

/-- A factor that does not begin with a sign is a power. -/
theorem read_factor_of_derives_power {d room : Nat} {ts : List Token} {tree : Expr} (rest : List Token)
    (h : Derives .power d ts tree) : read .factor room (ts ++ rest) = read .power room (ts ++ rest) := by
  obtain ⟨t, us, rfl, ht⟩ := h.exists_cons
  exact read_factor_of_sign?_eq_none (Rule.sign?_of_starts_power ht)

/-- A derivation is read as it is in front of whatever does not go on with it. Behind the `k + 1` operands of a chain
the reader has `k` levels less, and goes on from the tree folded so far. -/
theorem Derives.read_eq {rule : Rule} {d : Nat} {ts : List Token} {tree : Expr} (h : Derives rule d ts tree) :
    ∀ rest, rule.Stops rest → read rule (maxDepth - d) (ts ++ rest) = .ok (tree, rest) := by
  induction h using Derives.rec (motive_2 := fun c d k ts tree _ => ∀ rest, c.operand.Stops rest →
    read (.chain c) (maxDepth - d) (ts ++ rest) = readChain c (maxDepth - (d + k)) tree rest) with
  | declaration k name s nameSpan s' _ ih =>
    intro rest hrest
    simp only [List.cons_append]
    rw [read_declaration, ih rest hrest]
    rfl
  | sum h ih =>
    intro rest hrest
    rw [read_expression_of_derives_sum rest h]
    exact ih rest hrest
  | chain _ ih =>
    intro rest hrest
    rw [ih rest (Chain.stops_operand hrest)]
    exact readChain_of_stops _ _ hrest
  | signed ht hd _ ih =>
    intro rest hrest
    rw [List.cons_append, room_eq_succ hd, read_factor_succ ht, ih rest hrest]
    rfl
  | unsigned h ih =>
    intro rest hrest
    rw [read_factor_of_derives_power rest h]
    exact ih rest hrest
  | base _ ih =>
    intro rest hrest
    rw [read_power, ih rest (Rule.stops_atom rest)]
    exact readPower_of_stops _ _ hrest
  | raised s _ hd _ ih₁ ih₂ =>
    intro rest hrest
    rw [List.append_assoc, read_power, ih₁ _ (Rule.stops_atom _)]
    simp only [Except.bind, List.cons_append]
    rw [room_eq_succ hd, readPower_succ, ih₂ rest hrest]
    rfl
  | number n s => exact fun rest _ => read_number n s
  | identifier name s => exact fun rest _ => read_identifier name s
  | group s s' hd _ ih =>
    intro rest _
    rw [List.cons_append, List.append_assoc, List.singleton_append, room_eq_succ hd, read_leftParen_succ,
      ih _ (Rule.stops_rightParen _ s' _)]
    rfl
  | first _ ih rest hrest =>
    rw [read_chain, ih rest hrest]
    rfl
  | @next c d k us vs left right t op _ hop hd _ ih₁ ih₂ rest hrest =>
    have hroom : maxDepth - (d + k) = maxDepth - (d + (k + 1)) + 1 := by omega
    rw [List.append_assoc, List.cons_append, ih₁ _ (Chain.stops_operand_of_op? hop _), hroom,
      readChain_succ left hop, ih₂ rest hrest]
    rfl

/-- No rule derives the same tokens with two trees. -/
theorem Derives.tree_unique {rule : Rule} {d : Nat} {ts : List Token} {tree₁ tree₂ : Expr}
    (h₁ : Derives rule d ts tree₁) (h₂ : Derives rule d ts tree₂) : tree₁ = tree₂ := by
  have h := (h₁.read_eq [] rule.stops_nil).symm.trans (h₂.read_eq [] rule.stops_nil)
  cases h
  rfl

/-! ## What an expression begins with -/

/-- What can stand where an expression is read: a declaration or as much of one as there is, an operand, or neither. -/
inductive Front : List Token → Prop
  | declaration (k : Keyword) (name : String) (s nameSpan s' : Span) (ts : List Token) :
      Front (⟨.keyword k, s⟩ :: ⟨.identifier name, nameSpan⟩ :: ⟨.equal, s'⟩ :: ts)
  | noEquals (k : Keyword) (name : String) (s nameSpan : Span) (ts : List Token) :
      (∀ t ∈ ts.head?, t.kind ≠ .equal) → Front (⟨.keyword k, s⟩ :: ⟨.identifier name, nameSpan⟩ :: ts)
  | noName (k : Keyword) (s : Span) (ts : List Token) :
      (∀ t ∈ ts.head?, ∀ name, t.kind ≠ .identifier name) → Front (⟨.keyword k, s⟩ :: ts)
  | operand (t : Token) (ts : List Token) : startsOperand t.kind = true → Front (t :: ts)
  | nothing (ts : List Token) : (∀ t ∈ ts.head?, Rule.expression.starts t.kind = false) → Front ts

theorem front (ts : List Token) : Front ts := by
  rcases ts with _ | ⟨⟨kind, s⟩, ts⟩
  · exact .nothing [] (by simp)
  cases kind with
  | keyword k =>
    rcases ts with _ | ⟨⟨kind, nameSpan⟩, ts⟩
    · exact .noName k s [] (by simp)
    cases kind with
    | identifier name =>
      rcases ts with _ | ⟨⟨kind, s'⟩, ts⟩
      · exact .noEquals k name s nameSpan [] (by simp)
      by_cases heq : kind = .equal
      · subst heq
        exact .declaration k name s nameSpan s' ts
      · exact .noEquals k name s nameSpan _ (by simpa using heq)
    | _ => exact .noName k s _ (by simp)
  | number _ | identifier _ | leftParen | plus | minus => exact .operand _ ts rfl
  | _ => exact .nothing _ (by simp [Rule.starts, startsOperand])

section Front

variable {room : Nat} {ts : List Token}

theorem read_expression_of_noEquals (k : Keyword) (name : String) (s nameSpan : Span)
    (h : ∀ t ∈ ts.head?, t.kind ≠ .equal) :
    read .expression room (⟨.keyword k, s⟩ :: ⟨.identifier name, nameSpan⟩ :: ts) = .error ⟨.expectedEquals, ts⟩ := by
  refine read_declaration_without_equals k s nameSpan name ?_
  rintro s' us rfl
  exact h _ rfl rfl

theorem read_expression_of_noName (k : Keyword) (s : Span) (h : ∀ t ∈ ts.head?, ∀ name, t.kind ≠ .identifier name) :
    read .expression room (⟨.keyword k, s⟩ :: ts) = .error ⟨.expectedIdentifier, ts⟩ := by
  refine read_declaration_without_name k s ?_
  rintro name s' us rfl
  exact h _ rfl name rfl

theorem read_expression_of_nothing (h : ∀ t ∈ ts.head?, Rule.expression.starts t.kind = false) :
    read .expression room ts = .error ⟨.expectedExpression, ts⟩ := by
  rcases ts with _ | ⟨⟨kind, s⟩, ts⟩
  · exact read_expression_nil
  · have hkind := h _ rfl
    refine read_expression_of_not_startsOperand ?_ ?_
    · cases kind <;> first | rfl | exact hkind
    · rintro k rfl
      exact absurd hkind.symm Bool.false_ne_true

/-- A sign is no atom, though an expression can begin with it. -/
theorem read_atom_of_nothing (h : ∀ t ∈ ts.head?, Rule.atom.starts t.kind = false) :
    read .atom room ts = .error ⟨.expectedOperand, ts⟩ := by
  rcases ts with _ | ⟨t, ts⟩
  · exact read_atom_nil
  cases hop : t.kind.sign? with
  | some op => exact read_atom_of_sign hop
  | none =>
    refine read_atom_of_not_startsOperand ?_
    simpa [Rule.starts, hop] using h t rfl

end Front

/-! ## What was read has a derivation -/

section Inversion

variable {room : Nat} {ts rest : List Token} {tree : Expr}

theorem read_expression_eq_ok (h : read .expression room ts = .ok (tree, rest)) :
    (∃ k name s nameSpan s' us value,
      ts = ⟨.keyword k, s⟩ :: ⟨.identifier name, nameSpan⟩ :: ⟨.equal, s'⟩ :: us ∧
      read .expression room us = .ok (value, rest) ∧ tree = declare k name nameSpan value) ∨
    read (.chain .sum) room ts = .ok (tree, rest) := by
  cases front ts with
  | declaration k name s nameSpan s' us =>
    rw [read_declaration] at h
    obtain ⟨⟨value, rest'⟩, hv, hp⟩ := Except.map_eq_ok_iff.mp h
    cases hp
    exact Or.inl ⟨k, name, s, nameSpan, s', us, value, rfl, hv, rfl⟩
  | noEquals k name s nameSpan us hne =>
    rw [read_expression_of_noEquals k name s nameSpan hne] at h
    cases h
  | noName k s us hne =>
    rw [read_expression_of_noName k s hne] at h
    cases h
  | operand t us hstart =>
    rw [read_expression_of_startsOperand hstart] at h
    exact Or.inr h
  | nothing _ hstart =>
    rw [read_expression_of_nothing hstart] at h
    cases h

theorem read_chain_eq_ok {c : Chain} (h : read (.chain c) room ts = .ok (tree, rest)) :
    ∃ left us, read c.operand room ts = .ok (left, us) ∧ readChain c room left us = .ok (tree, rest) := by
  rw [read_chain] at h
  obtain ⟨⟨left, us⟩, hl, hr⟩ := Except.bind_eq_ok_iff.mp h
  exact ⟨left, us, hl, hr⟩

theorem readChain_eq_ok {c : Chain} {left : Expr} (h : readChain c room left ts = .ok (tree, rest)) :
    (ts = rest ∧ tree = left ∧ ∀ t ∈ rest.head?, c.op? t.kind = none) ∨
    ∃ t op us right vs room', ts = t :: us ∧ c.op? t.kind = some op ∧ room = room' + 1 ∧
      read c.operand room' us = .ok (right, vs) ∧ readChain c room' (operate left op right) vs = .ok (tree, rest) := by
  rcases ts with _ | ⟨t, ts⟩
  · rw [readChain_nil] at h
    cases h
    exact Or.inl ⟨rfl, rfl, fun _ ht => nomatch ht⟩
  cases hop : c.op? t.kind with
  | none =>
    rw [readChain_of_op?_eq_none left hop] at h
    cases h
    exact Or.inl ⟨rfl, rfl, by simpa using hop⟩
  | some op =>
    cases room with
    | zero =>
      rw [readChain_zero left hop] at h
      cases h
    | succ room =>
      rw [readChain_succ left hop] at h
      obtain ⟨⟨right, vs⟩, hr, hc⟩ := Except.bind_eq_ok_iff.mp h
      exact Or.inr ⟨t, op, ts, right, vs, room, rfl, hop, rfl, hr, hc⟩

theorem read_factor_eq_ok (h : read .factor room ts = .ok (tree, rest)) :
    (∃ t op us operand room', ts = t :: us ∧ t.kind.sign? = some op ∧ room = room' + 1 ∧
      read .factor room' us = .ok (operand, rest) ∧ tree = sign op t.span operand) ∨
    read .power room ts = .ok (tree, rest) := by
  rcases ts with _ | ⟨t, ts⟩
  · rw [read_factor_nil] at h
    exact Or.inr h
  cases hop : t.kind.sign? with
  | none =>
    rw [read_factor_of_sign?_eq_none hop] at h
    exact Or.inr h
  | some op =>
    cases room with
    | zero =>
      rw [read_factor_zero hop] at h
      cases h
    | succ room =>
      rw [read_factor_succ hop] at h
      obtain ⟨⟨operand, rest'⟩, ho, hp⟩ := Except.map_eq_ok_iff.mp h
      cases hp
      exact Or.inl ⟨t, op, ts, operand, room, rfl, hop, rfl, ho, rfl⟩

theorem read_power_eq_ok (h : read .power room ts = .ok (tree, rest)) :
    ∃ base us, read .atom room ts = .ok (base, us) ∧ readPower room base us = .ok (tree, rest) := by
  rw [read_power] at h
  obtain ⟨⟨base, us⟩, hb, hp⟩ := Except.bind_eq_ok_iff.mp h
  exact ⟨base, us, hb, hp⟩

theorem readPower_eq_ok {base : Expr} (h : readPower room base ts = .ok (tree, rest)) :
    (ts = rest ∧ tree = base ∧ Rule.power.Stops rest) ∨
    ∃ s us exponent room', ts = ⟨.caret, s⟩ :: us ∧ room = room' + 1 ∧
      read .factor room' us = .ok (exponent, rest) ∧ tree = operate base .pow exponent := by
  rcases ts with _ | ⟨⟨kind, s⟩, ts⟩
  · rw [readPower_nil] at h
    cases h
    exact Or.inl ⟨rfl, rfl, Rule.power.stops_nil⟩
  by_cases hk : kind = .caret
  · subst hk
    cases room with
    | zero =>
      rw [readPower_zero] at h
      cases h
    | succ room =>
      rw [readPower_succ] at h
      obtain ⟨⟨exponent, rest'⟩, he, hp⟩ := Except.map_eq_ok_iff.mp h
      cases hp
      exact Or.inr ⟨s, ts, exponent, room, rfl, rfl, he, rfl⟩
  · rw [readPower_of_ne_caret base hk] at h
    cases h
    exact Or.inl ⟨rfl, rfl, Rule.stops_cons.mpr (decide_eq_false hk)⟩

theorem read_atom_eq_ok (h : read .atom room ts = .ok (tree, rest)) :
    (∃ n s, ts = ⟨.number n, s⟩ :: rest ∧ tree = literal n s) ∨
    (∃ name s, ts = ⟨.identifier name, s⟩ :: rest ∧ tree = access name s) ∨
    ∃ s us s' room', ts = ⟨.leftParen, s⟩ :: us ∧ room = room' + 1 ∧
      read .expression room' us = .ok (tree, ⟨.rightParen, s'⟩ :: rest) := by
  rcases ts with _ | ⟨⟨kind, s⟩, ts⟩
  · rw [read_atom_nil] at h
    cases h
  cases kind with
  | number n =>
    rw [read_number] at h
    cases h
    exact Or.inl ⟨n, s, rfl, rfl⟩
  | identifier name =>
    rw [read_identifier] at h
    cases h
    exact Or.inr (Or.inl ⟨name, s, rfl, rfl⟩)
  | leftParen =>
    cases room with
    | zero =>
      rw [read_leftParen_zero] at h
      cases h
    | succ room =>
      rw [read_leftParen_succ] at h
      obtain ⟨⟨inner, us⟩, hi, hc⟩ := Except.bind_eq_ok_iff.mp h
      rcases us with _ | ⟨⟨kind, s'⟩, us⟩
      · cases hc
      · cases kind with
        | rightParen =>
          cases hc
          exact Or.inr (Or.inr ⟨s, ts, s', room, rfl, rfl, hi⟩)
        | _ => cases hc
  | plus | minus =>
    rw [read_atom_of_sign rfl] at h
    cases h
  | _ =>
    rw [read_atom_of_not_startsOperand rfl] at h
    cases h

end Inversion

theorem length_lt_of_read {rule : Rule} {room : Nat} {ts rest : List Token} {tree : Expr}
    (h : read rule room ts = .ok (tree, rest)) : rest.length < ts.length := by
  obtain ⟨p, _, hp⟩ := Except.map_eq_ok_iff.mp h
  cases hp
  exact p.shorter

/-- What a chain has read on is folded to what it had, when its operands on fewer tokens are derived. -/
theorem exists_folded_of_readChain {c : Chain} {n d : Nat} {rest : List Token} {tree : Expr}
    (hoperand : ∀ {room d' : Nat} {ts us : List Token} {right : Expr}, ts.length < n → room + d' = maxDepth →
      read c.operand room ts = .ok (right, us) →
      ∃ vs, ts = vs ++ us ∧ Derives c.operand d' vs right ∧ c.operand.Stops us)
    {room k : Nat} {us ts : List Token} {left : Expr} (hn : ts.length ≤ n) (hd : room + (d + k) = maxDepth)
    (hleft : Folded c d k us left) (hstops : c.operand.Stops ts) (h : readChain c room left ts = .ok (tree, rest)) :
    ∃ k' vs, ts = vs ++ rest ∧ Folded c d k' (us ++ vs) tree ∧ (Rule.chain c).Stops rest := by
  induction room generalizing k us ts left with
  | zero =>
    rcases readChain_eq_ok h with ⟨rfl, rfl, hop⟩ | ⟨_, _, _, _, _, _, _, _, hroom, _, _⟩
    · exact ⟨k, [], rfl, by simpa using hleft, Chain.stops_of_operand hstops hop⟩
    · omega
  | succ room ih =>
    rcases readChain_eq_ok h with ⟨rfl, rfl, hop⟩ | ⟨t, op, vs, right, ws, room', rfl, hop, hroom, hr, hc⟩
    · exact ⟨k, [], rfl, by simpa using hleft, Chain.stops_of_operand hstops hop⟩
    · obtain rfl : room = room' := by omega
      have hlt := length_lt_of_read hr
      rw [List.length_cons] at hn
      obtain ⟨xs, rfl, hright, hws⟩ := hoperand (by omega) (show room + (d + (k + 1)) = maxDepth by omega) hr
      obtain ⟨k', ys, rfl, hfold, hrest⟩ := ih (by omega) (by omega) (.next hleft hop (by omega) hright) hws hc
      exact ⟨k', t :: (xs ++ ys), by simp, by simpa using hfold, hrest⟩

/-- What a rule has read is derived by it, seen from a bound on what the reader has left to do. -/
theorem exists_derives_of_read_of_lt (n : Nat) {rule : Rule} {room d : Nat} {ts rest : List Token} {tree : Expr}
    (hn : 6 * ts.length + rule.rank < n) (hd : room + d = maxDepth) (h : read rule room ts = .ok (tree, rest)) :
    ∃ us, ts = us ++ rest ∧ Derives rule d us tree ∧ rule.Stops rest := by
  induction n generalizing rule room d ts rest tree with
  | zero => omega
  | succ n ih =>
    cases rule with
    | expression =>
      rcases read_expression_eq_ok h with ⟨k, name, s, nameSpan, s', us, value, rfl, hv, rfl⟩ | hs
      · simp only [List.length_cons] at hn
        obtain ⟨vs, rfl, hder, hstops⟩ := ih (by omega) hd hv
        exact ⟨_, rfl, .declaration k name s nameSpan s' hder, hstops⟩
      · obtain ⟨us, rfl, hder, hstops⟩ := ih (by simp only [Rule.rank] at *; omega) hd hs
        exact ⟨us, rfl, .sum hder, hstops⟩
    | chain c =>
      obtain ⟨left, us, hl, hr⟩ := read_chain_eq_ok h
      have hrank := c.rank_operand_lt
      have hlt := length_lt_of_read hl
      obtain ⟨vs, rfl, hleft, hus⟩ := ih (by omega) hd hl
      have hoperand : ∀ {room d' : Nat} {ts us' : List Token} {right : Expr}, ts.length < us.length →
          room + d' = maxDepth → read c.operand room ts = .ok (right, us') →
          ∃ ws, ts = ws ++ us' ∧ Derives c.operand d' ws right ∧ c.operand.Stops us' :=
        fun hlen hd' hread => ih (by omega) hd' hread
      obtain ⟨k, ws, rfl, hfold, hstops⟩ :=
        exists_folded_of_readChain hoperand (Nat.le_refl _) hd (.first hleft) hus hr
      exact ⟨vs ++ ws, (List.append_assoc _ _ _).symm, .chain hfold, hstops⟩
    | factor =>
      rcases read_factor_eq_ok h with ⟨t, op, us, operand, room', rfl, hop, rfl, ho, rfl⟩ | hp
      · rw [List.length_cons] at hn
        obtain ⟨vs, rfl, hder, hstops⟩ := ih (d := d + 1) (by omega) (by omega) ho
        exact ⟨t :: vs, rfl, .signed hop (by omega) hder, hstops⟩
      · obtain ⟨us, rfl, hder, hstops⟩ := ih (by simp only [Rule.rank] at *; omega) hd hp
        exact ⟨us, rfl, .unsigned hder, hstops⟩
    | power =>
      obtain ⟨base, us, hb, hp⟩ := read_power_eq_ok h
      have hlt := length_lt_of_read hb
      obtain ⟨vs, rfl, hbase, -⟩ := ih (by simp only [Rule.rank] at *; omega) hd hb
      rcases readPower_eq_ok hp with ⟨rfl, rfl, hstops⟩ | ⟨s, ws, exponent, room', rfl, rfl, he, rfl⟩
      · exact ⟨vs, rfl, .base hbase, hstops⟩
      · simp only [List.length_cons, List.length_append, Rule.rank] at hn hlt
        obtain ⟨xs, rfl, hexp, hstops⟩ := ih (d := d + 1) (by simp only [Rule.rank]; omega) (by omega) he
        exact ⟨vs ++ ⟨.caret, s⟩ :: xs, by simp, .raised s hbase (by omega) hexp, hstops⟩
    | atom =>
      rcases read_atom_eq_ok h with ⟨m, s, rfl, rfl⟩ | ⟨name, s, rfl, rfl⟩ | ⟨s, us, s', room', rfl, rfl, hi⟩
      · exact ⟨[_], rfl, .number m s, Rule.stops_atom rest⟩
      · exact ⟨[_], rfl, .identifier name s, Rule.stops_atom rest⟩
      · simp only [List.length_cons, Rule.rank] at hn
        obtain ⟨vs, rfl, hder, -⟩ := ih (d := d + 1) (by simp only [Rule.rank]; omega) (by omega) hi
        exact ⟨⟨.leftParen, s⟩ :: (vs ++ [⟨.rightParen, s'⟩]), by simp, .group s s' (by omega) hder,
          Rule.stops_atom rest⟩

/-- What a rule has read is derived by it, and what it has left does not go on with that. -/
theorem exists_derives_of_read {rule : Rule} {room d : Nat} {ts rest : List Token} {tree : Expr}
    (hd : room + d = maxDepth) (h : read rule room ts = .ok (tree, rest)) :
    ∃ us, ts = us ++ rest ∧ Derives rule d us tree ∧ rule.Stops rest :=
  exists_derives_of_read_of_lt _ (Nat.lt_succ_self _) hd h

/-! ## Whole lists of tokens -/

theorem body_append_stop {us rest : List Token} {stop : Token} (hus : ∀ t ∈ us, t.isEof = false)
    (hstop : stop.isEof = true) : body (us ++ stop :: rest) = us := by
  unfold body
  rw [List.takeWhile_append_of_pos fun t ht => by simp [hus t ht], List.takeWhile_cons_of_neg (by simp [hstop]),
    List.append_nil]

theorem ofBody_eq_ok_iff {ts : List Token} {stop : Span} {tree : Expr} :
    ofBody ts stop = .ok tree ↔ read .expression maxDepth ts = .ok (tree, []) := by
  unfold ofBody
  rcases read .expression maxDepth ts with stuck | ⟨tree', rest⟩
  · simp
  · cases rest <;> simp

theorem read_eq_ok_nil_iff {rule : Rule} {d : Nat} {ts : List Token} {tree : Expr} (hd : d ≤ maxDepth) :
    read rule (maxDepth - d) ts = .ok (tree, []) ↔ Derives rule d ts tree := by
  constructor
  · intro h
    obtain ⟨us, hus, hder, -⟩ := exists_derives_of_read (Nat.sub_add_cancel hd) h
    rw [List.append_nil] at hus
    rwa [hus]
  · intro h
    simpa using h.read_eq [] rule.stops_nil

/-- What is accepted is what an expression at level zero derives in front of the first end. -/
theorem ofTokens_eq_ok_iff {ts : List Token} {tree : Expr} :
    ofTokens ts = .ok tree ↔ Derives .expression 0 (body ts) tree := by
  unfold ofTokens
  rw [ofBody_eq_ok_iff]
  exact read_eq_ok_nil_iff (Nat.zero_le _)

theorem ofTokens_of_derives {ts : List Token} {stop : Token} {tree : Expr} (hstop : stop.isEof = true)
    (rest : List Token) (h : Derives .expression 0 ts tree) : ofTokens (ts ++ stop :: rest) = .ok tree := by
  rw [ofTokens_eq_ok_iff, body_append_stop h.isEof_eq_false hstop]
  exact h

/-- **The grammar is exact and unambiguous**: a list whose only end is its last token is accepted with a tree if and
only if the tokens in front are derived with it; no tokens are derived with two trees. The tokens of every text are
such a list. -/
theorem ofTokens_iff_derives :
    (∀ ts, Token.Terminated ts → ∀ tree, ofTokens ts = .ok tree ↔ Derives .expression 0 ts.dropLast tree) ∧
    (∀ ts tree₁ tree₂, Derives .expression 0 ts tree₁ → Derives .expression 0 ts tree₂ → tree₁ = tree₂) ∧
    ∀ source ts, Token.scan source = .ok ts → Token.Terminated ts := by
  refine ⟨?_, ?_, ?_⟩
  · rintro ts ⟨us, stop, rfl, hstop, hus⟩ tree
    rw [ofTokens_eq_ok_iff, body_append_stop hus hstop, List.dropLast_concat]
  · intro ts tree₁ tree₂ h₁ h₂
    exact h₁.tree_unique h₂
  · intro source ts h
    exact Token.terminated_of_scan h

/-- A span for tokens that come from no text. -/
def nowhere : Span :=
  .atEnd (Source.start ⟨"", ""⟩)

/-- The tokens of `let x = 2 - 3 ^ (y)`. -/
def sampleTokens : List Token :=
  [.keyword .letKeyword, .identifier "x", .equal, .number (.int 2), .minus, .number (.int 3), .caret, .leftParen,
    .identifier "y", .rightParen].map (⟨·, nowhere⟩)

theorem ofTokens_iff_derives_sample :
    Token.Terminated (sampleTokens ++ [⟨.eof, nowhere⟩]) ∧
    ofTokens (sampleTokens ++ [⟨.eof, nowhere⟩]) = .ok (declare .letKeyword "x" nowhere
      (operate (literal (.int 2) nowhere) .sub
        (operate (literal (.int 3) nowhere) .pow (access "y" nowhere)))) := by
  have hlast : Token.Terminated (sampleTokens ++ [⟨.eof, nowhere⟩]) := ⟨sampleTokens, _, rfl, rfl, by decide⟩
  have hy : Derives .expression 3 [⟨.identifier "y", nowhere⟩] (access "y" nowhere) :=
    .sum (.chain (.first (.chain (.first (.unsigned (.base (.identifier "y" nowhere)))))))
  have hpower := Derives.raised nowhere (.number (d := 1) (.int 3) nowhere) (by decide)
    (.unsigned (.base (.group nowhere nowhere (by decide) hy)))
  have hsum := Folded.next (c := .sum) (t := ⟨.minus, nowhere⟩)
    (.first (.chain (.first (.unsigned (.base (.number (d := 0) (.int 2) nowhere)))))) rfl (by decide)
    (.chain (.first (.unsigned hpower)))
  exact ⟨hlast, (ofTokens_iff_derives.1 _ hlast _).mpr
    (.declaration .letKeyword "x" nowhere nowhere nowhere (.sum (.chain hsum)))⟩

end Reckoner.Expr
