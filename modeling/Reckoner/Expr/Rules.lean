import Reckoner.Expr.Reader

/-!
# The rules as equations

What `read` does at the front of the tokens, a rule at a time. `readChain` and `readPower` are what it does behind an
operand. With these equations at hand nothing else has to unfold the reader.
-/

namespace Reckoner.Expr

variable {room : Nat} {ts : List Token}

/-! ## Expressions -/

theorem read_declaration (k : Keyword) (s nameSpan s' : Span) (name : String) :
    read .expression room (⟨.keyword k, s⟩ :: ⟨.identifier name, nameSpan⟩ :: ⟨.equal, s'⟩ :: ts) =
      (read .expression room ts).map fun p => (declare k name nameSpan p.1, p.2) := by
  unfold read
  rw [parse]
  rcases parse .expression room ts with _ | p <;> rfl

theorem read_declaration_without_name (k : Keyword) (s : Span)
    (h : ∀ name s' rest, ts ≠ ⟨.identifier name, s'⟩ :: rest) :
    read .expression room (⟨.keyword k, s⟩ :: ts) = .error ⟨.expectedIdentifier, ts⟩ := by
  unfold read
  rcases ts with _ | ⟨⟨kind, s'⟩, rest⟩
  · rw [parse.eq_def]; rfl
  · cases kind with
    | identifier name => exact absurd rfl (h name s' rest)
    | _ => rw [parse.eq_def]; rfl

theorem read_declaration_without_equals (k : Keyword) (s nameSpan : Span) (name : String)
    (h : ∀ s' rest, ts ≠ ⟨.equal, s'⟩ :: rest) :
    read .expression room (⟨.keyword k, s⟩ :: ⟨.identifier name, nameSpan⟩ :: ts) =
      .error ⟨.expectedEquals, ts⟩ := by
  unfold read
  rcases ts with _ | ⟨⟨kind, s'⟩, rest⟩
  · rw [parse.eq_def]; rfl
  · cases kind with
    | equal => exact absurd rfl (h s' rest)
    | _ => rw [parse.eq_def]; rfl

theorem read_expression_of_startsOperand {t : Token} (h : startsOperand t.kind = true) :
    read .expression room (t :: ts) = read (.chain .sum) room (t :: ts) := by
  obtain ⟨kind, s⟩ := t
  unfold read
  cases kind <;> first | exact absurd h Bool.false_ne_true | (rw [parse.eq_def]; rfl)

theorem read_expression_of_not_startsOperand {t : Token} (h : startsOperand t.kind = false)
    (hk : ∀ k, t.kind ≠ .keyword k) : read .expression room (t :: ts) = .error ⟨.expectedExpression, t :: ts⟩ := by
  obtain ⟨kind, s⟩ := t
  unfold read
  cases kind with
  | keyword k => exact absurd rfl (hk k)
  | _ => first | exact absurd h.symm Bool.false_ne_true | (rw [parse.eq_def]; rfl)

theorem read_expression_nil : read .expression room [] = .error ⟨.expectedExpression, []⟩ := by
  unfold read
  rw [parse]
  rfl

/-! ## Chains -/

theorem read_chain (c : Chain) :
    read (.chain c) room ts = (read c.operand room ts).bind fun p => readChain c room p.1 p.2 := by
  unfold read readChain
  rw [parse]
  rcases parse c.operand room ts with _ | p
  · rfl
  · simp only [bind, Except.bind, Except.map, Parsed.pair]
    rcases parseChain c room p.tree p.rest with _ | q <;> rfl

theorem readChain_nil (c : Chain) (left : Expr) : readChain c room left [] = .ok (left, []) := by
  unfold readChain
  rw [parseChain]
  rfl

theorem readChain_of_op?_eq_none {c : Chain} {t : Token} (left : Expr) (h : c.op? t.kind = none) :
    readChain c room left (t :: ts) = .ok (left, t :: ts) := by
  unfold readChain
  rw [parseChain.eq_def]
  simp only [h]
  rfl

theorem readChain_zero {c : Chain} {t : Token} {op : Op} (left : Expr) (h : c.op? t.kind = some op) :
    readChain c 0 left (t :: ts) = .error ⟨.tooDeep, t :: ts⟩ := by
  unfold readChain
  rw [parseChain.eq_def]
  simp only [h]
  rfl

theorem readChain_succ {c : Chain} {t : Token} {op : Op} (left : Expr) (h : c.op? t.kind = some op) :
    readChain c (room + 1) left (t :: ts) =
      (read c.operand room ts).bind fun p => readChain c room (operate left op p.1) p.2 := by
  unfold readChain read
  rw [parseChain.eq_def]
  simp only [h]
  rcases parse c.operand room ts with _ | p
  · rfl
  · simp only [bind, Except.bind, Except.map, Parsed.pair]
    rcases parseChain c room (operate left op p.tree) p.rest with _ | q <;> rfl

/-! ## Factors and powers -/

theorem read_factor_nil : read .factor room [] = read .power room [] := by
  unfold read
  rw [parse]

theorem read_factor_of_sign?_eq_none {t : Token} (h : t.kind.sign? = none) :
    read .factor room (t :: ts) = read .power room (t :: ts) := by
  unfold read
  rw [parse.eq_def]
  simp only [h]

theorem read_factor_zero {t : Token} {op : Sign} (h : t.kind.sign? = some op) :
    read .factor 0 (t :: ts) = .error ⟨.tooDeep, t :: ts⟩ := by
  unfold read
  rw [parse.eq_def]
  simp only [h]
  rfl

theorem read_factor_succ {t : Token} {op : Sign} (h : t.kind.sign? = some op) :
    read .factor (room + 1) (t :: ts) = (read .factor room ts).map fun p => (sign op t.span p.1, p.2) := by
  unfold read
  rw [parse.eq_def]
  simp only [h]
  rcases parse .factor room ts with _ | p <;> rfl

theorem read_power :
    read .power room ts = (read .atom room ts).bind fun p => readPower room p.1 p.2 := by
  unfold read readPower
  rw [parse]
  rcases parse .atom room ts with _ | p
  · rfl
  · simp only [bind, Except.bind, Except.map, Parsed.pair]
    rcases parsePower room p.tree p.rest with _ | q <;> rfl

theorem readPower_nil (base : Expr) : readPower room base [] = .ok (base, []) := by
  unfold readPower
  rw [parsePower.eq_def]
  rfl

theorem readPower_of_ne_caret {t : Token} (base : Expr) (h : t.kind ≠ .caret) :
    readPower room base (t :: ts) = .ok (base, t :: ts) := by
  obtain ⟨kind, s⟩ := t
  unfold readPower
  rw [parsePower.eq_def]
  cases kind <;> first | exact absurd rfl h | rfl

theorem readPower_zero (base : Expr) (s : Span) :
    readPower 0 base (⟨.caret, s⟩ :: ts) = .error ⟨.tooDeep, ⟨.caret, s⟩ :: ts⟩ := by
  unfold readPower
  rw [parsePower]
  rfl

theorem readPower_succ (base : Expr) (s : Span) :
    readPower (room + 1) base (⟨.caret, s⟩ :: ts) =
      (read .factor room ts).map fun p => (operate base .pow p.1, p.2) := by
  unfold readPower read
  rw [parsePower]
  rcases parse .factor room ts with _ | p <;> rfl

/-! ## Atoms -/

theorem read_number (n : Number) (s : Span) : read .atom room (⟨.number n, s⟩ :: ts) = .ok (literal n s, ts) := by
  unfold read
  rw [parse]
  rfl

theorem read_identifier (name : String) (s : Span) :
    read .atom room (⟨.identifier name, s⟩ :: ts) = .ok (access name s, ts) := by
  unfold read
  rw [parse]
  rfl

theorem read_leftParen_zero (s : Span) :
    read .atom 0 (⟨.leftParen, s⟩ :: ts) = .error ⟨.tooDeep, ⟨.leftParen, s⟩ :: ts⟩ := by
  unfold read
  rw [parse]
  rfl

theorem read_leftParen_succ (s : Span) :
    read .atom (room + 1) (⟨.leftParen, s⟩ :: ts) =
      (read .expression room ts).bind fun
        | (inner, ⟨.rightParen, _⟩ :: rest) => .ok (inner, rest)
        | (_, rest) => .error ⟨.expectedRightParen, rest⟩ := by
  unfold read
  rw [parse]
  rcases parse .expression room ts with _ | ⟨inner, rest, shorter⟩
  · rfl
  · rcases rest with _ | ⟨⟨kind, s'⟩, rest⟩
    · rfl
    · cases kind <;> rfl

theorem read_atom_nil : read .atom room [] = .error ⟨.expectedOperand, []⟩ := by
  unfold read
  rw [parse.eq_def]
  rfl

theorem read_atom_of_sign {t : Token} {op : Sign} (h : t.kind.sign? = some op) :
    read .atom room (t :: ts) = .error ⟨.expectedOperand, t :: ts⟩ := by
  obtain ⟨kind, s⟩ := t
  unfold read
  cases kind <;> first | (rw [parse.eq_def]; rfl) | cases h

theorem read_atom_of_not_startsOperand {t : Token} (h : startsOperand t.kind = false) :
    read .atom room (t :: ts) = .error ⟨.expectedOperand, t :: ts⟩ := by
  obtain ⟨kind, s⟩ := t
  unfold read
  cases kind <;> first | exact absurd h.symm Bool.false_ne_true | (rw [parse.eq_def]; rfl)

end Reckoner.Expr
