import Reckoner.Expr.Walk
import Reckoner.Proofs.Grammar.Reading

/-!
# Chains of any operators

The two chains of the grammar and its powers are read alike: an operand by one rule, then operands by another with
operators from a list between them. `readChaining` reads so by any two rules and with any operators, and each of the
three is a case of it (`read_chain_eq_readChaining`, `read_power_eq_readChaining`).
-/

namespace Reckoner.Expr

/-- What `folding` comes to: operands by `next` behind `left`, with operators of `ops` between them. -/
def readFolding (ops : List Op) (next : Rule) : Nat → Expr → List Token → Except Stuck (Expr × List Token)
  | _, left, [] => .ok (left, [])
  | room, left, t :: ts =>
    match opAmong? ops t.kind, room with
    | none, _ => .ok (left, t :: ts)
    | some _, 0 => .error ⟨.tooDeep, t :: ts⟩
    | some op, room + 1 => (read next room ts).bind fun p => readFolding ops next room (operate left op p.1) p.2

/-- What `chaining` comes to. -/
def readChaining (ops : List Op) (first next : Rule) (room : Nat) (ts : List Token) :
    Except Stuck (Expr × List Token) :=
  (read first room ts).bind fun p => readFolding ops next room p.1 p.2

section

variable {ops : List Op} {next : Rule} {room : Nat} {t : Token} {ts : List Token} {op : Op}

theorem readFolding_of_none (left : Expr) (h : opAmong? ops t.kind = none) :
    readFolding ops next room left (t :: ts) = .ok (left, t :: ts) := by
  rw [readFolding.eq_def]
  simp only [h]

theorem readFolding_zero (left : Expr) (h : opAmong? ops t.kind = some op) :
    readFolding ops next 0 left (t :: ts) = .error ⟨.tooDeep, t :: ts⟩ := by
  rw [readFolding.eq_def]
  simp only [h]

theorem readFolding_succ (left : Expr) (h : opAmong? ops t.kind = some op) :
    readFolding ops next (room + 1) left (t :: ts) =
      (read next room ts).bind fun p => readFolding ops next room (operate left op p.1) p.2 := by
  rw [readFolding.eq_def]
  simp only [h]

end

theorem Chain.opAmong?_ops (c : Chain) (kind : Token.Kind) : opAmong? c.ops kind = c.op? kind := by
  cases c <;> cases kind <;> rfl

/-- What a chain reads on with is read by folding its own operators. -/
theorem readChain_eq_readFolding (c : Chain) (room : Nat) (left : Expr) (ts : List Token) :
    readChain c room left ts = readFolding c.ops c.operand room left ts := by
  induction room generalizing left ts with
  | zero =>
    rcases ts with _ | ⟨t, ts⟩
    · exact readChain_nil c left
    cases hop : c.op? t.kind with
    | none => rw [readChain_of_op?_eq_none left hop, readFolding_of_none left (c.opAmong?_ops _ ▸ hop)]
    | some op => rw [readChain_zero left hop, readFolding_zero left (c.opAmong?_ops _ ▸ hop)]
  | succ room ih =>
    rcases ts with _ | ⟨t, ts⟩
    · exact readChain_nil c left
    cases hop : c.op? t.kind with
    | none => rw [readChain_of_op?_eq_none left hop, readFolding_of_none left (c.opAmong?_ops _ ▸ hop)]
    | some op => simp only [readChain_succ left hop, readFolding_succ left (c.opAmong?_ops _ ▸ hop), ih]

theorem read_chain_eq_readChaining (c : Chain) (room : Nat) (ts : List Token) :
    read (.chain c) room ts = readChaining c.ops c.operand c.operand room ts := by
  rw [read_chain, readChaining]
  simp only [readChain_eq_readFolding]

theorem opAmong?_pow_of_ne_caret {kind : Token.Kind} (h : kind ≠ .caret) : opAmong? [.pow] kind = none := by
  cases kind <;> first | rfl | exact absurd rfl h

/-- A power folds at most once: no caret is left behind an exponent. -/
theorem readPower_eq_readFolding {room : Nat} (hroom : room ≤ maxDepth) (base : Expr) (ts : List Token) :
    readPower room base ts = readFolding [.pow] .factor room base ts := by
  rcases ts with _ | ⟨⟨kind, s⟩, ts⟩
  · exact (readPower_nil base).trans (by rw [readFolding])
  by_cases hk : kind ≠ .caret
  · rw [readPower_of_ne_caret base hk, readFolding_of_none base (opAmong?_pow_of_ne_caret hk)]
  obtain rfl : kind = .caret := Decidable.not_not.mp hk
  cases room with
  | zero => rw [readPower_zero, readFolding_zero base rfl]
  | succ room =>
    rw [readPower_succ, readFolding_succ base rfl]
    cases hread : read .factor room ts with
    | error stuck => rfl
    | ok p =>
      obtain ⟨exponent, rest⟩ := p
      obtain ⟨us, -, -, hstops⟩ := exists_derives_of_read (d := maxDepth - room) (by omega) hread
      rcases rest with _ | ⟨t, rest⟩
      · simp only [Except.map, Except.bind, readFolding]
      · have ht : t.kind ≠ .caret := by simpa [Rule.continues] using Rule.stops_cons.mp hstops
        simp only [Except.map, Except.bind, readFolding_of_none _ (opAmong?_pow_of_ne_caret ht)]

theorem read_power_eq_readChaining {room : Nat} (hroom : room ≤ maxDepth) (ts : List Token) :
    read .power room ts = readChaining [.pow] .atom .factor room ts := by
  rw [read_power, readChaining]
  simp only [readPower_eq_readFolding hroom]

end Reckoner.Expr
