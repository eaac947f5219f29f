import Reckoner.Proofs.Number.Double
import Reckoner.Proofs.Number.Integers

/-!
# Operations on finite numbers

Integers and doubles that are neither infinite nor a NaN are **finite**. `Op.apply_of_staysInt` and
`Op.apply_of_not_staysInt` give every operation on finite numbers at once: two integers have an integer or overflow, and
all other operations are the one on doubles, with a check for zero before it and checks of the result after it. A
division does not check whether its result is infinite.

* `Op.apply_isFinite_iff`: the results are finite except for a quotient that is infinite, and never a NaN.
* `Op.apply_div_infinite`: the largest double divided by one half is infinite, not an overflow.
-/

namespace Reckoner

variable {op : Op} {a b n : Number} {x y : Float}

namespace Number

/-- An integer, or a double that is neither infinite nor a NaN. -/
def isFinite : Number → Bool
  | int _ => true
  | float x => x.isFinite
  | signalingNaN => false

theorem natAbs_toInt_lt (n : Int64) : n.toInt.natAbs < 2 ^ 64 := by
  have hlt := n.toInt_lt
  have hle := n.le_toInt
  omega

theorem isFinite_toFloat (h : a.isFinite = true) : a.toFloat.isFinite = true := by
  cases a with
  | int n => exact Float.isFinite_ofInt (natAbs_toInt_lt n)
  | float x => exact h
  | signalingNaN => contradiction

/-- The double nearest to a number is zero only if the number is. -/
theorem toFloat_beq_zero (a : Number) : (a.toFloat == 0) = a.isZero := by
  cases a with
  | int n =>
    have hn : n.toInt = 0 ↔ n = 0 := ⟨fun h => Int64.toInt_inj.1 h, fun h => congrArg Int64.toInt h⟩
    simp only [toFloat, isZero, Float.ofInt_beq_zero (natAbs_toInt_lt n), hn]
  | float x => rfl
  | signalingNaN => decide

theorem eq_int_of_ofInt {i : Int} (h : ofInt i = .ok n) : ∃ m, n = int m := by
  unfold ofInt at h
  split at h <;> cases h
  exact ⟨_, rfl⟩

/-- A power of finite doubles, with the three checks in their order. -/
theorem powFloat_of_isFinite (hx : x.isFinite = true) (hy : y.isFinite = true) :
    powFloat x y =
      if (x == 0) = true ∧ y < 0 then .error .divisionByZero
      else if (x ^ y).isNaN then .error .notReal
      else if (x ^ y).isInf then .error .overflow
      else .ok (float (x ^ y)) := by
  have hx' := (Float.isFinite_iff.1 hx).1
  have hy' := (Float.isFinite_iff.1 hy).1
  simp only [powFloat, hx, hy, hx', hy', Bool.false_eq_true, not_false_eq_true, and_true]

end Number

namespace Op

/-- The operation takes two integers to an integer. -/
def staysInt : Op → Number → Number → Bool
  | div, _, _ => false
  | pow, .int _, .int n => 0 ≤ n
  | _, .int _, .int _ => true
  | _, _, _ => false

/-- The operation on the doubles nearest to the operands, without the checks. -/
def onFloats : Op → Number → Number → Float
  | add, a, b => a.toFloat + b.toFloat
  | sub, a, b => a.toFloat - b.toFloat
  | mul, a, b => a.toFloat * b.toFloat
  | div, a, b => a.toFloat / b.toFloat
  | pow, a, b => a.toFloat ^ b.toFloat

/-- The operation divides by zero. A power of zero with a negative exponent does. -/
def dividesByZero : Op → Number → Number → Bool
  | div, _, b => b.isZero
  | pow, a, b => a.isZero && decide (b.toFloat < 0)
  | _, _, _ => false

/-- Two integers have an integer, if anything. -/
theorem apply_of_staysInt (h : op.staysInt a b = true) (hn : op.apply a b = .ok n) : ∃ i, n = .int i := by
  cases a <;> cases b <;> cases op <;> try contradiction
  case int.int.pow a b =>
    have hb : 0 ≤ b := of_decide_eq_true h
    rw [apply, Number.pow_int_eq_ofInt a hb] at hn
    exact Number.eq_int_of_ofInt hn
  all_goals exact Number.eq_int_of_ofInt hn

/-- Sums, differences and products of finite numbers are no NaN, and neither are quotients by other than zero. -/
theorem isNaN_onFloats (ha : a.isFinite = true) (hb : b.isFinite = true) (hop : op ≠ pow)
    (h0 : op.dividesByZero a b = false) : (op.onFloats a b).isNaN = false := by
  have hx := Number.isFinite_toFloat ha
  have hy := Number.isFinite_toFloat hb
  cases op with
  | add => exact Float.isNaN_add hx hy
  | sub => exact Float.isNaN_sub hx hy
  | mul => exact Float.isNaN_mul hx hy
  | div => exact Float.isNaN_div hx hy ((Number.toFloat_beq_zero b).trans h0)
  | pow => exact absurd rfl hop

theorem apply_eq_ofFloat (hop : op ≠ div ∧ op ≠ pow) (h : op.staysInt a b = false) :
    op.apply a b = Number.ofFloat (op.onFloats a b) := by
  cases op with
  | div => exact absurd rfl hop.1
  | pow => exact absurd rfl hop.2
  | _ => cases a <;> cases b <;> first | contradiction | rfl

theorem apply_pow_eq_powFloat (h : pow.staysInt a b = false) (ha : a.isFinite = true) (hb : b.isFinite = true) :
    pow.apply a b = Number.powFloat a.toFloat b.toFloat := by
  cases a with
  | signalingNaN => contradiction
  | float x =>
    cases b with
    | signalingNaN => contradiction
    | _ => rfl
  | int m =>
    cases b with
    | signalingNaN => contradiction
    | float y => rfl
    | int n => exact if_neg (of_decide_eq_false h)

theorem eq_div_of_dividesByZero (hop : op ≠ pow) (h : op.dividesByZero a b = true) : op = div := by
  cases op <;> first | rfl | contradiction

theorem apply_div_of_isZero_eq_false (h0 : b.isZero = false) :
    div.apply a b = .ok (.float (a.toFloat / b.toFloat)) := by
  simp [apply, Number.div, h0]

/-- **An operation on finite numbers that is not one on integers** is the operation on doubles. Zero is looked for
first, then a result that is no number, then one that is infinite; the last not in a division. -/
theorem apply_of_not_staysInt (h : op.staysInt a b = false) (ha : a.isFinite = true) (hb : b.isFinite = true) :
    op.apply a b =
      if op.dividesByZero a b then .error .divisionByZero
      else if (op.onFloats a b).isNaN then .error .notReal
      else if op ≠ div ∧ (op.onFloats a b).isInf then .error .overflow
      else .ok (.float (op.onFloats a b)) := by
  by_cases hpow : op = pow
  · subst hpow
    have hx := Number.isFinite_toFloat ha
    have hy := Number.isFinite_toFloat hb
    rw [apply_pow_eq_powFloat h ha hb, Number.powFloat_of_isFinite hx hy, Number.toFloat_beq_zero]
    simp [dividesByZero, onFloats]
  · cases h0 : op.dividesByZero a b with
    | true =>
      obtain rfl : op = div := eq_div_of_dividesByZero hpow h0
      exact if_pos h0
    | false =>
      have hnan := isNaN_onFloats ha hb hpow h0
      by_cases hdiv : op = div
      · subst hdiv
        rw [apply_div_of_isZero_eq_false h0, hnan]
        simp [onFloats]
      · rw [apply_eq_ofFloat ⟨hdiv, hpow⟩ h, Number.ofFloat, hnan]
        simp [hdiv]

/-- The result of an operation on finite numbers is finite, or it is an infinite quotient. -/
theorem isFinite_or_of_apply (ha : a.isFinite = true) (hb : b.isFinite = true) (hn : op.apply a b = .ok n) :
    n.isFinite = true ∨
      (op = div ∧ b.isZero = false ∧ (a.toFloat / b.toFloat).isInf = true ∧ n = .float (a.toFloat / b.toFloat)) := by
  cases h : op.staysInt a b with
  | true =>
    obtain ⟨i, rfl⟩ := apply_of_staysInt h hn
    exact Or.inl rfl
  | false =>
    rw [apply_of_not_staysInt h ha hb] at hn
    split at hn
    · contradiction
    · rename_i h0
      split at hn
      · contradiction
      · rename_i hnan
        split at hn
        · contradiction
        · rename_i hinf
          cases hn
          by_cases hi : (op.onFloats a b).isInf = true
          · obtain rfl : op = div := Decidable.byContradiction fun hop => hinf ⟨hop, hi⟩
            exact Or.inr ⟨rfl, Bool.eq_false_iff.2 h0, hi, rfl⟩
          · exact Or.inl (Float.isFinite_iff.2 ⟨Bool.eq_false_iff.2 hnan, Bool.eq_false_iff.2 hi⟩)

/-- An infinite result is an overflow in every operation but division. -/
theorem apply_eq_overflow_iff (ha : a.isFinite = true) (hb : b.isFinite = true) (h : op.staysInt a b = false)
    (h0 : op.dividesByZero a b = false) (hinf : (op.onFloats a b).isInf = true) :
    op.apply a b = .error .overflow ↔ op ≠ div := by
  rw [apply_of_not_staysInt h ha hb, h0, Float.isNaN_of_isInf hinf, hinf]
  by_cases hop : op = div <;> simp [hop]

/-- **Closure of arithmetic over the finite numbers.** An operation on finite numbers has a finite number or a fault,
unless it is a division by other than zero whose quotient is infinite; its result is never a NaN. A result of the other
operations that is infinite is an overflow. -/
theorem apply_isFinite_iff (ha : a.isFinite = true) (hb : b.isFinite = true) :
    ((∀ n, op.apply a b = .ok n → n.isFinite = true) ↔
      ¬ (op = div ∧ b.isZero = false ∧ (a.toFloat / b.toFloat).isInf = true)) ∧
    (∀ n, op.apply a b = .ok n → n.isFinite = true ∨ ∃ x, n = .float x ∧ x.isInf = true) ∧
    (op.staysInt a b = false → op.dividesByZero a b = false → (op.onFloats a b).isInf = true →
      (op.apply a b = .error .overflow ↔ op ≠ div)) := by
  refine ⟨?_, ?_, ?_⟩
  · constructor
    · rintro hfin ⟨rfl, h0, hinf⟩
      have hquotient : (a.toFloat / b.toFloat).isFinite = true := hfin _ (apply_div_of_isZero_eq_false h0)
      have hnot := (Float.isFinite_iff.1 hquotient).2
      rw [hinf] at hnot
      contradiction
    · intro hno n hn
      obtain hn | ⟨hop, h0, hinf, -⟩ := isFinite_or_of_apply ha hb hn
      · exact hn
      · exact absurd ⟨hop, h0, hinf⟩ hno
  · intro n hn
    obtain hn | ⟨-, -, hinf, rfl⟩ := isFinite_or_of_apply ha hb hn
    · exact Or.inl hn
    · exact Or.inr ⟨_, rfl, hinf⟩
  · intro h h0 hinf
    exact apply_eq_overflow_iff ha hb h h0 hinf

/-- The largest double. -/
def largest : Float :=
  Float.ofBits 0x7FEFFFFFFFFFFFFF

/-- The product of the largest double by two overflows. -/
theorem apply_isFinite_iff_largest_mul_two :
    (Number.float largest).isFinite = true ∧ (Number.int 2).isFinite = true ∧
      mul.staysInt (.float largest) (.int 2) = false ∧ mul.dividesByZero (.float largest) (.int 2) = false ∧
        (largest * (Number.int 2).toFloat).isInf = true ∧ mul.apply (.float largest) (.int 2) = .error .overflow := by
  have hl : (Number.float largest).isFinite = true := by decide
  have h2 : (Number.int 2).isFinite = true := by decide
  have hinf : (mul.onFloats (.float largest) (.int 2)).isInf = true := by decide
  have hover : mul.apply (.float largest) (.int 2) = .error .overflow ↔ mul ≠ div :=
    (apply_isFinite_iff hl h2).2.2 rfl rfl hinf
  exact ⟨hl, h2, rfl, rfl, hinf, hover.2 (by decide)⟩

/-- Dividing the largest double by one half gives infinity, not a fault. -/
theorem apply_div_infinite :
    (Number.float largest).isFinite = true ∧ (Number.float (Float.ofBits 0x3FE0000000000000)).isFinite = true ∧
      ∃ x, div.apply (.float largest) (.float (Float.ofBits 0x3FE0000000000000)) = .ok (.float x) ∧ x.isInf = true :=
  ⟨by decide, by decide, _, rfl, by decide⟩

end Op

end Reckoner
