import Reckoner.Proofs.Number.Closure

/-!
# When an operation overflows

An operation **overflows** if its exact result is an integer out of range, or if finite operands have an infinite result
(`Op.Overflows`). Sums, differences and products look at the result only, and not at the operands. So they report an
overflow also where an infinite operand has been carried into the result (`Op.CarriesInfinity`), and there is no other
reason for one (`Op.overflow_iff`). Powers do look at the operands, and quotients are never an overflow.
-/

namespace Reckoner

variable {op : Op} {a b : Number} {x y : Float}

namespace Number

def isInf : Number → Bool
  | float x => x.isInf
  | _ => false

theorem isFinite_toFloat_eq (a : Number) : a.toFloat.isFinite = a.isFinite := by
  cases a with
  | int n => exact isFinite_toFloat (a := int n) rfl
  | float x => rfl
  | signalingNaN => decide

/-- A number is finite, infinite or a NaN, as the nearest double is. -/
theorem isFinite_or_isInf_or_isNaN (a : Number) : a.isFinite = true ∨ a.isInf = true ∨ a.toFloat.isNaN = true := by
  cases a with
  | int n => exact Or.inl rfl
  | float x =>
    by_cases hinf : x.isInf = true
    · exact Or.inr (Or.inl hinf)
    · by_cases hnan : x.isNaN = true
      · exact Or.inr (Or.inr hnan)
      · exact Or.inl (Float.isFinite_iff.mpr ⟨Bool.eq_false_iff.mpr hnan, Bool.eq_false_iff.mpr hinf⟩)
  | signalingNaN => exact Or.inr (Or.inr (by decide))

theorem isFinite_eq_false_of_isInf (h : a.isInf = true) : a.isFinite = false := by
  cases a with
  | float x => exact Bool.eq_false_iff.mpr fun hx => absurd h (Bool.eq_false_iff.mp (Float.isFinite_iff.mp hx).2)
  | _ => contradiction

theorem ofFloat_eq_overflow_iff : ofFloat x = .error .overflow ↔ x.isInf = true := by
  unfold ofFloat
  split <;> simp_all

/-- Only finite doubles have a power that overflows. -/
theorem isFinite_of_powFloat (h : powFloat x y = .error .overflow) : x.isFinite = true ∧ y.isFinite = true := by
  simp only [powFloat] at h
  split at h
  · contradiction
  · split at h
    · contradiction
    · split at h
      · rename_i hinf
        exact hinf.2
      · contradiction

end Number

namespace Op

/-- The exact result of an operation that takes two integers to an integer. -/
def exactInt : Op → Number → Number → Option Int
  | add, .int a, .int b => some (a.toInt + b.toInt)
  | sub, .int a, .int b => some (a.toInt - b.toInt)
  | mul, .int a, .int b => some (a.toInt * b.toInt)
  | pow, .int a, .int b => if 0 ≤ b then some (a.toInt ^ b.toInt.toNat) else none
  | _, _, _ => none

/-- What is to be called an overflow: an integer that has no place in 64 bits, or an infinite result of finite
operands. -/
inductive Overflows (op : Op) (a b : Number) : Prop
  | ofInt {n : Int} (hexact : op.exactInt a b = some n) (hout : ¬ Fits n)
  | ofFloat (hexact : op.exactInt a b = none) (ha : a.isFinite = true) (hb : b.isFinite = true) (hop : op ≠ div)
    (h0 : op.dividesByZero a b = false) (hinf : (op.onFloats a b).isInf = true)

/-- A sum, a difference or a product is infinite where an operand has been. -/
structure CarriesInfinity (op : Op) (a b : Number) : Prop where
  hop : op ≠ div ∧ op ≠ pow
  operand : a.isInf = true ∨ b.isInf = true
  result : (op.onFloats a b).isInf = true

/-! ## Integers -/

theorem apply_of_exactInt {n : Int} (h : op.exactInt a b = some n) : op.apply a b = Number.ofInt n := by
  cases a <;> cases b <;> cases op <;> try contradiction
  case int.int.pow a b =>
    simp only [exactInt, Option.ite_none_right_eq_some, Option.some.injEq] at h
    obtain ⟨hb, rfl⟩ := h
    exact Number.pow_int_eq_ofInt a hb
  all_goals
    obtain rfl := Option.some.inj h
    rfl

theorem isSome_exactInt (op : Op) (a b : Number) : (op.exactInt a b).isSome = op.staysInt a b := by
  cases a <;> cases b <;> cases op <;> try rfl
  case int.int.pow a b =>
    by_cases hb : 0 ≤ b <;> simp [exactInt, staysInt, hb]

/-- Only integers have an integer. -/
theorem isFinite_of_exactInt {n : Int} (h : op.exactInt a b = some n) : a.isFinite = true ∧ b.isFinite = true := by
  cases a <;> cases b <;> first | exact ⟨rfl, rfl⟩ | (cases op <;> contradiction)

theorem overflows_iff_of_eq_some {n : Int} (h : op.exactInt a b = some n) : op.Overflows a b ↔ ¬ Fits n := by
  refine ⟨fun hover => ?_, .ofInt h⟩
  cases hover with
  | ofInt hexact hout =>
    obtain rfl := Option.some.inj (h.symm.trans hexact)
    exact hout
  | ofFloat hexact => simp [h] at hexact

theorem overflows_iff_of_eq_none (h : op.exactInt a b = none) (hab : a.isFinite = true ∧ b.isFinite = true) :
    op.Overflows a b ↔ op ≠ div ∧ op.dividesByZero a b = false ∧ (op.onFloats a b).isInf = true := by
  refine ⟨fun hover => ?_, fun ⟨hop, h0, hinf⟩ => .ofFloat h hab.1 hab.2 hop h0 hinf⟩
  cases hover with
  | ofInt hexact => simp [h] at hexact
  | ofFloat _ _ _ hop h0 hinf => exact ⟨hop, h0, hinf⟩

theorem Overflows.isFinite (h : op.Overflows a b) : a.isFinite = true ∧ b.isFinite = true := by
  cases h with
  | ofInt hexact _ => exact isFinite_of_exactInt hexact
  | ofFloat _ ha hb _ _ _ => exact ⟨ha, hb⟩

/-! ## Doubles -/

/-- Of finite operands, the result on doubles alone decides. -/
theorem apply_eq_overflow_iff_of_isFinite (h : op.staysInt a b = false) (ha : a.isFinite = true)
    (hb : b.isFinite = true) : op.apply a b = .error .overflow ↔
      op ≠ div ∧ op.dividesByZero a b = false ∧ (op.onFloats a b).isInf = true := by
  rw [apply_of_not_staysInt h ha hb]
  cases h0 : op.dividesByZero a b with
  | true => simp
  | false =>
    cases hinf : (op.onFloats a b).isInf with
    | true =>
      rw [Float.isNaN_of_isInf hinf]
      by_cases hop : op = div <;> simp [hop]
    | false => split_ifs <;> simp_all

/-- An operand that is a NaN makes a sum, a difference and a product one. -/
theorem isNaN_onFloats_of_isNaN (hop : op ≠ div ∧ op ≠ pow) (h : a.toFloat.isNaN = true ∨ b.toFloat.isNaN = true) :
    (op.onFloats a b).isNaN = true := by
  cases op with
  | add => exact Float.isNaN_add_of_isNaN h
  | sub => exact Float.isNaN_sub_of_isNaN h
  | mul => exact Float.isNaN_mul_of_isNaN h
  | div => exact absurd rfl hop.1
  | pow => exact absurd rfl hop.2

theorem isFinite_of_pow_eq_overflow (h : pow.staysInt a b = false) (hover : pow.apply a b = .error .overflow) :
    a.isFinite = true ∧ b.isFinite = true := by
  have hfloat : Number.powFloat a.toFloat b.toFloat = .error .overflow := by
    cases a <;> cases b <;> try contradiction
    case int.int m n => rwa [apply, Number.pow, if_neg (of_decide_eq_false h)] at hover
    all_goals exact hover
  rw [← a.isFinite_toFloat_eq, ← b.isFinite_toFloat_eq]
  exact Number.isFinite_of_powFloat hfloat

/-- If not all operands are finite, an overflow is an infinity carried on. -/
theorem apply_eq_overflow_iff_carriesInfinity (h : op.staysInt a b = false)
    (hab : ¬ (a.isFinite = true ∧ b.isFinite = true)) : op.apply a b = .error .overflow ↔ op.CarriesInfinity a b := by
  by_cases hop : op ≠ div ∧ op ≠ pow
  · rw [apply_eq_ofFloat hop h, Number.ofFloat_eq_overflow_iff]
    refine ⟨fun hinf => ⟨hop, ?_, hinf⟩, CarriesInfinity.result⟩
    have hnan : ¬ (a.toFloat.isNaN = true ∨ b.toFloat.isNaN = true) := fun h => by
      have hresult := isNaN_onFloats_of_isNaN hop h
      rw [Float.isNaN_of_isInf hinf] at hresult
      contradiction
    have ha := a.isFinite_or_isInf_or_isNaN
    have hb := b.isFinite_or_isInf_or_isNaN
    tauto
  · refine iff_of_false (fun hover => ?_) fun hcarries => hop hcarries.hop
    obtain rfl | rfl : op = div ∨ op = pow := by tauto
    · simp only [apply, Number.div] at hover
      split at hover <;> contradiction
    · exact hab (isFinite_of_pow_eq_overflow h hover)

theorem CarriesInfinity.not_isFinite (h : op.CarriesInfinity a b) : ¬ (a.isFinite = true ∧ b.isFinite = true) := by
  rintro ⟨ha, hb⟩
  rcases h.operand with hinf | hinf
  · simp [Number.isFinite_eq_false_of_isInf hinf] at ha
  · simp [Number.isFinite_eq_false_of_isInf hinf] at hb

/-- **What is reported as an overflow.** An operation reports one if and only if it overflows or carries an infinity
into its result, and the two exclude each other. So overflows are blamed on finite operands alone in just those
operations that carry no infinity. -/
theorem overflow_iff (op : Op) (a b : Number) :
    (op.apply a b = .error .overflow ↔ op.Overflows a b ∨ op.CarriesInfinity a b) ∧
    ((op.apply a b = .error .overflow → op.Overflows a b) ↔ ¬ op.CarriesInfinity a b) := by
  have hreported : op.apply a b = .error .overflow ↔ op.Overflows a b ∨ op.CarriesInfinity a b := by
    cases hexact : op.exactInt a b with
    | some n =>
      have hno : ¬ op.CarriesInfinity a b := fun h => h.not_isFinite (isFinite_of_exactInt hexact)
      rw [apply_of_exactInt hexact, (Number.isExact_ofInt n).eq_overflow_iff, overflows_iff_of_eq_some hexact,
        or_iff_left hno]
    | none =>
      have hstays : op.staysInt a b = false := by simpa [hexact] using (isSome_exactInt op a b).symm
      by_cases hab : a.isFinite = true ∧ b.isFinite = true
      · rw [apply_eq_overflow_iff_of_isFinite hstays hab.1 hab.2, overflows_iff_of_eq_none hexact hab,
          or_iff_left fun h => h.not_isFinite hab]
      · rw [apply_eq_overflow_iff_carriesInfinity hstays hab, or_iff_right fun h => hab h.isFinite]
  refine ⟨hreported, fun hblamed hcarries => ?_, fun hno hover => (hreported.mp hover).resolve_right hno⟩
  exact hcarries.not_isFinite (hblamed (hreported.mpr (Or.inr hcarries))).isFinite

/-- One added to infinity is reported as an overflow, although nothing overflows. -/
theorem apply_add_infinite :
    let infinity := Number.float (Float.ofBits 0x7FF0000000000000)
    infinity.isInf = true ∧ add.apply infinity (.int 1) = .error .overflow ∧ ¬ add.Overflows infinity (.int 1) := by
  intro infinity
  have hinf : infinity.isInf = true := by decide
  refine ⟨hinf, by decide, fun hover => ?_⟩
  have hfin := hover.isFinite.1
  rw [Number.isFinite_eq_false_of_isInf hinf] at hfin
  contradiction

end Op

end Reckoner
