import Mathlib.Algebra.Ring.Parity
import Mathlib.Algebra.Ring.Int.Parity
import Reckoner.Proofs.Evaluation.Exact

/-!
# Operations on integers

Sums, differences, products and powers of integers are exact, or they overflow if and only if the exact result has no
place in 64 bits (`Number.integers_exact`).

A power is squared from smaller ones, each of which is checked. They are in range if the power itself is
(`Fits.pow_of_le`), so a check that fails is right to (`Number.checkedPow_eq_ofInt`). With an exponent of more than 32
bits nothing is squared. All bases but -1, 0 and 1 are out of range from the exponent 64 on (`fits_pow_iff`), and of the
powers of these three only those of -1 depend on the exponent, by its parity.
-/

namespace Reckoner

variable {base n : Int} {j k : Nat}

/-! ## Powers in range -/

theorem fits_iff : Fits n ↔ -2 ^ 63 ≤ n ∧ n < 2 ^ 63 := by
  have hmin : Int64.minValue.toInt = -2 ^ 63 := by decide
  have hmax : Int64.maxValue.toInt = 2 ^ 63 - 1 := by decide
  unfold Fits
  omega

theorem natAbs_le_one_iff : base.natAbs ≤ 1 ↔ base = -1 ∨ base = 0 ∨ base = 1 := by
  omega

theorem fits_pow_of_natAbs_le_one (h : base.natAbs ≤ 1) (k : Nat) : Fits (base ^ k) := by
  have hpow : (base ^ k).natAbs ≤ 1 :=
    calc (base ^ k).natAbs
      _ = base.natAbs ^ k := Int.natAbs_pow base k
      _ ≤ 1 ^ k := Nat.pow_le_pow_left h k
      _ = 1 := Nat.one_pow k
  rw [fits_iff]
  omega

/-- From the exponent 64 on, only the powers of -1, 0 and 1 are in range. -/
theorem fits_pow_iff (hk : 64 ≤ k) : Fits (base ^ k) ↔ base.natAbs ≤ 1 := by
  refine ⟨fun h => ?_, fun h => fits_pow_of_natAbs_le_one h k⟩
  rw [fits_iff] at h
  by_contra hbase
  have hpow : 2 ^ 64 ≤ (base ^ k).natAbs :=
    calc 2 ^ 64
      _ ≤ 2 ^ k := Nat.pow_le_pow_right (by decide) hk
      _ ≤ base.natAbs ^ k := Nat.pow_le_pow_left (by omega) k
      _ = (base ^ k).natAbs := (Int.natAbs_pow base k).symm
  omega

/-- If a power is in range, so are those with smaller exponents. -/
theorem Fits.pow_of_le (h : Fits (base ^ k)) (hjk : j ≤ k) : Fits (base ^ j) := by
  by_cases hbase : base.natAbs ≤ 1
  · exact fits_pow_of_natAbs_le_one hbase j
  rcases Nat.eq_or_lt_of_le hjk with rfl | hlt
  · exact h
  -- of two bounds that are not alike, the smaller power keeps to half of each
  have hhalf : (base ^ j).natAbs * 2 ≤ (base ^ k).natAbs :=
    calc (base ^ j).natAbs * 2
      _ = base.natAbs ^ j * 2 := by rw [Int.natAbs_pow]
      _ ≤ base.natAbs ^ j * base.natAbs := Nat.mul_le_mul_left _ (by omega)
      _ = base.natAbs ^ (j + 1) := (Nat.pow_succ ..).symm
      _ ≤ base.natAbs ^ k := Nat.pow_le_pow_right (by omega) hlt
      _ = (base ^ k).natAbs := (Int.natAbs_pow base k).symm
  rw [fits_iff] at h ⊢
  omega

/-! ## Exact results -/

namespace Number

/-- The result is the integer `n` if that has a place in 64 bits, and else an overflow. -/
structure IsExact (n : Int) (result : Except Fault Number) : Prop where
  eq_ok_iff : ∀ x, result = .ok x ↔ ∃ m : Int64, x = .int m ∧ m.toInt = n
  eq_overflow_iff : result = .error .overflow ↔ ¬ Fits n

theorem isExact_ofInt (n : Int) : IsExact n (ofInt n) := by
  by_cases h : Fits n
  · obtain ⟨m, hm, rfl⟩ := ofInt_of_fits h
    rw [hm]
    refine ⟨fun x => ⟨?_, ?_⟩, by simpa using h⟩
    · rintro ⟨⟩
      exact ⟨m, rfl, rfl⟩
    · rintro ⟨m', rfl, heq⟩
      rw [Int64.toInt_inj.mp heq]
  · rw [ofInt_of_not_fits h]
    refine ⟨fun x => ⟨nofun, ?_⟩, by simpa using h⟩
    rintro ⟨m, rfl, rfl⟩
    exact absurd (fits_toInt m) h

/-- There is a result if and only if the exact one has a place in 64 bits. -/
theorem IsExact.exists_eq_ok_iff {n : Int} {result : Except Fault Number} (h : IsExact n result) :
    (∃ x, result = .ok x) ↔ Fits n := by
  constructor
  · rintro ⟨x, hx⟩
    obtain ⟨m, -, rfl⟩ := (h.eq_ok_iff x).mp hx
    exact fits_toInt m
  · intro hn
    obtain ⟨m, -, hm⟩ := ofInt_of_fits hn
    exact ⟨_, (h.eq_ok_iff _).mpr ⟨m, rfl, hm⟩⟩

/-! ## Powers -/

theorem ofInt_toInt (m : Int64) : ofInt m.toInt = .ok (.int m) :=
  ((isExact_ofInt m.toInt).eq_ok_iff _).mpr ⟨m, rfl, rfl⟩

/-- What makes a power of a smaller one is right to overflow where that does. -/
theorem bind_ofInt_pow {f : Number → Except Fault Number} (hjk : j ≤ k)
    (hf : ∀ m : Int64, m.toInt = base ^ j → f (.int m) = ofInt (base ^ k)) :
    (ofInt (base ^ j)).bind f = ofInt (base ^ k) := by
  by_cases h : Fits (base ^ j)
  · obtain ⟨m, hm, hpow⟩ := ofInt_of_fits h
    rw [hm]
    exact hf m hpow
  · rw [ofInt_of_not_fits h, ofInt_of_not_fits fun hk => h (hk.pow_of_le hjk)]
    rfl

/-- Squaring comes to the exact power. -/
theorem checkedPow_eq_ofInt (base : Int64) (k : Nat) : checkedPow base k = ofInt (base.toInt ^ k) := by
  induction k using Nat.strongRecOn with
  | ind k ih =>
  rw [checkedPow]
  split
  · next hzero =>
    rw [hzero, pow_zero]
    rfl
  · next hne =>
    rw [ih (k / 2) (by omega)]
    refine bind_ofInt_pow (Nat.div_le_self k 2) fun root hroot => ?_
    have hsquare : mul (.int root) (.int root) = ofInt (base.toInt ^ (k / 2 + k / 2)) := by
      rw [pow_add, ← hroot]
      rfl
    rw [hsquare]
    refine bind_ofInt_pow (by omega) fun square hpow => ?_
    by_cases heven : k % 2 = 0
    · have hhalves : k / 2 + k / 2 = k := by omega
      rw [if_pos heven, ← hhalves, ← hpow]
      exact (ofInt_toInt square).symm
    · have hhalves : k / 2 + k / 2 + 1 = k := by omega
      rw [if_neg heven, ← hhalves, pow_succ, ← hpow]
      rfl

theorem mod_two_eq_zero_iff {exponent : Int64} (h : 0 ≤ exponent) :
    exponent % 2 = 0 ↔ Even exponent.toInt.toNat := by
  have hzero : Int64.toInt 0 = 0 := rfl
  have htwo : Int64.toInt 2 = 2 := rfl
  rw [Int64.le_iff_toInt_le, hzero] at h
  rw [← Int64.toInt_inj, Int64.toInt_mod, hzero, htwo, Int.tmod_eq_emod_of_nonneg h, Nat.even_iff]
  omega

/-- A power of -1 is told by the parity of its exponent. -/
theorem ofInt_neg_one_pow {exponent : Int64} (h : 0 ≤ exponent) :
    ofInt ((-1) ^ exponent.toInt.toNat) = .ok (.int (if exponent % 2 = 0 then 1 else -1)) := by
  by_cases heven : exponent % 2 = 0
  · rw [if_pos heven, ((mod_two_eq_zero_iff h).mp heven).neg_one_pow]
    rfl
  · rw [if_neg heven, (Nat.not_even_iff_odd.mp (mt (mod_two_eq_zero_iff h).mpr heven)).neg_one_pow]
    rfl

/-- The bases that survive large exponents have the powers that they are given. -/
theorem powInt_eq_ofInt (base : Int64) {exponent : Int64} (h : 0 ≤ exponent) :
    powInt base exponent = ofInt (base.toInt ^ exponent.toInt.toNat) := by
  unfold powInt
  by_cases hsmall : exponent ≤ 0xFFFFFFFF
  · rw [if_pos ⟨h, hsmall⟩, checkedPow_eq_ofInt]
  have hlarge : 64 ≤ exponent.toInt.toNat := by
    rw [Int64.le_iff_toInt_le] at h hsmall
    have hmax : Int64.toInt 0xFFFFFFFF = 0xFFFFFFFF := by decide
    omega
  rw [if_neg fun hboth => hsmall hboth.2]
  by_cases hbase : base.toInt.natAbs ≤ 1
  · rcases natAbs_le_one_iff.mp hbase with hone | hone | hone
    · obtain rfl : base = -1 := Int64.toInt_inj.mp hone
      rw [hone, if_neg (by decide), if_pos rfl, ofInt_neg_one_pow h]
    · obtain rfl : base = 0 := Int64.toInt_inj.mp hone
      rw [hone, zero_pow (by omega)]
      rfl
    · obtain rfl : base = 1 := Int64.toInt_inj.mp hone
      rw [hone, one_pow]
      rfl
  · have hother : ∀ i : Int64, i.toInt.natAbs ≤ 1 → base ≠ i := by
      rintro i hi rfl
      exact hbase hi
    rw [if_neg (not_or.mpr ⟨hother 0 (by decide), hother 1 (by decide)⟩), if_neg (hother (-1) (by decide)),
      ofInt_of_not_fits (mt (fits_pow_iff hlarge).mp hbase)]

theorem pow_int_eq_ofInt (a : Int64) {b : Int64} (hb : 0 ≤ b) :
    pow (.int a) (.int b) = ofInt (a.toInt ^ b.toInt.toNat) :=
  (if_pos hb).trans (powInt_eq_ofInt a hb)

/-- **Integer arithmetic is exact or overflows.** Sums, differences, products, and powers with an exponent that is not
negative have the exact result as soon as it has a place in 64 bits, and are an overflow otherwise. With an exponent
of more than 32 bits, just the powers of -1, 0 and 1 have results. -/
theorem integers_exact (a b : Int64) :
    IsExact (a.toInt + b.toInt) (add (.int a) (.int b)) ∧
    IsExact (a.toInt - b.toInt) (sub (.int a) (.int b)) ∧
    IsExact (a.toInt * b.toInt) (mul (.int a) (.int b)) ∧
    (0 ≤ b → IsExact (a.toInt ^ b.toInt.toNat) (pow (.int a) (.int b))) ∧
    (2 ^ 32 ≤ b.toInt → ((∃ x, pow (.int a) (.int b) = .ok x) ↔ a = -1 ∨ a = 0 ∨ a = 1)) := by
  have hpow (hb : 0 ≤ b) : IsExact (a.toInt ^ b.toInt.toNat) (pow (.int a) (.int b)) := by
    rw [pow_int_eq_ofInt a hb]
    exact isExact_ofInt _
  refine ⟨isExact_ofInt _, isExact_ofInt _, isExact_ofInt _, hpow, fun hlarge => ?_⟩
  have hb : 0 ≤ b := by
    rw [Int64.le_iff_toInt_le]
    exact Int.le_trans (by decide) hlarge
  rw [(hpow hb).exists_eq_ok_iff, fits_pow_iff (by omega), natAbs_le_one_iff, ← Int64.toInt_inj,
    ← Int64.toInt_inj, ← Int64.toInt_inj]
  exact Iff.rfl

/-- The greatest exponent is odd. Minus one to it is itself, and two to it is out of range. -/
theorem integers_exact_greatest_exponent :
    pow (.int (-1)) (.int Int64.maxValue) = .ok (.int (-1)) ∧
    pow (.int 2) (.int Int64.maxValue) = .error .overflow := by
  have hb : 0 ≤ Int64.maxValue := by decide
  have hlarge : 2 ^ 32 ≤ Int64.maxValue.toInt := by decide
  constructor
  · have hodd : Odd Int64.maxValue.toInt.toNat := by decide
    have hpow := (integers_exact (-1) Int64.maxValue).2.2.2.1 hb
    exact (hpow.eq_ok_iff _).mpr ⟨-1, rfl, hodd.neg_one_pow.symm⟩
  · obtain ⟨-, -, -, hpow, hbases⟩ := integers_exact 2 Int64.maxValue
    have hnone : ¬ ∃ x, pow (.int 2) (.int Int64.maxValue) = .ok x := mt (hbases hlarge).mp (by decide)
    rw [(hpow hb).exists_eq_ok_iff] at hnone
    exact (hpow hb).eq_overflow_iff.mpr hnone

end Number

end Reckoner
