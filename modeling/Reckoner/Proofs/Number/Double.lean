import Mathlib
import Reckoner.Number.Basic

/-!
# Doubles

Three facts on the arithmetic of doubles, as far as the arithmetic of numbers needs them:

* `Float.isNaN_add`, `Float.isNaN_sub`, `Float.isNaN_mul`, `Float.isNaN_div`: finite operands never give a NaN, except
  in a division by zero;
* `Float.isNaN_add_of_isNaN`, `Float.isNaN_sub_of_isNaN`, `Float.isNaN_mul_of_isNaN`: a NaN among the operands always
  gives one;
* `Float.isFinite_ofInt`, `Float.ofInt_beq_zero`: the double nearest to an integer of 64 bits is finite, and it is zero
  only if the integer is.

An unpacked double is **normal** between two exponents if its mantissa has its full length and its exponent is one from
there. Rounding gives a normal value wherever enough bits of the mantissa are left (`normal_roundWithAccuracy`).
-/

namespace Float.Model.UnpackedFloat

variable {u v : UnpackedFloat} {s : Sign} {m : Nat} {e a b : Int} {r : Accuracy}

theorem isFinite_iff : u.isFinite = true ↔ u.isNaN = false ∧ u.isInf = false := by
  cases u <;> simp [UnpackedFloat.isFinite, UnpackedFloat.isNaN, UnpackedFloat.isInf]

theorem isNaN_of_isInf (h : u.isInf = true) : u.isNaN = false := by
  cases u <;> first | rfl | contradiction

/-- Finite with a mantissa of full length and an exponent from `a` to `b`. -/
def Normal (a b : Int) : UnpackedFloat → Prop
  | finite _ m e _ => (2 ^ 52 ≤ m ∧ m < 2 ^ 53) ∧ a ≤ e ∧ e ≤ b
  | _ => False

theorem Normal.isFinite (h : u.Normal a b) : u.isFinite = true := by
  cases u with
  | finite s m e hm => rfl
  | _ => exact h.elim

theorem Normal.ne_zero (h : u.Normal a b) : u ≠ zero s := by
  rintro rfl
  exact h

theorem Normal.mono {a' b' : Int} (h : u.Normal a b) (ha : a' ≤ a) (hb : b ≤ b') : u.Normal a' b' := by
  cases u with
  | finite s m e hm => exact ⟨h.1, Int.le_trans ha h.2.1, Int.le_trans h.2.2 hb⟩
  | _ => exact h.elim

theorem Normal.neg (h : u.Normal a b) : u.neg.Normal a b := by
  cases u <;> exact h

/-! ## Packing -/

theorem ofNat_ne_neg_one {n : Nat} (h : n < 2047) : BitVec.ofNat 11 n ≠ -1#11 := by
  intro hc
  have hn := congrArg BitVec.toNat hc
  simp only [BitVec.toNat_ofNat, Nat.mod_eq_of_lt (show n < 2 ^ 11 by omega)] at hn
  simp at hn
  omega

theorem isNaN_unpack_packComponents (e : BitVec 11) (m : BitVec 52) (h : e ≠ -1#11 ∨ m = 0) :
    (unpack .binary64 (packComponents .binary64 s e m)).isNaN = false := by
  simp only [unpack, unpackExponent_packComponents, unpackMantissa_packComponents]
  split
  · split
    · rfl
    · simp_all
  · split
    · split <;> rfl
    · rfl

/-- Packing neither makes nor loses a NaN. -/
theorem isNaN_unpack_pack : (unpack .binary64 (pack .binary64 u)).isNaN = u.isNaN := by
  cases u with
  | infinity s => exact isNaN_unpack_packComponents _ _ (Or.inr rfl)
  | notANumber => exact congrArg isNaN unpack_packedNaN
  | zero s => exact isNaN_unpack_packComponents _ _ (Or.inr rfl)
  | finite s m e hm =>
    simp only [pack]
    split
    · exact isNaN_unpack_packComponents _ _ (Or.inr rfl)
    · rename_i hlt
      split
      · have hexponent : (e + (1023 : Nat) + (52 : Nat)).toNat < 2047 := by
          simp only [Format.exponentBias] at hlt
          omega
        exact isNaN_unpack_packComponents _ _ (Or.inl (ofNat_ne_neg_one hexponent))
      · exact isNaN_unpack_packComponents _ _ (Or.inl (ofNat_ne_neg_one (n := 0) (by omega)))

theorem log2_eq_of_lt {n : Nat} (h : 2 ^ n ≤ m) (h' : m < 2 ^ (n + 1)) : m.log2 = n :=
  (Nat.log2_eq_iff (by have := Nat.two_pow_pos n; omega)).2 ⟨h, h'⟩

theorem normal_unpack_packComponents {n : Nat} (h0 : 0 < n) (h : n < 2047) (x : BitVec 52) (ha : a + 1075 ≤ n)
    (hb : n ≤ b + 1075) : (unpack .binary64 (packComponents .binary64 s (BitVec.ofNat 11 n) x)).Normal a b := by
  have hn : (BitVec.ofNat 11 n).toNat = n := Nat.mod_eq_of_lt (by omega)
  simp only [unpack, unpackExponent_packComponents, unpackMantissa_packComponents, Format.exponentBias]
  have hzero : BitVec.ofNat 11 n ≠ 0#11 := by
    intro hc
    simp only [hc, BitVec.toNat_zero] at hn
    omega
  rw [if_neg (ofNat_ne_neg_one h), if_neg hzero]
  refine ⟨⟨?_, BitVec.isLt _⟩, ?_⟩
  · rw [BitVec.toNat_append]
    exact Nat.left_le_or
  · rw [hn]
    simp
    omega

/-- A normal value whose exponent is in range keeps it in packing. -/
theorem Normal.unpack_pack (h : u.Normal a b) (ha : -1074 ≤ a) (hb : b ≤ 971) :
    (unpack .binary64 (pack .binary64 u)).Normal a b := by
  cases u with
  | finite s m e hm =>
    obtain ⟨⟨hm₁, hm₂⟩, he₁, he₂⟩ := h
    have hl : m.log2 = 52 := log2_eq_of_lt hm₁ hm₂
    have hbias : (e + (Format.binary64.exponentBias : Int) +
        (Format.binary64.mantissaBitsWithoutImplicit : Int)).toNat = (e + 1075).toNat := by
      simp only [Format.exponentBias]
      omega
    simp only [pack, hbias]
    rw [if_neg (by simp; omega), if_pos (by rw [hl]; rfl)]
    exact normal_unpack_packComponents (by omega) (by omega) _ (by omega) (by omega)
  | _ => exact h.elim

/-! ## Rounding -/

theorem ExtendedMantissa.mantissa_shiftRight (em : ExtendedMantissa) (n : Nat) :
    (em >>> n).mantissa = em.mantissa / 2 ^ n := by
  induction n with
  | zero => exact (Nat.div_one _).symm
  | succ n ih =>
    have hs : (em >>> (n + 1)).mantissa = (em >>> n).mantissa / 2 := rfl
    rw [hs, ih, Nat.div_div_eq_div_mul, Nat.pow_succ]

theorem ExtendedMantissa.mantissa_ofMantissaAndAccuracy : (ofMantissaAndAccuracy m r).mantissa = m := by
  fun_cases ofMantissaAndAccuracy <;> rfl

theorem Accuracy.le_roundToNearestEven : m ≤ r.roundToNearestEven m := by
  fun_cases roundToNearestEven <;> omega

theorem Accuracy.roundToNearestEven_le : r.roundToNearestEven m ≤ m + 1 := by
  fun_cases roundToNearestEven <;> omega

/-- A shift to the target leaves a mantissa of full length, unless there were too few bits or the exponent too low. -/
theorem shiftToTargetExponent_of_le (r : Accuracy) (hm : 2 ^ 52 ≤ m) (he : -1074 ≤ e) :
    let t := shiftToTargetExponent .binary64 m e r
    (2 ^ 52 ≤ t.1.mantissa ∧ t.1.mantissa < 2 ^ 53) ∧ t.2 = e + (m.log2 - 52 : Nat) := by
  have h0 : m ≠ 0 := by omega
  have hl : 52 ≤ m.log2 := (Nat.le_log2 h0).2 hm
  have hshift : (Format.binary64.targetExponent (totalExponent m e) - e).toNat = m.log2 - 52 := by
    simp [Format.targetExponent, totalExponent, Format.mantissaBits, Format.minExponent]
    omega
  have hlt : m < 2 ^ 53 * 2 ^ (m.log2 - 52) := by
    rw [← Nat.pow_add, show 53 + (m.log2 - 52) = m.log2 + 1 by omega]
    exact Nat.lt_log2_self
  have hle : 2 ^ 52 * 2 ^ (m.log2 - 52) ≤ m := by
    rw [← Nat.pow_add, show 52 + (m.log2 - 52) = m.log2 by omega]
    exact Nat.log2_self_le h0
  simp only [shiftToTargetExponent, shiftToExponent, hshift, ExtendedMantissa.mantissa_shiftRight,
    ExtendedMantissa.mantissa_ofMantissaAndAccuracy]
  exact ⟨⟨(Nat.le_div_iff_mul_le (Nat.two_pow_pos _)).2 hle, (Nat.div_lt_iff_lt_mul (Nat.two_pow_pos _)).2 hlt⟩,
    trivial⟩

/-- A value is rounded by a shift, and by a second one where the rounded mantissa has become too long. -/
theorem roundWithAccuracy_eq (t q : ExtendedMantissa × Int) (ht : shiftToTargetExponent .binary64 m e r = t)
    (hq : shiftToTargetExponent .binary64 t.1.roundedMantissa t.2 .exact = q) :
    roundWithAccuracy .binary64 s m e r =
      if h : q.1.mantissa = 0 then zero s else finite s q.1.mantissa q.2 (Nat.pos_of_ne_zero h) := by
  subst ht hq
  rfl

theorem isNaN_roundWithAccuracy : (roundWithAccuracy .binary64 s m e r).isNaN = false := by
  rw [roundWithAccuracy_eq _ _ rfl rfl]
  split <;> rfl

/-- Rounding gives a normal value if there are enough bits, and raises the exponent by one more than there are too
many. -/
theorem normal_roundWithAccuracy {n : Nat} (hm : 2 ^ 52 ≤ m) (hn : m < 2 ^ (n + 1)) (h0 : -1074 ≤ a) (ha : a ≤ e)
    (hb : e + (n - 51) ≤ b) : (roundWithAccuracy .binary64 s m e r).Normal a b := by
  obtain ⟨⟨ht₁, ht₂⟩, ht⟩ := shiftToTargetExponent_of_le r hm (Int.le_trans h0 ha)
  rw [roundWithAccuracy_eq _ _ rfl rfl]
  generalize shiftToTargetExponent .binary64 m e r = t at *
  have hle : t.1.mantissa ≤ t.1.roundedMantissa := Accuracy.le_roundToNearestEven
  have hlt : t.1.roundedMantissa ≤ t.1.mantissa + 1 := Accuracy.roundToNearestEven_le
  obtain ⟨⟨hq₁, hq₂⟩, hq⟩ := shiftToTargetExponent_of_le .exact (Nat.le_trans ht₁ hle) (show -1074 ≤ t.2 by omega)
  generalize shiftToTargetExponent .binary64 t.1.roundedMantissa t.2 .exact = q at *
  have hl : 52 ≤ m.log2 := (Nat.le_log2 (by omega)).2 hm
  have hl' : m.log2 < n + 1 := (Nat.log2_lt (by omega)).2 hn
  have hlt' : t.1.roundedMantissa.log2 < 54 := (Nat.log2_lt (by omega)).2 (by omega)
  rw [dif_neg (by omega)]
  exact ⟨⟨hq₁, hq₂⟩, by omega, by omega⟩

theorem isNaN_normalize {m : Int} : (normalize .binary64 m e s).isNaN = false := by
  unfold normalize
  split
  · exact isNaN_roundWithAccuracy
  · rfl
  · exact isNaN_roundWithAccuracy

/-! ## Operations on finite values -/

theorem isNaN_add (hu : u.isFinite = true) (hv : v.isFinite = true) : (add .binary64 u v).isNaN = false := by
  cases u <;> cases v <;> try contradiction
  case zero.zero s t => cases s <;> cases t <;> rfl
  case finite.finite => exact isNaN_normalize
  all_goals rfl

theorem isNaN_sub (hu : u.isFinite = true) (hv : v.isFinite = true) : (sub .binary64 u v).isNaN = false := by
  cases u <;> cases v <;> try contradiction
  case zero.zero s t => cases s <;> cases t <;> rfl
  case finite.finite => exact isNaN_normalize
  all_goals rfl

theorem isNaN_mul (hu : u.isFinite = true) (hv : v.isFinite = true) : (mul .binary64 u v).isNaN = false := by
  cases u <;> cases v <;> try contradiction
  case finite.finite => exact isNaN_roundWithAccuracy
  all_goals rfl

theorem isNaN_div (hu : u.isFinite = true) (hv : v.isFinite = true) (h0 : ∀ s, v ≠ zero s) :
    (div .binary64 u v).isNaN = false := by
  cases u <;> cases v <;> try contradiction
  case finite.finite => exact isNaN_roundWithAccuracy
  case zero.finite => rfl
  all_goals exact absurd rfl (h0 _)

/-! ## Operations on a NaN -/

theorem isNaN_add_of_isNaN (h : u.isNaN = true ∨ v.isNaN = true) : (add .binary64 u v).isNaN = true := by
  cases u <;> cases v <;> first | rfl | simp [UnpackedFloat.isNaN] at h

theorem isNaN_sub_of_isNaN (h : u.isNaN = true ∨ v.isNaN = true) : (sub .binary64 u v).isNaN = true := by
  cases u <;> cases v <;> first | rfl | simp [UnpackedFloat.isNaN] at h

theorem isNaN_mul_of_isNaN (h : u.isNaN = true ∨ v.isNaN = true) : (mul .binary64 u v).isNaN = true := by
  cases u <;> cases v <;> first | rfl | simp [UnpackedFloat.isNaN] at h

/-! ## Integers of 64 bits -/

/-- A mantissa that is moved to its full length. -/
theorem le_shiftLeft (h : m ≠ 0) : 2 ^ 52 ≤ m <<< (52 - m.log2) := by
  have hlog := Nat.log2_self_le h
  rw [Nat.shiftLeft_eq]
  calc 2 ^ 52 ≤ 2 ^ (m.log2 + (52 - m.log2)) := Nat.pow_le_pow_right (by decide) (by omega)
    _ = 2 ^ m.log2 * 2 ^ (52 - m.log2) := Nat.pow_add ..
    _ ≤ m * 2 ^ (52 - m.log2) := Nat.mul_le_mul_right _ hlog

theorem shiftLeft_lt {n i j : Nat} (hm : m < 2 ^ i) (hn : n ≤ j) : m <<< n < 2 ^ (i + j) := by
  rw [Nat.shiftLeft_eq, Nat.pow_add]
  exact Nat.mul_lt_mul_of_lt_of_le hm (Nat.pow_le_pow_right (by decide) hn) (Nat.two_pow_pos j)

theorem normal_round (h0 : m ≠ 0) (hm : m < 2 ^ 64) : (round .binary64 s m 0).Normal (-52) 64 := by
  have hshift : (0 - Format.binary64.targetExponent (totalExponent m 0)).toNat = 52 - m.log2 := by
    simp [Format.targetExponent, totalExponent, Format.mantissaBits, Format.minExponent]
    omega
  simp only [round, decreaseExponent, hshift]
  have hlt : m <<< (52 - m.log2) < 2 ^ (64 + 52) := shiftLeft_lt hm (by omega)
  exact normal_roundWithAccuracy (le_shiftLeft h0) hlt (by omega) (by omega) (by omega)

theorem normal_ofNat (h0 : m ≠ 0) (hm : m < 2 ^ 64) : (ofNat .binary64 m).Normal (-52) 64 := by
  have hc : compare (m : Int) 0 = .gt := Int.compare_eq_gt.2 (by omega)
  simp only [ofNat, ofInt, normalize, hc]
  exact normal_round h0 hm

theorem exists_ofScientific_eq (h0 : m ≠ 0) (hm : m < 2 ^ 64) : ∃ p, 2 ^ 52 ≤ p ∧ p < 2 ^ 117 ∧
    ofScientific .binary64 m 0 = roundWithAccuracy .binary64 .positive p (-53) .exact := by
  refine ⟨m <<< 53 * 1, ?_, ?_, ?_⟩
  · rw [Nat.mul_one, Nat.shiftLeft_eq]
    omega
  · rw [Nat.mul_one]
    exact shiftLeft_lt hm (Nat.le_refl _)
  · unfold ofScientific
    have hlow : ¬ (0 : Int) < -((2 ^ 11 : Int) + m.log2) := by omega
    rw [dif_neg h0, if_neg (by decide), if_neg hlow, if_pos (by decide)]
    rfl

theorem normal_ofScientific (h0 : m ≠ 0) (hm : m < 2 ^ 64) : (ofScientific .binary64 m 0).Normal (-53) 64 := by
  obtain ⟨p, hp, hp', h⟩ := exists_ofScientific_eq h0 hm
  rw [h]
  exact normal_roundWithAccuracy (n := 116) hp hp' (by omega) (by omega) (by omega)

/-- A normal value times one. -/
theorem Normal.mul_one (h : u.Normal a b) (ha : -1022 ≤ a) :
    (mul .binary64 u (unpack .binary64 0x3FF0000000000000)).Normal (a - 52) (b + 1) := by
  have h1 : unpack .binary64 0x3FF0000000000000 = finite .positive (2 ^ 52) (-52) (by decide) := rfl
  rw [h1]
  cases u with
  | finite s m e hm =>
    obtain ⟨⟨hm₁, hm₂⟩, he₁, he₂⟩ := h
    exact normal_roundWithAccuracy (n := 104) (show 2 ^ 52 ≤ m * 2 ^ 52 by omega) (by omega) (by omega)
      (show a - 52 ≤ e + -52 by omega) (by omega)
  | _ => exact h.elim

end Float.Model.UnpackedFloat

namespace Float

open Float.Model Float.Model.UnpackedFloat

variable {x y : Float}

theorem isFinite_iff : x.isFinite = true ↔ x.isNaN = false ∧ x.isInf = false :=
  UnpackedFloat.isFinite_iff

theorem isNaN_of_isInf (h : x.isInf = true) : x.isNaN = false :=
  UnpackedFloat.isNaN_of_isInf h

/-! ## Operations on finite doubles -/

theorem isNaN_add (hx : x.isFinite = true) (hy : y.isFinite = true) : (x + y).isNaN = false :=
  isNaN_unpack_pack.trans (UnpackedFloat.isNaN_add hx hy)

theorem isNaN_sub (hx : x.isFinite = true) (hy : y.isFinite = true) : (x - y).isNaN = false :=
  isNaN_unpack_pack.trans (UnpackedFloat.isNaN_sub hx hy)

theorem isNaN_mul (hx : x.isFinite = true) (hy : y.isFinite = true) : (x * y).isNaN = false :=
  isNaN_unpack_pack.trans (UnpackedFloat.isNaN_mul hx hy)

theorem beq_zero_eq_false_iff : (x == 0) = false ↔ ∀ s, x.toModel.unpack ≠ zero s := by
  have hc : (x == 0) = (x.toModel.unpack.compare (0 : Float).toModel.unpack == some .eq) := rfl
  have h0 : (0 : Float).toModel.unpack = zero .positive := rfl
  rw [hc, h0]
  cases x.toModel.unpack with
  | finite s m e hm => cases s <;> exact iff_of_true rfl fun _ => nofun
  | infinity s => cases s <;> exact iff_of_true rfl fun _ => nofun
  | _ => simp [UnpackedFloat.compare]

theorem isNaN_div (hx : x.isFinite = true) (hy : y.isFinite = true) (h0 : (y == 0) = false) : (x / y).isNaN = false :=
  isNaN_unpack_pack.trans (UnpackedFloat.isNaN_div hx hy (beq_zero_eq_false_iff.1 h0))

/-! ## Operations on a NaN -/

theorem isNaN_add_of_isNaN (h : x.isNaN = true ∨ y.isNaN = true) : (x + y).isNaN = true :=
  isNaN_unpack_pack.trans (UnpackedFloat.isNaN_add_of_isNaN h)

theorem isNaN_sub_of_isNaN (h : x.isNaN = true ∨ y.isNaN = true) : (x - y).isNaN = true :=
  isNaN_unpack_pack.trans (UnpackedFloat.isNaN_sub_of_isNaN h)

theorem isNaN_mul_of_isNaN (h : x.isNaN = true ∨ y.isNaN = true) : (x * y).isNaN = true :=
  isNaN_unpack_pack.trans (UnpackedFloat.isNaN_mul_of_isNaN h)

/-! ## Integers of 64 bits -/

theorem normal_ofNat {m : Nat} (h0 : m ≠ 0) (hm : m < 2 ^ 64) :
    (Float.ofNat m).toModel.unpack.Normal (-104) 65 := by
  show (Float.ofScientific m false 0).toModel.unpack.Normal (-104) 65
  unfold Float.ofScientific
  split
  · -- few bits: the integer is converted as it is, and multiplied by ten to the power of zero
    have hmod : m.toUInt64.toNat = m := Nat.mod_eq_of_lt hm
    have hround : (UnpackedFloat.ofNat .binary64 m.toUInt64.toNat).Normal (-52) 64 := by
      rw [hmod]
      exact UnpackedFloat.normal_ofNat h0 hm
    have hpack := hround.unpack_pack (by omega) (by omega)
    have hone := hpack.mul_one (by omega)
    exact hone.unpack_pack (by omega) (by omega)
  · have hpack := (normal_ofScientific h0 hm).unpack_pack (by omega) (by omega)
    exact hpack.mono (by omega) (by omega)

theorem normal_ofInt : ∀ {n : Int}, n ≠ 0 → n.natAbs < 2 ^ 64 → (Float.ofInt n).toModel.unpack.Normal (-104) 65
  | Int.ofNat _, h0, h => normal_ofNat (fun hm => h0 (congrArg Int.ofNat hm)) h
  | Int.negSucc m, _, h => (normal_ofNat (Nat.succ_ne_zero m) h).neg.unpack_pack (by omega) (by omega)

theorem isFinite_ofInt {n : Int} (h : n.natAbs < 2 ^ 64) : (Float.ofInt n).isFinite = true := by
  by_cases h0 : n = 0
  · subst h0
    decide
  · exact (normal_ofInt h0 h).isFinite

theorem ofInt_beq_zero {n : Int} (h : n.natAbs < 2 ^ 64) : (Float.ofInt n == 0) = decide (n = 0) := by
  by_cases h0 : n = 0
  · subst h0
    decide
  · rw [decide_eq_false h0]
    exact beq_zero_eq_false_iff.2 fun s => (normal_ofInt h0 h).ne_zero

end Float
