/-!
# The shortest decimal of a binary number

A finite double is `m * 2 ^ q`, and every real number that rounds to it may stand for it in print. `Decimal.shortest`
chooses, among the decimals with the fewest digits that do, the one closest to the value, and the larger of two that
are equally close.

All comparisons are exact, on natural numbers. The decimals of `n` digits lie on a grid, and if any of them rounds to
the value, then one of the two grid points around the value does; so those two are all that is tried for each `n`.
-/

namespace Reckoner

/-- The number `digits * 10 ^ exponent`. -/
structure Decimal where
  digits : Nat
  exponent : Int
deriving DecidableEq, Repr

/-- A positive finite double, `significand * 2 ^ exponent`. -/
structure Binary where
  significand : Nat
  exponent : Int
  /-- The gap to the next smaller double is half of the gap to the next larger one. -/
  narrowBelow : Bool
deriving DecidableEq, Repr

namespace Binary

/-- Reads the bits of a finite double, without its sign. -/
def ofBits (bits : UInt64) : Binary :=
  let field := (bits >>> 52 &&& 0x7FF).toNat
  let fraction := (bits &&& 0xFFFFFFFFFFFFF).toNat
  if field = 0 then ⟨fraction, -1074, false⟩
  else ⟨0x10000000000000 + fraction, field - 1075, fraction = 0 ∧ 1 < field⟩

/-- Compares `a * 10 ^ i` with `b * 2 ^ j`. -/
def compareScaled (a : Nat) (i : Int) (b : Nat) (j : Int) : Ordering :=
  compare ((a * Nat.pow 10 i.toNat) <<< (-j).toNat) ((b * Nat.pow 10 (-i).toNat) <<< j.toNat)

/-- Whether the decimal rounds to `x`. It then lies between the midpoints to the two neighbours of `x`; a midpoint
itself rounds to the neighbour with the even significand. -/
def admits (x : Binary) (d : Decimal) : Bool :=
  let low := if x.narrowBelow then 4 * x.significand - 1 else 4 * x.significand - 2
  let high := 4 * x.significand + 2
  let inside (o : Ordering) : Bool := o = .lt || (o = .eq && x.significand % 2 = 0)
  inside (compareScaled d.digits d.exponent low (x.exponent - 2)).swap
    && inside (compareScaled d.digits d.exponent high (x.exponent - 2))

/-- The least `k` with `x < 10 ^ k`. The binary logarithm gives it up to a few steps, which are then searched. -/
def scale (x : Binary) : Int :=
  let estimate : Int := (x.significand.log2 + x.exponent) * 30103 / 100000 - 1
  let isAbove (k : Int) : Bool := compareScaled 1 k x.significand x.exponent = .gt
  (((List.range 5).map fun (i : Nat) => estimate + i).find? isAbove).getD (estimate + 5)

/-- The better of the two decimals of `n` digits around `x` that round to it, if any does. -/
def nearest? (x : Binary) (n : Nat) : Option Decimal :=
  let grid := x.scale - n
  let num := (x.significand * Nat.pow 10 (-grid).toNat) <<< x.exponent.toNat
  let den := Nat.pow 10 grid.toNat <<< (-x.exponent).toNat
  let below : Decimal := ⟨num / den, grid⟩
  let above : Decimal := ⟨num / den + 1, grid⟩
  match x.admits below, x.admits above with
  | true, true => some (if 2 * (num % den) < den then below else above)
  | true, false => some below
  | false, true => some above
  | false, false => none

/-- The exact value, written as a decimal. -/
def exact (x : Binary) : Decimal :=
  if 0 ≤ x.exponent then ⟨x.significand <<< x.exponent.toNat, 0⟩
  else ⟨x.significand * Nat.pow 5 (-x.exponent).toNat, x.exponent⟩

end Binary

namespace Decimal

/-- The same number without zeros at the end of its digits. -/
def strip (d : Decimal) : Decimal :=
  if h : d.digits ≠ 0 ∧ d.digits % 10 = 0 then strip ⟨d.digits / 10, d.exponent + 1⟩ else d
termination_by d.digits
decreasing_by exact Nat.div_lt_self (Nat.pos_of_ne_zero h.1) (by decide)

/-- The decimal that stands for `x`. Seventeen digits are enough for every double. -/
def shortest (x : Binary) : Decimal :=
  strip (((List.range' 1 17).findSome? x.nearest?).getD x.exact)

end Decimal

end Reckoner
