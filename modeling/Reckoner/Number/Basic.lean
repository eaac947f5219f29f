/-!
# Numbers and arithmetic

A `Number` is a signed integer of 64 bits or a double. `+ - *` and powers with an exponent that is not negative stay
among the integers as long as both operands are integers; a result that does not fit is an overflow, never wrapped.
Division always gives a double, and so does every operation on a double.

Two NaNs are told apart. The quiet one is a `Float`, and a power that does not depend on it is `1`. The signaling one
makes every power NaN; otherwise it counts like the quiet one, and no operation has it as its result.
-/

namespace Reckoner

inductive Number where
  | int (n : Int64)
  | float (x : Float)
  /-- The NaN that signals, which no `Float` is. -/
  | signalingNaN
deriving DecidableEq, Repr

namespace Number

/-- Equality of values, with which a NaN is equal to nothing. -/
instance : BEq Number where
  beq
    | int a, int b => a == b
    | float x, float y => x == y
    | _, _ => false

/-- Why an operation has no result. -/
inductive Fault where
  | divisionByZero
  /-- The integer does not fit, or the double is infinite. -/
  | overflow
  /-- A negative number to a power that is not whole. -/
  | notReal
deriving DecidableEq, Repr

/-- The quiet NaN. -/
def nan : Float :=
  Float.ofBits 0x7FF8000000000000

/-- The double with the given bits. A NaN signals if the first bit of its fraction is not set. -/
def ofBits (bits : UInt64) : Number :=
  let magnitude := bits &&& 0x7FFFFFFFFFFFFFFF
  if 0x7FF0000000000000 < magnitude ∧ magnitude < 0x7FF8000000000000 then signalingNaN
  else float (Float.ofBits bits)

/-- The double nearest to the number. -/
def toFloat : Number → Float
  | int n => Float.ofInt n.toInt
  | float x => x
  | signalingNaN => nan

def isZero : Number → Bool
  | int n => n = 0
  | float x => x == 0
  | signalingNaN => false

/-- The integer `n`, if it has a place in 64 bits. -/
def ofInt (n : Int) : Except Fault Number :=
  if Int64.minValue.toInt ≤ n ∧ n ≤ Int64.maxValue.toInt then .ok (int (Int64.ofInt n)) else .error .overflow

/-- The double `x`, unless it is infinite. -/
def ofFloat (x : Float) : Except Fault Number :=
  if x.isInf then .error .overflow else .ok (float x)

def add : Number → Number → Except Fault Number
  | int a, int b => ofInt (a.toInt + b.toInt)
  | a, b => ofFloat (a.toFloat + b.toFloat)

def sub : Number → Number → Except Fault Number
  | int a, int b => ofInt (a.toInt - b.toInt)
  | a, b => ofFloat (a.toFloat - b.toFloat)

def mul : Number → Number → Except Fault Number
  | int a, int b => ofInt (a.toInt * b.toInt)
  | a, b => ofFloat (a.toFloat * b.toFloat)

def div (a b : Number) : Except Fault Number :=
  if b.isZero then .error .divisionByZero else .ok (float (a.toFloat / b.toFloat))

/-- The power of an integer, by squaring the one with half the exponent. If it has a place in 64 bits, so do all powers
on the way to it. -/
def checkedPow (base : Int64) (exponent : Nat) : Except Fault Number :=
  if exponent = 0 then .ok (int 1)
  else do
    let root ← checkedPow base (exponent / 2)
    let square ← mul root root
    if exponent % 2 = 0 then return square else mul square (int base)

/-- The power of an integer. Only the bases -1, 0 and 1 survive an exponent of more than 32 bits. -/
def powInt (base exponent : Int64) : Except Fault Number :=
  if 0 ≤ exponent ∧ exponent ≤ 0xFFFFFFFF then checkedPow base exponent.toInt.toNat
  else if base = 0 ∨ base = 1 then .ok (int base)
  else if base = -1 then .ok (int (if exponent % 2 = 0 then 1 else -1))
  else .error .overflow

/-- The power of a double. Infinite operands may have an infinite power; only finite ones overflow. -/
def powFloat (base exponent : Float) : Except Fault Number :=
  let x := base ^ exponent
  if base == 0 ∧ exponent < 0 then .error .divisionByZero
  else if x.isNaN ∧ ¬ base.isNaN ∧ ¬ exponent.isNaN then .error .notReal
  else if x.isInf ∧ base.isFinite ∧ exponent.isFinite then .error .overflow
  else .ok (float x)

/-- The power. At the exponent zero and at the base one it is `1` whatever the other operand is, unless that signals. -/
def pow : Number → Number → Except Fault Number
  | int a, int b =>
    if 0 ≤ b then powInt a b else powFloat (int a).toFloat (int b).toFloat
  | signalingNaN, _ => .ok (float nan)
  | _, signalingNaN => .ok (float nan)
  | a, b => powFloat a.toFloat b.toFloat

end Number

end Reckoner
