import CitadelAgent.Lib.BigEndian

/-!
# Binary64, by bits

A float here is its 64 bits, so that two NaNs with different payloads are two values (Lean's own `Float` has one
NaN). A finite float is an integer multiple of `2 ^ -1074`; `magBits` is that multiple and `roundBits` the way
back, to nearest and ties to even.

* `F64.add`, `F64.sub`, `F64.mul`, `F64.lt`, `F64.le`, `F64.eq`, `F64.max`, `F64.min`, `F64.totalKey` : the
  operations, a NaN result being `F64.nan` whatever the operands' payloads.
-/

structure F64 where
  bits : UInt64
  deriving DecidableEq

namespace F64

def infBits : Nat := 2047 * 2 ^ 52

/-- The magnitude of `1.0`. -/
def oneMag : Nat := 2 ^ 1074

/-- The magnitude with exponent and fraction bits `b`, in units of `2 ^ -1074`. -/
def magBits (b : Nat) : Nat :=
  if b < 2 ^ 52 then b else (2 ^ 52 + b % 2 ^ 52) * 2 ^ (b / 2 ^ 52 - 1)

/-- The bits of the magnitude nearest to `n / 2 ^ d` units, ties to the even one. -/
def roundBits (n d : Nat) : Nat :=
  let k := n.log2 - (d + 52)
  let unit := 2 ^ (k + d)
  let q := n / unit
  let r := n % unit
  let q' := if 2 * r < unit ∨ 2 * r = unit ∧ q % 2 = 0 then q else q + 1
  min (k * 2 ^ 52 + q') infBits

def isSignNegative (x : F64) : Bool := 2 ^ 63 ≤ x.bits.toNat

def absBits (x : F64) : Nat := x.bits.toNat % 2 ^ 63

def isNaN (x : F64) : Bool := infBits < x.absBits

def isInfinite (x : F64) : Bool := x.absBits = infBits

def isFinite (x : F64) : Bool := x.absBits < infBits

def ofSignBits (neg : Bool) (b : Nat) : F64 := ⟨UInt64.ofNat (if neg then 2 ^ 63 + b else b)⟩

def nan : F64 := ofSignBits false (infBits + 2 ^ 51)

def infinity : F64 := ofSignBits false infBits

/-- A finite float as a multiple of `2 ^ -1074`. -/
def scaled (x : F64) : Int := if x.isSignNegative then -magBits x.absBits else magBits x.absBits

def neg (x : F64) : F64 := ofSignBits (!x.isSignNegative) x.absBits

def abs (x : F64) : F64 := ofSignBits false x.absBits

/-- The float nearest to `n` units of `2 ^ -1074`. A zero sum is negative only when both summands are. -/
def ofScaled (n : Int) (negZero : Bool) : F64 :=
  if n = 0 then ofSignBits negZero 0 else ofSignBits (n < 0) (roundBits n.natAbs 0)

def add (x y : F64) : F64 :=
  if x.isNaN ∨ y.isNaN then nan
  else if x.isInfinite then (if y.isInfinite ∧ x.isSignNegative ≠ y.isSignNegative then nan else x)
  else if y.isInfinite then y
  else ofScaled (x.scaled + y.scaled) (x.isSignNegative && y.isSignNegative)

def sub (x y : F64) : F64 := add x y.neg

def mul (x y : F64) : F64 :=
  let neg := x.isSignNegative != y.isSignNegative
  if x.isNaN ∨ y.isNaN then nan
  else if x.isInfinite ∨ y.isInfinite then
    (if x.absBits = 0 ∨ y.absBits = 0 then nan else ofSignBits neg infBits)
  else ofSignBits neg (roundBits (magBits x.absBits * magBits y.absBits) 1074)

/-! ## Order

`key` orders the floats that are not NaN by value, `totalKey` all of them as `f64::total_cmp` does. -/

def key (x : F64) : Int := if x.isSignNegative then -x.absBits else x.absBits

def totalKey (x : F64) : Int := if x.isSignNegative then -x.absBits - 1 else x.absBits

def lt (x y : F64) : Bool := !x.isNaN && !y.isNaN && x.key < y.key

def le (x y : F64) : Bool := !x.isNaN && !y.isNaN && x.key ≤ y.key

def eq (x y : F64) : Bool := !x.isNaN && !y.isNaN && x.key = y.key

/-- `f64::max`: the other operand when one is NaN. -/
protected def max (x y : F64) : F64 := if x.isNaN then y else if lt x y then y else x

/-- `f64::min`. -/
protected def min (x y : F64) : F64 := if x.isNaN then y else if lt y x then y else x

/-! ## Integers -/

/-- `k as f64`, for an integer `k` of any width. -/
def ofInt (k : Int) : F64 := ofScaled (k * oneMag) false

/-- `n as f64`, for an unsigned `n`. -/
def ofNat (n : Nat) : F64 := ofInt n

/-- The integer part of a magnitude. -/
def wholeUnits (x : F64) : Nat := magBits x.absBits / oneMag

/-- `f64::trunc`. -/
def trunc (x : F64) : F64 :=
  if x.isFinite then ofSignBits x.isSignNegative (roundBits (x.wholeUnits * oneMag) 0) else x

/-- `f64::fract`. -/
def fract (x : F64) : F64 := sub x (trunc x)

/-- `x as u64` (and `x as usize`): saturating, zero for NaN. -/
def toU64 (x : F64) : UInt64 :=
  if x.isNaN ∨ x.isSignNegative then 0 else UInt64.ofNat (min x.wholeUnits (2 ^ 64 - 1))

/-- `x as i64`: saturating, zero for NaN. -/
def toI64 (x : F64) : Int :=
  if x.isNaN then 0
  else if x.isSignNegative then -(min x.wholeUnits (2 ^ 63) : Nat)
  else (min x.wholeUnits (2 ^ 63 - 1) : Nat)

/-- `2f64.powi(e)`, for an exponent of a normal float. -/
def pow2 (e : Int) : F64 := ofSignBits false ((e + 1023).toNat * 2 ^ 52)

/-- A single-precision float, by its bits, as a double. A NaN is made quiet and keeps its payload. -/
def ofSingle (b : UInt32) : F64 :=
  let neg := decide (2 ^ 31 ≤ b.toNat)
  let rest := b.toNat % 2 ^ 31
  let fraction := rest % 2 ^ 23
  if rest < 255 * 2 ^ 23 then
    let mag := if rest < 2 ^ 23 then rest else (2 ^ 23 + fraction) * 2 ^ (rest / 2 ^ 23 - 1)
    ofSignBits neg (roundBits (mag * 2 ^ 925) 0)
  else if fraction = 0 then ofSignBits neg infBits
  else ofSignBits neg (infBits + 2 ^ 51 + fraction % 2 ^ 22 * 2 ^ 29)

/-- `f64::to_be_bytes`. -/
def toBeBytes (x : F64) : List UInt8 := BigEndian.beBytes 8 x.bits.toNat

/-- `f64::from_be_bytes`, of eight bytes. -/
def fromBeBytes (bs : List UInt8) : F64 := ⟨UInt64.ofNat (BigEndian.ofBe bs)⟩

end F64
