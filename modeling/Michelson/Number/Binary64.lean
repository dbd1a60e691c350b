/-
# Double-precision numbers

Finite double-precision numbers as exact pairs of a mantissa and a power of two.  Rounding goes to
the nearest number, a tie to the even mantissa.  `shortest` finds the fewest decimal digits that
still identify a number.
-/

namespace Michelson

/-- The number `± mantissa * 2 ^ exponent`. -/
structure Binary64 where
  /-- Whether the sign bit is set. -/
  negative : Bool
  /-- The significant bits, at most 53 of them. -/
  mantissa : Nat
  /-- The power of two of the last bit. -/
  exponent : Int
deriving DecidableEq, Repr

namespace Binary64

/-- The least power of two of a last bit. -/
def minExponent : Int := -1074

/-- The greatest power of two of a last bit. -/
def maxExponent : Int := 971

/-- The least mantissa whose 53 bits are all significant. -/
def hiddenBit : Nat := 0x10000000000000

/-- A fraction times a power of two, as a fraction. -/
def scale (num den : Nat) (power : Int) : Nat × Nat :=
  if 0 ≤ power then (num * Nat.pow 2 power.toNat, den) else (num, den * Nat.pow 2 (-power).toNat)

/-- The quotient rounded to the nearest whole number, a tie to the even one. -/
def roundDiv (num den : Nat) : Nat :=
  let q := num / den
  let r := 2 * (num % den)
  if den < r || (r == den && q % 2 == 1) then q + 1 else q

/-- The positive number nearest to a fraction, or nothing when it is too large. -/
def ofFraction? (num den : Nat) : Option Binary64 :=
  if num = 0 then some ⟨false, 0, minExponent⟩
  else
    let guess : Int := (Nat.log2 num : Int) - Nat.log2 den - 52
    let (n, d) := scale num den (-guess)
    let fitted : Int := if n < hiddenBit * d then guess - 1 else guess
    let exponent := max fitted minExponent
    let (n, d) := scale num den (-exponent)
    let m := roundDiv n d
    let (m, exponent) := if m = 2 * hiddenBit then (hiddenBit, exponent + 1) else (m, exponent)
    if maxExponent < exponent then none else some ⟨false, m, exponent⟩

/-- The rounded product of two magnitudes, or nothing when it is too large. -/
def mul? (a b : Binary64) : Option Binary64 :=
  let (n, d) := scale (a.mantissa * b.mantissa) 1 (a.exponent + b.exponent)
  ofFraction? n d

/-- The rounded quotient of two magnitudes, or nothing when it is too large. -/
def div? (a b : Binary64) : Option Binary64 :=
  let (n, d) := scale a.mantissa b.mantissa (a.exponent - b.exponent)
  ofFraction? n d

/-- The power of ten, rounded. -/
def powerOfTen? (k : Nat) : Option Binary64 := ofFraction? (Nat.pow 10 k) 1

/-- The magnitude `significand * 10 ^ exponent`, computed with one rounding for the significand and
one for each factor of at most `10 ^ 308`; nothing when it is too large. -/
def ofParts? (significand : Binary64) (exponent : Int) : Option Binary64 :=
  if significand.mantissa = 0 then some significand
  else if exponent.natAbs ≤ 308 then do
    let power ← powerOfTen? exponent.natAbs
    if 0 ≤ exponent then significand.mul? power else significand.div? power
  else if h : 0 ≤ exponent then none
  else do
    let power ← powerOfTen? 308
    let smaller ← significand.div? power
    ofParts? smaller (exponent + 308)
termination_by (-exponent).toNat

/-- The decimal logarithm of a positive fraction, rounded down: the greatest `k` with
`10 ^ k ≤ num / den`. -/
def log10 (num den : Nat) : Int :=
  let guess : Int := (Nat.toDigits 10 num).length - (Nat.toDigits 10 den).length
  if 0 ≤ guess then (if den * Nat.pow 10 guess.toNat ≤ num then guess else guess - 1)
  else (if den ≤ num * Nat.pow 10 (-guess).toNat then guess else guess - 1)

/-- The first candidate on the grid of `count` digits that lies in the rounding interval
`(low, high) / den`, its ends included when `closed`, as a multiple of `10 ^ power`. -/
def onGrid? (low mid high den : Nat) (closed : Bool) (power : Int) : Option Nat :=
  let unit := Nat.pow 10 power.natAbs
  let (low, mid, high, step) :=
    if 0 ≤ power then (low, mid, high, den * unit) else (low * unit, mid * unit, high * unit, den)
  let inside (d : Nat) : Bool :=
    (low < d * step && d * step < high) || (closed && (low == d * step || d * step == high))
  let d := mid / step
  match inside d, inside (d + 1) with
  | true, true =>
    let below := mid - d * step
    let above := (d + 1) * step - mid
    some (if below < above || (below == above && d % 2 == 0) then d else d + 1)
  | true, false => some d
  | false, true => some (d + 1)
  | false, false => none

/-- The fewest decimal digits that identify a magnitude, with the power of ten of the last one. -/
def shortest (x : Binary64) : Nat × Int :=
  if x.mantissa = 0 then (0, 0)
  else
    let narrow := x.mantissa == hiddenBit && minExponent < x.exponent
    let (mid, den) := scale (4 * x.mantissa) 4 x.exponent
    let (low, _) := scale (4 * x.mantissa - (if narrow then 1 else 2)) 4 x.exponent
    let (high, _) := scale (4 * x.mantissa + 2) 4 x.exponent
    let closed := x.mantissa % 2 == 0
    let top := log10 mid den
    let found := (List.range 17).findSome? fun (n : Nat) =>
      let power : Int := top - n
      (onGrid? low mid high den closed power).map fun d => (d, power)
    match found with
    | none => (x.mantissa, x.exponent)
    | some (d, power) =>
      if d % 10 = 0 then (d / 10, power + 1) else (d, power)

end Binary64

end Michelson
