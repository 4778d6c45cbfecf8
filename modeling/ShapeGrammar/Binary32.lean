import ShapeGrammar.Scalar
import ShapeGrammar.Decimal

/-! Binary32 numbers as scalars. Every finite one is a whole number of units of 2⁻¹⁴⁹; the exact
remainder and the shortest decimal text are computed on these counts. -/
namespace ShapeGrammar.Binary32

def isNegative (x : Float32) : Bool := x.toBits.toNat / Nat.pow 2 31 == 1

def exponentField (x : Float32) : Nat := x.toBits.toNat / Nat.pow 2 23 % 256

def fraction (x : Float32) : Nat := x.toBits.toNat % Nat.pow 2 23

/-- The magnitude of a finite number in units of 2⁻¹⁴⁹. -/
def units (x : Float32) : Nat :=
  match exponentField x with
  | 0 => fraction x
  | e + 1 => (Nat.pow 2 23 + fraction x) * Nat.pow 2 e

/-- The number of `n` units, exact if `n` has at most 24 significant bits. -/
def ofUnits (negative : Bool) (n : Nat) : Float32 :=
  let magnitude := if n < Nat.pow 2 23 then n else
    let shift := n.log2 - 23
    (shift + 1) * Nat.pow 2 23 + (n / Nat.pow 2 shift - Nat.pow 2 23)
  Float32.ofBits (UInt32.ofNat (magnitude + if negative then Nat.pow 2 31 else 0))

def spacing (n : Nat) : Nat := Nat.pow 2 (n.log2 - 23)

/-- The interval of numbers that round to `n` units, in quarters of a unit: half a spacing to each
side, below a power of two half of the finer spacing there, and ends included if the significand is even. -/
def bracket (n : Nat) : Decimal.Bracket :=
  let s := spacing n
  { low := if n == Nat.pow 2 23 * s && 1 < s then 4 * n - s else 4 * n - 2 * s
    value := 4 * n
    high := 4 * n + 2 * s
    unit := Nat.pow 2 151
    closed := n / s % 2 == 0 }

/-- The fewest digits that are read back as the same number, in positional notation. -/
def text (x : Float32) : String :=
  if x.isNaN then "NaN" else
    let magnitude := if x.isInf then "inf" else
      if units x == 0 then "0" else (Decimal.shortest (bracket (units x)) 60).text
    if isNegative x then "-" ++ magnitude else magnitude

/-- The exact remainder of truncated division; it keeps the sign of `x`, also where it is zero. -/
def rem (x y : Float32) : Float32 :=
  if x.isNaN || y.isNaN || x.isInf || units y == 0 then 0 / 0
  else if y.isInf then x
  else ofUnits (isNegative x) (units x % units y)

instance : Scalar Float32 where
  zero := 0
  one := 1
  ofNat := Float32.ofNat
  pi := Float32.ofBits 0x40490fdb
  sin := Float32.sin
  cos := Float32.cos
  sqrt := Float32.sqrt
  abs := Float32.abs
  atan2 := Float32.atan2
  pow := Float32.pow
  rem := rem
  isZero x := x == 0
  decLe _ _ := inferInstance

instance : Numeral Float32 := ⟨text⟩

def fitsWord (negative : Bool) (n : Nat) : Bool :=
  if negative then n ≤ Nat.pow 2 63 else n < Nat.pow 2 64

/-- The number nearest to a decimal: one written as a whole number that fits a word directly, any
other by way of the nearest binary64 number. -/
def ofDecimal (negative whole : Bool) (d : Decimal) : Float32 :=
  let magnitude := match d.exponent with
    | .ofNat zeros =>
      if whole && zeros == 0 && fitsWord negative d.coefficient then Float32.ofNat d.coefficient
      else (Float.ofScientific d.coefficient false zeros).toFloat32
    | .negSucc k => (Float.ofScientific d.coefficient true (k + 1)).toFloat32
  if negative then -magnitude else magnitude

end ShapeGrammar.Binary32
