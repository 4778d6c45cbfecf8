/-! Decimal numbers `coefficient * 10 ^ exponent` and their positional text, and the choice of the
shortest decimal between two bounds, made in exact integer arithmetic. -/
namespace ShapeGrammar

structure Decimal where
  coefficient : Nat
  exponent : Int
  deriving DecidableEq, Repr

namespace Decimal

def digits (n : Nat) : List Char := Nat.toDigits 10 n

/-- The last `places` of the digits stand behind the point; at least one stands before it. -/
def pointed (ds : List Char) (places : Nat) : List Char :=
  let padded := List.replicate (places + 1 - ds.length) '0' ++ ds
  let whole := padded.length - places
  padded.take whole ++ '.' :: padded.drop whole

def text (d : Decimal) : String :=
  match d.exponent with
  | .ofNat zeros => String.ofList (digits d.coefficient ++ List.replicate zeros '0')
  | .negSucc k => String.ofList (pointed (digits d.coefficient) (k + 1))

/-- A positive value with the interval of numbers that are read back as it, all three in one unit,
`unit⁻¹` of one. The bounds themselves belong to it if `closed`. -/
structure Bracket where
  low : Nat
  value : Nat
  high : Nat
  unit : Nat
  closed : Bool

namespace Bracket

def contains (b : Bracket) (x : Nat) : Bool :=
  if b.closed then decide (b.low ≤ x ∧ x ≤ b.high) else decide (b.low < x ∧ x < b.high)

/-- The multiple of `step` nearest to the value among its two neighbours that lie in the interval;
of two equally near ones the upper. -/
def nearest? (b : Bracket) (step : Nat) : Option Nat :=
  let below := b.value / step
  match b.contains (below * step), b.contains ((below + 1) * step) with
  | false, false => none
  | true, false => some below
  | false, true => some (below + 1)
  | true, true => some (if 2 * (b.value % step) < step then below else below + 1)

theorem contains_of_nearest? {b : Bracket} {step k : Nat} (h : b.nearest? step = some k) :
    b.contains (k * step) = true := by
  simp only [nearest?] at h
  split at h <;> cases h <;> first | assumption | (split <;> assumption)

/-- Tries the grids of multiples of `10 ^ e`, `10 ^ (e-1)`, …, `1`, the coarsest first. -/
def firstGrid (b : Bracket) : Nat → Nat × Nat
  | 0 => ((b.nearest? b.unit).getD (b.value / b.unit), 0)
  | e + 1 => match b.nearest? (Nat.pow 10 (e + 1) * b.unit) with
    | some k => (k, e + 1)
    | none => b.firstGrid e

def magnify (b : Bracket) (places : Nat) : Bracket where
  low := b.low * Nat.pow 10 places
  value := b.value * Nat.pow 10 places
  high := b.high * Nat.pow 10 places
  unit := b.unit
  closed := b.closed

end Bracket

/-- The decimal of fewest digits in the interval, the one nearest to its value. A grid coarser than
the value holds no other candidate than its own step, so the search starts just above the value and
goes down to `10 ^ (-places)`. -/
def shortest (b : Bracket) (places : Nat) : Decimal :=
  let whole := (digits (b.value / b.unit)).length
  let (k, e) := (b.magnify places).firstGrid (whole + places)
  ⟨k, (e : Int) - places⟩

end Decimal
end ShapeGrammar
