/-! Numbers a grammar computes with. The operations carry no laws, so every definition built on
them reads the same over rounded machine numbers and over an exact ordered field. -/
namespace ShapeGrammar

/-- Arithmetic, comparison and trigonometry of lengths and angles (in radians). `atan2 y x` is the
angle of the point `(x, y)`, `rem` the remainder that takes the sign of the dividend. -/
class Scalar (α : Type) extends Zero α, One α, Add α, Sub α, Mul α, Div α, Neg α, LE α where
  ofNat : Nat → α
  pi : α
  sin : α → α
  cos : α → α
  sqrt : α → α
  abs : α → α
  atan2 : α → α → α
  pow : α → α → α
  rem : α → α → α
  isZero : α → Bool
  decLe : DecidableLE α

/-- How a number is written in grammar text and in messages. -/
class Numeral (α : Type) where
  text : α → String

namespace Scalar
variable {α : Type} [Scalar α]

instance : DecidableLE α := decLe

def two : α := ofNat 2

def half : α := 1 / two

def degree : α := pi / ofNat 180

def quarterTurn : α := pi * half

def ofDegrees (d : α) : α := d * degree

end Scalar
end ShapeGrammar
