import Mathlib.Analysis.SpecialFunctions.Complex.Arg
import Mathlib.Analysis.SpecialFunctions.Pow.Real
import Mathlib.Analysis.SpecialFunctions.Trigonometric.Basic
import ShapeGrammar.Proofs.Exact
import ShapeGrammar.Proofs.Rigid
import ShapeGrammar.Face

/-! Turns by a quarter and by half of a circle. Where the half angles of these turns have their exact
sines and cosines, as over the real numbers, the matrices of the turns exchange the axes of a frame
and their opposites, and every face of a box is turned with its z axis to the outside. -/
namespace ShapeGrammar
open Scalar

/-- The half angles of the quarter turns one way and the other have their exact sines and cosines, the
square roots of one half. -/
structure ExactQuarterTurns (α : Type) [ExactScalar α] : Prop where
  two_mul_sq : 2 * (sin (quarterTurn * half) : α) ^ 2 = 1
  cos_eq : (cos (quarterTurn * half) : α) = sin (quarterTurn * half)
  sin_neg : (sin (-quarterTurn * half) : α) = -sin (quarterTurn * half)
  cos_neg : (cos (-quarterTurn * half) : α) = cos (quarterTurn * half)

structure ExactTurns (α : Type) [ExactScalar α] : Prop extends ExactQuarterTurns α where
  sin_pi : (sin (pi * half) : α) = 1
  cos_pi : (cos (pi * half) : α) = 0

noncomputable instance : ExactScalar ℝ :=
  .ofField ℝ Real.pi Real.sin Real.cos Real.sqrt (fun y x => Complex.arg ⟨x, y⟩) (fun x y => x ^ y)
    fun x y => x - y * (if 0 ≤ x / y then ⌊x / y⌋ else ⌈x / y⌉)

theorem exactTurns_real : ExactTurns ℝ := by
  have hhalf : (pi * half : ℝ) = Real.pi / 2 := by
    show Real.pi * (1 / ((2 : ℕ) : ℝ)) = Real.pi / 2
    push_cast
    ring
  have hquarter : (quarterTurn * half : ℝ) = Real.pi / 4 := by
    rw [quarterTurn, hhalf]
    show Real.pi / 2 * (1 / ((2 : ℕ) : ℝ)) = Real.pi / 4
    push_cast
    ring
  have hback : (-quarterTurn * half : ℝ) = -(Real.pi / 4) := by rw [← hquarter, neg_mul]
  have hsin (x : ℝ) : sin x = Real.sin x := rfl
  have hcos (x : ℝ) : cos x = Real.cos x := rfl
  constructor
  · constructor
    · rw [hquarter, hsin, Real.sin_pi_div_four, div_pow, Real.sq_sqrt zero_le_two]
      norm_num
    · rw [hquarter, hsin, hcos, Real.sin_pi_div_four, Real.cos_pi_div_four]
    · rw [hback, hquarter, hsin, hsin, Real.sin_neg]
    · rw [hback, hquarter, hcos, hcos, Real.cos_neg]
  · rw [hhalf, hsin, Real.sin_pi_div_two]
  · rw [hhalf, hcos, Real.cos_pi_div_two]

namespace Mat4

section Definitions
variable {α : Type} [Scalar α]

def turnX (c s : α) : Mat4 α := ⟨⟨1, 0, 0, 0⟩, ⟨0, c, s, 0⟩, ⟨0, -s, c, 0⟩, ⟨0, 0, 0, 1⟩⟩

def turnY (c s : α) : Mat4 α := ⟨⟨c, 0, -s, 0⟩, ⟨0, 1, 0, 0⟩, ⟨s, 0, c, 0⟩, ⟨0, 0, 0, 1⟩⟩

end Definitions

end Mat4

namespace Face

/-- The axis of a box that a face lies across. -/
def axis : Face → Axis
  | negY | posY => .y
  | posZ | negZ => .z
  | posX | negX => .x

variable {α : Type} [Scalar α]

def sign : Face → α
  | posY | posZ | posX => 1
  | negY | negZ | negX => -1

def outward (m : Mat4 α) (f : Face) : Vec3 α := (m.axis f.axis).scale f.sign

def frame : Face → Mat4 α
  | negY => .turnX 0 1
  | posY => .turnX 0 (-1)
  | posZ => .identity
  | negZ => .turnY (-1) 0
  | posX => .turnY 0 1
  | negX => .turnY 0 (-1)

end Face

variable {α : Type} [ExactScalar α]

namespace Rotation

theorem toMat4_aboutX (a : α) : (aboutX a).toMat4 =
    .turnX (1 - 2 * sin (a * half) ^ 2) (2 * sin (a * half) * cos (a * half)) := by
  ext <;> simp [toMat4, aboutX, Mat4.turnX] <;> ring

theorem toMat4_aboutY (a : α) : (aboutY a).toMat4 =
    .turnY (1 - 2 * sin (a * half) ^ 2) (2 * sin (a * half) * cos (a * half)) := by
  ext <;> simp [toMat4, aboutY, Mat4.turnY] <;> ring

theorem toMat4_identity : (identity : Rotation α).toMat4 = .identity := by
  ext <;> simp [toMat4, identity, Mat4.identity]

end Rotation

namespace ExactQuarterTurns
variable (h : ExactQuarterTurns α)
include h

theorem cos_quarter : 1 - 2 * (sin (quarterTurn * half) : α) ^ 2 = 0 := by rw [h.two_mul_sq, sub_self]

theorem sin_quarter : 2 * (sin (quarterTurn * half) : α) * cos (quarterTurn * half) = 1 := by
  rw [h.cos_eq, mul_assoc, ← sq, h.two_mul_sq]

theorem cos_neg_quarter : 1 - 2 * (sin (-quarterTurn * half) : α) ^ 2 = 0 := by
  rw [h.sin_neg, neg_sq, h.cos_quarter]

theorem sin_neg_quarter : 2 * (sin (-quarterTurn * half) : α) * cos (-quarterTurn * half) = -1 := by
  rw [h.sin_neg, h.cos_neg, mul_neg, neg_mul, h.sin_quarter]

end ExactQuarterTurns

namespace Face

theorem toMat4_turn_negY (hq : ExactQuarterTurns α) : (turn negY : Rotation α).toMat4 = frame negY := by
  rw [turn, Rotation.toMat4_aboutX, hq.cos_quarter, hq.sin_quarter, frame]

theorem toMat4_turn_posY (hq : ExactQuarterTurns α) : (turn posY : Rotation α).toMat4 = frame posY := by
  rw [turn, Rotation.toMat4_aboutX, hq.cos_neg_quarter, hq.sin_neg_quarter, frame]

theorem toMat4_turn (ht : ExactTurns α) (f : Face) : (f.turn : Rotation α).toMat4 = f.frame := by
  have hq := ht.toExactQuarterTurns
  cases f with
  | negY => exact toMat4_turn_negY hq
  | posY => exact toMat4_turn_posY hq
  | posZ => exact Rotation.toMat4_identity
  | negZ =>
    have hcos : 1 - 2 * (1 : α) ^ 2 = -1 := by ring
    rw [turn, Rotation.toMat4_aboutY, ht.sin_pi, ht.cos_pi, hcos, mul_zero, frame]
  | posX => rw [turn, Rotation.toMat4_aboutY, hq.cos_quarter, hq.sin_quarter, frame]
  | negX => rw [turn, Rotation.toMat4_aboutY, hq.cos_neg_quarter, hq.sin_neg_quarter, frame]

end Face
end ShapeGrammar
