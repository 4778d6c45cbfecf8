import Mathlib.Algebra.BigOperators.Group.List.Basic
import Mathlib.Algebra.Order.Field.Rat
import Mathlib.Data.Rat.Floor
import Mathlib.Tactic.FieldSimp
import Mathlib.Tactic.LinearCombination
import Mathlib.Tactic.Positivity
import Mathlib.Tactic.Ring
import ShapeGrammar.Frame

/-! Exact arithmetic. Over an ordered field the operations of a scalar obey the laws of the field; of
its angles, roots, powers and remainders nothing is known unless a statement asks for it. Matrices
over such scalars can be multiplied in any grouping.

A module on exact arithmetic imports this one before any other: the operations of a plain scalar are
then found before those of the field, in every module alike. -/
namespace ShapeGrammar

/-- Scalars that are not rounded: an ordered field with whatever functions. -/
class ExactScalar (α : Type) extends Field α, LinearOrder α, IsStrictOrderedRing α, Scalar α where
  ofNat_eq_cast (n : Nat) : Scalar.ofNat n = (n : α)
  abs_eq (x : α) : Scalar.abs x = |x|
  isZero_iff (x : α) : Scalar.isZero x = true ↔ x = 0

@[reducible]
def ExactScalar.ofField (α : Type) [Field α] [LinearOrder α] [IsStrictOrderedRing α] (pi : α)
    (sin cos sqrt : α → α) (atan2 pow rem : α → α → α) : ExactScalar α where
  ofNat n := n
  pi := pi
  sin := sin
  cos := cos
  sqrt := sqrt
  abs x := |x|
  atan2 := atan2
  pow := pow
  rem := rem
  isZero x := decide (x = 0)
  decLe := inferInstance
  ofNat_eq_cast _ := rfl
  abs_eq _ := rfl
  isZero_iff _ := decide_eq_true_iff

/-- The rational numbers. Sine and cosine run through the rational points of the unit circle, the
other functions are none in particular. -/
instance : ExactScalar ℚ :=
  .ofField ℚ 3 (fun t => 2 * t / (1 + t ^ 2)) (fun t => (1 - t ^ 2) / (1 + t ^ 2)) id
    (fun y _ => y) (fun x _ => x) fun x y => x - y * ⌊x / y⌋

instance : Numeral ℚ := ⟨toString⟩

theorem sin_sq_add_cos_sq_rat (t : ℚ) : Scalar.sin t ^ 2 + Scalar.cos t ^ 2 = 1 := by
  have hsin : Scalar.sin t = 2 * t / (1 + t ^ 2) := rfl
  have hcos : Scalar.cos t = (1 - t ^ 2) / (1 + t ^ 2) := rfl
  have hne : 1 + t ^ 2 ≠ 0 := by positivity
  rw [hsin, hcos]
  field_simp
  ring

attribute [ext] Vec3 Vec4 Mat4

namespace Mat4

section Columns
variable {α : Type} [Scalar α] (m n : Mat4 α) (v : Vec4 α)

@[simp] theorem mul_x : (m * n).x = m.apply n.x := rfl
@[simp] theorem mul_y : (m * n).y = m.apply n.y := rfl
@[simp] theorem mul_z : (m * n).z = m.apply n.z := rfl
@[simp] theorem mul_w : (m * n).w = m.apply n.w := rfl

@[simp] theorem apply_x : (m.apply v).x = m.x.x * v.x + m.y.x * v.y + m.z.x * v.z + m.w.x * v.w := rfl
@[simp] theorem apply_y : (m.apply v).y = m.x.y * v.x + m.y.y * v.y + m.z.y * v.z + m.w.y * v.w := rfl
@[simp] theorem apply_z : (m.apply v).z = m.x.z * v.x + m.y.z * v.y + m.z.z * v.z + m.w.z * v.w := rfl
@[simp] theorem apply_w : (m.apply v).w = m.x.w * v.x + m.y.w * v.y + m.z.w * v.z + m.w.w * v.w := rfl

end Columns

end Mat4

variable {α : Type} [ExactScalar α]

namespace Scalar

theorem ofNat_eq (n : Nat) : (ofNat n : α) = n := ExactScalar.ofNat_eq_cast n

theorem abs_eq (x : α) : abs x = |x| := ExactScalar.abs_eq x

theorem isZero_iff {x : α} : isZero x = true ↔ x = 0 := ExactScalar.isZero_iff x

theorem two_eq : (two : α) = 2 := ofNat_eq 2

theorem mul_half (x : α) : x * half = x / 2 := by rw [half, two_eq, mul_one_div]

end Scalar

namespace Mat4

theorem apply_apply (m n : Mat4 α) (v : Vec4 α) : m.apply (n.apply v) = (m * n).apply v := by
  ext <;> simp <;> ring

theorem mul_assoc (m n k : Mat4 α) : m * n * k = m * (n * k) := by
  ext1 <;> simp only [mul_x, mul_y, mul_z, mul_w, apply_apply]

theorem mul_translate (m n : Mat4 α) (v : Vec3 α) : m * n.translate v = (m * n).translate v :=
  (mul_assoc m n _).symm

theorem mul_rotate (m n : Mat4 α) (q : Rotation α) : m * n.rotate q = (m * n).rotate q :=
  (mul_assoc m n _).symm

theorem mul_rotate_translate (m n : Mat4 α) (q : Rotation α) (v : Vec3 α) :
    ((m * n).rotate q).translate v = m * (n.rotate q).translate v := by
  rw [mul_translate, mul_rotate]

theorem translate_x (m : Mat4 α) (v : Vec3 α) : (m.translate v).x = m.x := by
  ext <;> simp [translate, displacement, identity]

theorem translate_y (m : Mat4 α) (v : Vec3 α) : (m.translate v).y = m.y := by
  ext <;> simp [translate, displacement, identity]

theorem translate_z (m : Mat4 α) (v : Vec3 α) : (m.translate v).z = m.z := by
  ext <;> simp [translate, displacement, identity]

end Mat4
end ShapeGrammar
