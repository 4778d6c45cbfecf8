import ShapeGrammar.Proofs.Exact

/-! Rigid frames: three unit axes at right angles, right-handed, with an origin. They are closed under
products, so under moves and turns in the frame; the quaternions of the rotations in use have length
one, as long as sine and cosine lie on the unit circle, and turn a rigid frame into a rigid one. -/
namespace ShapeGrammar
open Scalar

namespace Vec3
variable {α : Type} [Scalar α]

def det (u v w : Vec3 α) : α :=
  u.x * (v.y * w.z - v.z * w.y) + u.y * (v.z * w.x - v.x * w.z) + u.z * (v.x * w.y - v.y * w.x)

end Vec3

namespace Mat4

section Definitions
variable {α : Type} [Scalar α]

def direct (m : Mat4 α) (v : Vec3 α) : Vec3 α where
  x := m.x.x * v.x + m.y.x * v.y + m.z.x * v.z
  y := m.x.y * v.x + m.y.y * v.y + m.z.y * v.z
  z := m.x.z * v.x + m.y.z * v.y + m.z.z * v.z

/-- The bottom row is 0 0 0 1: axes are directions and the origin is a point. -/
structure Affine (m : Mat4 α) : Prop where
  x : m.x.w = 0
  y : m.y.w = 0
  z : m.z.w = 0
  w : m.w.w = 1

/-- Neither sheared nor scaled nor mirrored. -/
structure Rigid (m : Mat4 α) : Prop extends m.Affine where
  dot : ∀ a b, (m.axis a).dot (m.axis b) = if a = b then 1 else 0
  det : (m.axis .x).det (m.axis .y) (m.axis .z) = 1

end Definitions

variable {α : Type} [ExactScalar α] {m n : Mat4 α}

section Affine

theorem Affine.mul (hm : m.Affine) (hn : n.Affine) : (m * n).Affine := by
  constructor <;> simp [hm.x, hm.y, hm.z, hm.w, hn.x, hn.y, hn.z, hn.w]

theorem affine_displacement (v : Vec3 α) : (displacement v).Affine := ⟨rfl, rfl, rfl, rfl⟩

theorem affine_toMat4 (q : Rotation α) : q.toMat4.Affine := ⟨rfl, rfl, rfl, rfl⟩

theorem affine_identity : (identity : Mat4 α).Affine := ⟨rfl, rfl, rfl, rfl⟩

theorem axis_mul (m : Mat4 α) (hn : n.Affine) (a : Axis) : (m * n).axis a = m.direct (n.axis a) := by
  cases a <;> ext <;> simp [axis, Vec4.direction, direct, hn.x, hn.y, hn.z]

end Affine

section Rigid

theorem Rigid.dot_direct (hm : m.Rigid) (u v : Vec3 α) : (m.direct u).dot (m.direct v) = u.dot v := by
  have hxx := hm.dot .x .x
  have hyy := hm.dot .y .y
  have hzz := hm.dot .z .z
  have hxy := hm.dot .x .y
  have hxz := hm.dot .x .z
  have hyz := hm.dot .y .z
  simp only [Vec3.dot, axis, Vec4.direction, reduceCtorEq, if_true, if_false] at hxx hyy hzz hxy hxz hyz
  simp only [Vec3.dot, direct]
  linear_combination u.x * v.x * hxx + u.y * v.y * hyy + u.z * v.z * hzz +
    (u.x * v.y + u.y * v.x) * hxy + (u.x * v.z + u.z * v.x) * hxz + (u.y * v.z + u.z * v.y) * hyz

theorem det_direct (m : Mat4 α) (u v w : Vec3 α) :
    (m.direct u).det (m.direct v) (m.direct w) = (m.axis .x).det (m.axis .y) (m.axis .z) * u.det v w := by
  simp only [Vec3.det, direct, axis, Vec4.direction]
  ring

theorem Rigid.mul (hm : m.Rigid) (hn : n.Rigid) : (m * n).Rigid where
  toAffine := hm.toAffine.mul hn.toAffine
  dot a b := by rw [axis_mul m hn.toAffine, axis_mul m hn.toAffine, hm.dot_direct, hn.dot]
  det := by simp only [axis_mul m hn.toAffine, det_direct, hm.det, hn.det, mul_one]

theorem rigid_displacement (v : Vec3 α) : (displacement v).Rigid where
  toAffine := affine_displacement v
  dot a b := by cases a <;> cases b <;> simp [displacement, identity, axis, Vec4.direction, Vec3.dot]
  det := by simp [displacement, identity, axis, Vec4.direction, Vec3.det]

theorem rigid_identity : (identity : Mat4 α).Rigid where
  toAffine := affine_identity
  dot a b := by cases a <;> cases b <;> simp [identity, axis, Vec4.direction, Vec3.dot]
  det := by simp [identity, axis, Vec4.direction, Vec3.det]

theorem Rigid.translate (hm : m.Rigid) (v : Vec3 α) : (m.translate v).Rigid :=
  hm.mul (rigid_displacement v)

end Rigid

end Mat4

namespace Rotation
variable {α : Type} [ExactScalar α] {q : Rotation α}

def Unit (q : Rotation α) : Prop := q.x * q.x + q.y * q.y + q.z * q.z + q.w * q.w = 1

theorem Unit.rigid_toMat4 (hq : q.Unit) : q.toMat4.Rigid where
  toAffine := Mat4.affine_toMat4 q
  dot a b := by
    rw [Unit] at hq
    cases a <;> cases b <;> simp [toMat4, Mat4.axis, Vec4.direction, Vec3.dot] <;> grind
  det := by
    rw [Unit] at hq
    simp only [toMat4, Mat4.axis, Vec4.direction, Vec3.det]
    grind

section Circle
variable (hcircle : ∀ a : α, sin a ^ 2 + cos a ^ 2 = 1)
include hcircle

theorem unit_aboutX (a : α) : (aboutX a).Unit := by
  simp only [Unit, aboutX]
  linear_combination hcircle (a * half)

theorem unit_aboutY (a : α) : (aboutY a).Unit := by
  simp only [Unit, aboutY]
  linear_combination hcircle (a * half)

theorem unit_ofPitchYawRoll (degrees : Vec3 α) : (ofPitchYawRoll degrees).Unit := by
  simp only [Unit, ofPitchYawRoll]
  have hi := hcircle (ofDegrees degrees.y * half)
  have hj := hcircle (ofDegrees degrees.x * half)
  have hh := hcircle (ofDegrees degrees.z * half)
  grind

end Circle

theorem unit_identity : (identity : Rotation α).Unit := by simp [Unit, identity]

end Rotation

end ShapeGrammar
