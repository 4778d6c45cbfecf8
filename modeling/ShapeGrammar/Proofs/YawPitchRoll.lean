import ShapeGrammar.Proofs.SingleTurn

/-! Turns one after another. The matrix of a product of unit quaternions is the product of their matrices,
and the quaternion made from pitch, yaw and roll is the product of those of three turns about single axes.
So a rotation multiplies the frame of a shape by yaw, pitch and roll, in this order from the left, and
changes nothing else. -/
namespace ShapeGrammar
open Scalar

attribute [ext] Rotation

namespace Rotation

section Product
variable {α : Type} [Scalar α] (p q : Rotation α)

/-- First the turn by the second quaternion, then the one by the first. -/
instance : Mul (Rotation α) where
  mul p q :=
    { x := p.w * q.x + p.x * q.w + p.y * q.z - p.z * q.y
      y := p.w * q.y + p.y * q.w + p.z * q.x - p.x * q.z
      z := p.w * q.z + p.z * q.w + p.x * q.y - p.y * q.x
      w := p.w * q.w - p.x * q.x - p.y * q.y - p.z * q.z }

@[simp] theorem mul_x : (p * q).x = p.w * q.x + p.x * q.w + p.y * q.z - p.z * q.y := rfl
@[simp] theorem mul_y : (p * q).y = p.w * q.y + p.y * q.w + p.z * q.x - p.x * q.z := rfl
@[simp] theorem mul_z : (p * q).z = p.w * q.z + p.z * q.w + p.x * q.y - p.y * q.x := rfl
@[simp] theorem mul_w : (p * q).w = p.w * q.w - p.x * q.x - p.y * q.y - p.z * q.z := rfl

end Product

variable {α : Type} [ExactScalar α] {p q : Rotation α}

theorem Unit.mul (hp : p.Unit) (hq : q.Unit) : (p * q).Unit := by
  simp only [Unit, mul_x, mul_y, mul_z, mul_w] at hp hq ⊢
  linear_combination (p.x * p.x + p.y * p.y + p.z * p.z + p.w * p.w) * hq + hp

theorem unit_about (ha : DoubleAngles α) (a : Axis) (t : α) : (about a t).Unit := by
  cases a with
  | x => exact unit_aboutX ha.circle t
  | y => exact unit_aboutY ha.circle t
  | z =>
    have hcircle := ha.circle (t * half)
    simp only [Unit, about, aboutZ]
    linear_combination hcircle

/-- The matrix of a quaternion with the square of its length in the place of each one. -/
def quadratic (q : Rotation α) : Mat4 α where
  x := ⟨q.w * q.w + q.x * q.x - q.y * q.y - q.z * q.z, two * (q.x * q.y + q.w * q.z),
    two * (q.x * q.z - q.w * q.y), 0⟩
  y := ⟨two * (q.x * q.y - q.w * q.z), q.w * q.w - q.x * q.x + q.y * q.y - q.z * q.z,
    two * (q.y * q.z + q.w * q.x), 0⟩
  z := ⟨two * (q.x * q.z + q.w * q.y), two * (q.y * q.z - q.w * q.x),
    q.w * q.w - q.x * q.x - q.y * q.y + q.z * q.z, 0⟩
  w := ⟨0, 0, 0, 1⟩

theorem Unit.toMat4_eq (hq : q.Unit) : q.toMat4 = q.quadratic := by
  have hone : (1 : α) = q.x * q.x + q.y * q.y + q.z * q.z + q.w * q.w := hq.symm
  ext <;> simp only [toMat4, quadratic, two_eq, hone] <;> ring

theorem quadratic_mul (p q : Rotation α) : (p * q).quadratic = p.quadratic * q.quadratic := by
  ext <;> simp [quadratic, two_eq] <;> ring

theorem Unit.toMat4_mul (hp : p.Unit) (hq : q.Unit) : (p * q).toMat4 = p.toMat4 * q.toMat4 := by
  rw [(hp.mul hq).toMat4_eq, hp.toMat4_eq, hq.toMat4_eq, quadratic_mul]

theorem ofPitchYawRoll_eq (degrees : Vec3 α) : ofPitchYawRoll degrees =
    about .y (ofDegrees degrees.y) * about .x (ofDegrees degrees.x) * about .z (ofDegrees degrees.z) := by
  ext <;> simp [ofPitchYawRoll, about, aboutX, aboutY, aboutZ] <;> ring

end Rotation

namespace Mat4
variable {α : Type} [ExactScalar α]

def turnDegrees (a : Axis) (d : α) : Mat4 α :=
  turn a (cos (d * (pi / 180))) (sin (d * (pi / 180)))

theorem toMat4_about_ofDegrees (ha : DoubleAngles α) (a : Axis) (d : α) :
    (Rotation.about a (ofDegrees d)).toMat4 = turnDegrees a d := by
  have hdegree : (degree : α) = pi / 180 := by
    rw [degree, ofNat_eq]
    norm_cast
  rw [ha.toMat4_about, turnDegrees, ofDegrees, hdegree]

theorem toMat4_ofPitchYawRoll (ha : DoubleAngles α) (degrees : Vec3 α) :
    (Rotation.ofPitchYawRoll degrees).toMat4 =
      turnDegrees .y degrees.y * turnDegrees .x degrees.x * turnDegrees .z degrees.z := by
  have hunit (a : Axis) (d : α) := Rotation.unit_about ha a (ofDegrees d)
  rw [Rotation.ofPitchYawRoll_eq, ((hunit _ _).mul (hunit _ _)).toMat4_mul (hunit _ _),
    (hunit _ _).toMat4_mul (hunit _ _)]
  simp only [toMat4_about_ofDegrees ha]

/-- A frame is turned about its own origin. -/
theorem position_rotate (m : Mat4 α) (q : Rotation α) : (m.rotate q).position = m.position := by
  ext <;> simp [rotate, position, Vec4.direction, Rotation.toMat4]

end Mat4

namespace Operation
variable {α : Type} [ExactScalar α]

/-- A rotation evaluates pitch, yaw and roll, in degrees and in this order, and multiplies the frame of
the shape by the turn about y by the yaw, the turn about x by the pitch and the turn about z by the roll,
in this order from the left. Position, size and kind of the shape stay. -/
theorem rotation_yaws_pitches_rolls (ha : DoubleAngles α) {σ : Type} (env : Env α) (h : Shape α)
    (degrees : Vec3 (Expr α)) {x y z : α} (hx : degrees.x.eval env = .ok x)
    (hy : degrees.y.eval env = .ok y) (hz : degrees.z.eval env = .ok z) :
    ∃ turned, (rotate degrees : Operation α σ).apply env h = .ok (.replaced turned) ∧
      turned.transform = h.transform * .turnDegrees .y y * .turnDegrees .x x * .turnDegrees .z z ∧
      turned.position = h.position ∧ turned.size = h.size ∧ turned.kind = h.kind := by
  have heval : degrees.eval env = .ok ⟨x, y, z⟩ := by
    rw [Vec3.eval, hx, hy, hz]
    rfl
  refine ⟨h.withTransform (h.transform.rotate (.ofPitchYawRoll ⟨x, y, z⟩)), ?_, ?_, ?_, rfl, rfl⟩
  · rw [apply, heval]
    rfl
  · rw [Shape.transform_withTransform, Mat4.rotate, Mat4.toMat4_ofPitchYawRoll ha, ← Mat4.mul_assoc,
      ← Mat4.mul_assoc]
  · exact Mat4.position_rotate _ _

/-- A crate that is rolled by a half turn, then pitched by a quarter and then yawed by a quarter. -/
theorem rotation_yaws_pitches_rolls_crate :
    let env : Env ℝ := ⟨fun _ => some 90, none⟩
    let crate : Shape ℝ := ⟨.box, .displacement ⟨1, 2, 3⟩, ⟨4, 5, 6⟩⟩
    let yaw : Expr ℝ := .binary .sub (.constant 100 .plain) (.constant 10 .plain) .plain
    let degrees : Vec3 (Expr ℝ) := ⟨.attr "tilt" .plain, yaw, .constant 180 .plain⟩
    degrees.x.eval env = .ok 90 ∧ degrees.y.eval env = .ok (100 - 10) ∧ degrees.z.eval env = .ok 180 ∧
    ∃ turned, (rotate degrees : Operation ℝ String).apply env crate = .ok (.replaced turned) ∧
      turned.transform = ⟨⟨0, 0, 1, 0⟩, ⟨-1, 0, 0, 0⟩, ⟨0, -1, 0, 0⟩, ⟨1, 2, 3, 1⟩⟩ ∧
      turned.size = ⟨4, 5, 6⟩ ∧ turned.kind = .box := by
  intro env crate yaw degrees
  obtain ⟨turned, hturned, htransform, -, hsize, hkind⟩ :=
    rotation_yaws_pitches_rolls doubleAngles_real (σ := String) env crate degrees
      (x := 90) (y := 100 - 10) (z := 180) rfl rfl rfl
  refine ⟨rfl, rfl, rfl, turned, hturned, ?_, hsize, hkind⟩
  have hquarter : (90 : ℝ) * (pi / 180) = Real.pi / 2 := by
    show (90 : ℝ) * (Real.pi / 180) = Real.pi / 2
    ring
  have hhalf : (180 : ℝ) * (pi / 180) = Real.pi := by
    show (180 : ℝ) * (Real.pi / 180) = Real.pi
    ring
  have hx : Mat4.turnDegrees .x (90 : ℝ) = .turnX 0 1 := by
    rw [Mat4.turnDegrees, hquarter]
    exact congrArg₂ Mat4.turnX Real.cos_pi_div_two Real.sin_pi_div_two
  have hy : Mat4.turnDegrees .y (100 - 10 : ℝ) = .turnY 0 1 := by
    rw [Mat4.turnDegrees, show (100 - 10 : ℝ) = 90 by norm_num, hquarter]
    exact congrArg₂ Mat4.turnY Real.cos_pi_div_two Real.sin_pi_div_two
  have hz : Mat4.turnDegrees .z (180 : ℝ) = .turnZ (-1) 0 := by
    rw [Mat4.turnDegrees, hhalf]
    exact congrArg₂ Mat4.turnZ Real.cos_pi Real.sin_pi
  rw [htransform, hx, hy, hz]
  ext <;> simp [crate, Shape.transform, Mat4.displacement, Mat4.identity, Mat4.turnX, Mat4.turnY, Mat4.turnZ,
    Vec4.ofVec3]

end Operation
end ShapeGrammar
