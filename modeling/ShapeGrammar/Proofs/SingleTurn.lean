import ShapeGrammar.Proofs.Euler
import ShapeGrammar.Operation

/-! What a turn about a single axis reads back as, over the real numbers. A turn about the x or the z axis
reads back for every angle. The Euler angle about y is never beyond a quarter of the circle, so a turn
about the y axis reads back as far as that and no further. -/
namespace ShapeGrammar
open Scalar

section Definitions
variable {α : Type} [Scalar α]

namespace Rotation

def aboutZ (t : α) : Rotation α := ⟨0, 0, sin (t * half), cos (t * half)⟩

def about : Axis → α → Rotation α
  | .x => aboutX
  | .y => aboutY
  | .z => aboutZ

end Rotation

def Vec3.along (a : Axis) (t : α) : Vec3 α := set ⟨0, 0, 0⟩ a t

theorem Vec3.eq_along_iff {v : Vec3 α} {a : Axis} {t : α} :
    v = along a t ↔ ∀ b, v.get b = if b = a then t else 0 := by
  constructor
  · rintro rfl b
    cases a <;> cases b <;> rfl
  · intro h
    cases a <;> exact Vec3.ext (h .x) (h .y) (h .z)

def Mat4.turn : Axis → α → α → Mat4 α
  | .x => turnX
  | .y => turnY
  | .z => turnZ

end Definitions

section Exact
variable {α : Type} [ExactScalar α]

theorem Rotation.toMat4_aboutZ (t : α) : (aboutZ t).toMat4 =
    .turnZ (1 - 2 * sin (t * half) ^ 2) (2 * sin (t * half) * cos (t * half)) := by
  ext <;> simp [toMat4, aboutZ, Mat4.turnZ] <;> ring

theorem Rotation.toMat4_about (a : Axis) (t : α) : (about a t).toMat4 =
    .turn a (1 - 2 * sin (t * half) ^ 2) (2 * sin (t * half) * cos (t * half)) := by
  cases a with
  | x => exact toMat4_aboutX t
  | y => exact toMat4_aboutY t
  | z => exact toMat4_aboutZ t

theorem Mat4.identity_mul (m : Mat4 α) : identity * m = m := by
  ext <;> simp [identity]

variable (α) in
/-- Sine and cosine lie on the unit circle and follow the laws of doubled angles. -/
structure DoubleAngles : Prop where
  circle (a : α) : sin a ^ 2 + cos a ^ 2 = 1
  sin_two_mul (a : α) : sin (2 * a) = 2 * sin a * cos a
  cos_two_mul (a : α) : cos (2 * a) = cos a ^ 2 - sin a ^ 2

theorem DoubleAngles.toMat4_about (ha : DoubleAngles α) (a : Axis) (t : α) :
    (Rotation.about a t).toMat4 = .turn a (cos t) (sin t) := by
  have hdouble : 2 * (t * half) = t := by rw [mul_half, mul_div_cancel₀ t two_ne_zero]
  have hcos : cos t = 1 - 2 * sin (t * half) ^ 2 := by
    rw [← hdouble, ha.cos_two_mul, hdouble]
    linear_combination ha.circle (t * half)
  have hsin : sin t = 2 * sin (t * half) * cos (t * half) := by rw [← ha.sin_two_mul, hdouble]
  rw [Rotation.toMat4_about, hcos, hsin]

/-- Of pitch, yaw and roll a single one is a turn about a single axis. -/
theorem Rotation.ofPitchYawRoll_along (hcos : cos (0 : α) = 1) (hsin : sin (0 : α) = 0) (a : Axis) (d : α) :
    ofPitchYawRoll (.along a d) = about a (ofDegrees d) := by
  cases a <;>
    simp [ofPitchYawRoll, about, aboutX, aboutY, aboutZ, Vec3.along, Vec3.set, ofDegrees, hcos, hsin]

end Exact

theorem doubleAngles_real : DoubleAngles ℝ where
  circle := Real.sin_sq_add_cos_sq
  sin_two_mul := Real.sin_two_mul
  cos_two_mul := Real.cos_two_mul'

namespace Scalar

theorem atan2_sin_cos {t : ℝ} (ht : t ∈ Set.Ioc (-Real.pi) Real.pi) :
    atan2 (Real.sin t) (Real.cos t) = t := by
  have hpoint : (⟨Real.cos t, Real.sin t⟩ : ℂ) = Complex.cos t + Complex.sin t * Complex.I := by
    rw [Complex.mk_eq_add_mul_I, Complex.ofReal_cos, Complex.ofReal_sin]
  exact (congrArg Complex.arg hpoint).trans (Complex.arg_cos_add_sin_mul_I ht)

theorem atan2_zero_of_nonneg {x : ℝ} (hx : 0 ≤ x) : atan2 0 x = 0 := Complex.arg_ofReal_of_nonneg hx

theorem atan2_zero_of_neg {x : ℝ} (hx : x < 0) : atan2 0 x = Real.pi := Complex.arg_ofReal_of_neg hx

theorem abs_atan2_le {x : ℝ} (y : ℝ) (hx : 0 ≤ x) : |atan2 y x| ≤ Real.pi / 2 :=
  Complex.abs_arg_le_pi_div_two_iff.mpr hx

end Scalar

namespace Mat4

theorem rotate_about (a : Axis) (t : ℝ) :
    identity.rotate (.about a t) = .turn a (Real.cos t) (Real.sin t) := by
  rw [rotate, identity_mul, doubleAngles_real.toMat4_about]
  rfl

theorem flat_eq_one {m : Mat4 ℝ} (h : m.x.x * m.x.x + m.x.y * m.x.y = 1) : m.flat = 1 :=
  (congrArg Real.sqrt h).trans Real.sqrt_one

theorem flat_turnY (c s : ℝ) : (turnY c s).flat = |c| := by
  show Real.sqrt (c * c + 0 * 0) = |c|
  rw [mul_zero, add_zero, Real.sqrt_mul_self_eq_abs]

theorem abs_eulerAngles_y_le (m : Mat4 ℝ) : |m.eulerAngles.y| ≤ Real.pi / 2 := by
  rw [eulerAngles_y]
  exact abs_atan2_le _ (Real.sqrt_nonneg _)

section Angles
variable {t : ℝ} (ht : t ∈ Set.Ioc (-Real.pi) Real.pi)
include ht

theorem eulerAngles_turnX : (turnX (Real.cos t) (Real.sin t)).eulerAngles = .along .x t := by
  have hflat : (turnX (Real.cos t) (Real.sin t)).flat = 1 :=
    flat_eq_one (show (1 : ℝ) * 1 + 0 * 0 = 1 by ring)
  rw [eulerAngles_of_le (hflat ▸ gimbalEpsilon_le_one), hflat]
  show (⟨atan2 (Real.sin t) (Real.cos t), atan2 (-0) 1, atan2 0 1⟩ : Vec3 ℝ) = ⟨t, 0, 0⟩
  rw [neg_zero, atan2_sin_cos ht, atan2_zero_of_nonneg zero_le_one]

theorem eulerAngles_turnZ : (turnZ (Real.cos t) (Real.sin t)).eulerAngles = .along .z t := by
  have hflat : (turnZ (Real.cos t) (Real.sin t)).flat = 1 :=
    flat_eq_one (show Real.cos t * Real.cos t + Real.sin t * Real.sin t = 1 by
      rw [← sq, ← sq, Real.cos_sq_add_sin_sq])
  rw [eulerAngles_of_le (hflat ▸ gimbalEpsilon_le_one), hflat]
  show (⟨atan2 0 1, atan2 (-0) 1, atan2 (Real.sin t) (Real.cos t)⟩ : Vec3 ℝ) = ⟨0, 0, t⟩
  rw [neg_zero, atan2_sin_cos ht, atan2_zero_of_nonneg zero_le_one]

end Angles

theorem eulerAngles_turnY {t : ℝ} (ht : |t| ≤ Real.pi / 2) :
    (turnY (Real.cos t) (Real.sin t)).eulerAngles = .along .y t := by
  have hpi := Real.pi_pos
  obtain ⟨hlow, hhigh⟩ := abs_le.mp ht
  have hcos : 0 ≤ Real.cos t := Real.cos_nonneg_of_mem_Icc ⟨hlow, hhigh⟩
  have hflat : (turnY (Real.cos t) (Real.sin t)).flat = Real.cos t := by rw [flat_turnY, abs_of_nonneg hcos]
  have hy : atan2 (Real.sin t) (Real.cos t) = t := atan2_sin_cos ⟨by linarith, by linarith⟩
  by_cases hle : gimbalEpsilon ≤ Real.cos t
  · rw [eulerAngles_of_le (by rwa [hflat]), hflat]
    show (⟨atan2 0 (Real.cos t), atan2 (- -Real.sin t) (Real.cos t), atan2 0 (Real.cos t)⟩ : Vec3 ℝ) = ⟨0, t, 0⟩
    rw [neg_neg, hy, atan2_zero_of_nonneg hcos]
  · rw [eulerAngles_of_not_le (by rwa [hflat]), hflat]
    show (⟨atan2 (-0) 1, atan2 (- -Real.sin t) (Real.cos t), 0⟩ : Vec3 ℝ) = ⟨0, t, 0⟩
    rw [neg_neg, neg_zero, hy, atan2_zero_of_nonneg zero_le_one]

/-- Beyond a quarter of the circle it is read as a turn that falls short of half of the circle by as much,
between two turns by half of the circle. -/
theorem eulerAngles_turnY_beyond {t : ℝ} (hquarter : Real.pi / 2 < t) (hhalf : t ≤ Real.pi)
    (h : gimbalEpsilon ≤ |Real.cos t|) :
    (turnY (Real.cos t) (Real.sin t)).eulerAngles = ⟨Real.pi, Real.pi - t, Real.pi⟩ := by
  have hpi := Real.pi_pos
  have hcos : Real.cos t < 0 := Real.cos_neg_of_pi_div_two_lt_of_lt hquarter (by linarith)
  have hflat : (turnY (Real.cos t) (Real.sin t)).flat = Real.cos (Real.pi - t) := by
    rw [flat_turnY, abs_of_neg hcos, Real.cos_pi_sub]
  have hy : atan2 (Real.sin t) (Real.cos (Real.pi - t)) = Real.pi - t := by
    rw [← Real.sin_pi_sub]
    exact atan2_sin_cos ⟨by linarith, by linarith⟩
  rw [eulerAngles_of_le (flat_turnY _ (Real.sin t) ▸ h), hflat]
  show (⟨atan2 0 (Real.cos t), atan2 (- -Real.sin t) (Real.cos (Real.pi - t)), atan2 0 (Real.cos t)⟩ : Vec3 ℝ) =
    ⟨Real.pi, Real.pi - t, Real.pi⟩
  rw [neg_neg, hy, atan2_zero_of_neg hcos]

/-- The turns about one axis that read back: all about x and z, up to a quarter of the circle about y. -/
theorem eulerAngles_turn_iff {t : ℝ} (ht : t ∈ Set.Ioc (-Real.pi) Real.pi) (a : Axis) :
    (turn a (Real.cos t) (Real.sin t)).eulerAngles = .along a t ↔ (a = .y → |t| ≤ Real.pi / 2) := by
  cases a with
  | x => exact ⟨fun _ h => (nomatch h), fun _ => eulerAngles_turnX ht⟩
  | y =>
    refine ⟨fun h _ => ?_, fun h => eulerAngles_turnY (h rfl)⟩
    have hy : (turnY (Real.cos t) (Real.sin t)).eulerAngles.y = t := congrArg Vec3.y h
    rw [← hy]
    exact abs_eulerAngles_y_le _
  | z => exact ⟨fun _ h => (nomatch h), fun _ => eulerAngles_turnZ ht⟩

/-- The identity turned about a single axis has the angle of the turn, and none about the other axes, as
its Euler angles just if the turn is not about the y axis or goes up to a quarter of the circle. So has
a shape that is turned by an operation with a single angle other than zero, in degrees. -/
theorem single_turn_reads_back {t : ℝ} (ht : t ∈ Set.Ioc (-Real.pi) Real.pi) (a : Axis) :
    ((identity.rotate (.about a t)).eulerAngles = .along a t ↔ (a = .y → |t| ≤ Real.pi / 2)) ∧
    ∀ (σ : Type) (env : Env ℝ) (h : Shape ℝ) (degrees : Vec3 (Expr ℝ)) (d : ℝ), h.transform = .identity →
      degrees.eval env = .ok (.along a d) → ofDegrees d = t →
      ∃ turned, (Operation.rotate degrees : Operation ℝ σ).apply env h = .ok (.replaced turned) ∧
        ((∀ b, turned.read (.rotation b) = if b = a then t else 0) ↔ (a = .y → |t| ≤ Real.pi / 2)) := by
  have hturn := eulerAngles_turn_iff ht a
  rw [← rotate_about] at hturn
  refine ⟨hturn, ?_⟩
  rintro σ env h degrees d hh hd rfl
  refine ⟨h.withTransform (h.transform.rotate (.ofPitchYawRoll (.along a d))), ?_, ?_⟩
  · rw [Operation.apply, hd]
    rfl
  · rw [← hturn, Vec3.eq_along_iff, hh, Rotation.ofPitchYawRoll_along Real.cos_zero Real.sin_zero]
    rfl

/-- A box turned by sixty degrees about its y axis. -/
theorem single_turn_reads_back_sixth :
    Real.pi / 3 ∈ Set.Ioc (-Real.pi) Real.pi ∧ |Real.pi / 3| ≤ Real.pi / 2 ∧
    (identity.rotate (.about .y (Real.pi / 3))).eulerAngles = .along .y (Real.pi / 3) ∧
    ∃ turned, (Operation.rotate ⟨.constant 0 .plain, .constant 60 .plain, .constant 0 .plain⟩ :
        Operation ℝ String).apply ⟨fun _ => none, none⟩ .unitBox = .ok (.replaced turned) ∧
      ∀ b, turned.read (.rotation b) = if b = .y then Real.pi / 3 else 0 := by
  have hpi := Real.pi_pos
  have ht : Real.pi / 3 ∈ Set.Ioc (-Real.pi) Real.pi := ⟨by linarith, by linarith⟩
  have hquarter : |Real.pi / 3| ≤ Real.pi / 2 := by rw [abs_of_pos (by linarith)]; linarith
  have hdegrees : ofDegrees (60 : ℝ) = Real.pi / 3 := by
    show 60 * (Real.pi / ((180 : ℕ) : ℝ)) = Real.pi / 3
    push_cast
    ring
  obtain ⟨hread, hrotate⟩ := single_turn_reads_back ht .y
  obtain ⟨turned, hturned, hangles⟩ := hrotate String ⟨fun _ => none, none⟩ .unitBox
    ⟨.constant 0 .plain, .constant 60 .plain, .constant 0 .plain⟩ 60 rfl rfl hdegrees
  exact ⟨ht, hquarter, hread.mpr fun _ => hquarter, turned, hturned, hangles.mpr fun _ => hquarter⟩

/-- A turn by a third of the circle about the y axis reads back as one by a sixth, between two by a half. -/
theorem turn_about_y_reads_short :
    2 * Real.pi / 3 ∈ Set.Ioc (-Real.pi) Real.pi ∧
    (identity.rotate (.about .y (2 * Real.pi / 3))).eulerAngles = ⟨Real.pi, Real.pi / 3, Real.pi⟩ ∧
    ¬ ∀ (a : Axis) (t : ℝ), t ∈ Set.Ioc (-Real.pi) Real.pi →
      (identity.rotate (.about a t)).eulerAngles = .along a t := by
  have hpi := Real.pi_pos
  have ht : 2 * Real.pi / 3 ∈ Set.Ioc (-Real.pi) Real.pi := ⟨by linarith, by linarith⟩
  have hcos : |Real.cos (2 * Real.pi / 3)| = 1 / 2 := by
    rw [show 2 * Real.pi / 3 = Real.pi - Real.pi / 3 by ring, Real.cos_pi_sub, Real.cos_pi_div_three, abs_neg,
      abs_of_pos one_half_pos]
  have hflat : gimbalEpsilon ≤ |Real.cos (2 * Real.pi / 3)| := by
    rw [hcos, gimbalEpsilon_eq]
    norm_num
  have hangles : (identity.rotate (.about .y (2 * Real.pi / 3))).eulerAngles =
      ⟨Real.pi, Real.pi / 3, Real.pi⟩ := by
    rw [rotate_about, turn, eulerAngles_turnY_beyond (by linarith) (by linarith) hflat,
      show Real.pi - 2 * Real.pi / 3 = Real.pi / 3 by ring]
  refine ⟨ht, hangles, fun hall => ?_⟩
  have hx : Real.pi = 0 := congrArg Vec3.x (hangles.symm.trans (hall .y _ ht))
  exact hpi.ne' hx

end Mat4
end ShapeGrammar
