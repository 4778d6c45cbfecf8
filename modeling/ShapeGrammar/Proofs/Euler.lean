import ShapeGrammar.Proofs.Turns

/-! Euler angles. Where roots and angles are exact, a rigid frame is turned about x, y and z by its Euler
angles, in this order: the product of the three turns has the axes of the frame. This holds for frames
that are not gimbal locked and for those with an upright x axis, of which the turn about z is zero. -/
namespace ShapeGrammar
open Scalar

namespace Vec3
variable {α : Type} [Scalar α]

def cross (u v : Vec3 α) : Vec3 α :=
  ⟨u.y * v.z - u.z * v.y, u.z * v.x - u.x * v.z, u.x * v.y - u.y * v.x⟩

end Vec3

namespace Mat4
variable {α : Type} [Scalar α]

def turnZ (c s : α) : Mat4 α := ⟨⟨c, s, 0, 0⟩, ⟨-s, c, 0, 0⟩, ⟨0, 0, 1, 0⟩, ⟨0, 0, 0, 1⟩⟩

/-- The right-handed frame in the origin with these x and y axes. -/
def ofAxes (u v : Vec3 α) : Mat4 α := ⟨.ofVec3 u 0, .ofVec3 v 0, .ofVec3 (u.cross v) 0, .ofVec3 ⟨0, 0, 0⟩ 1⟩

/-- The length of the x axis in the xy plane. -/
def flat (m : Mat4 α) : α := sqrt (m.x.x * m.x.x + m.x.y * m.x.y)

theorem eulerAngles_of_le {m : Mat4 α} (h : gimbalEpsilon ≤ m.flat) :
    m.eulerAngles = ⟨atan2 m.y.z m.z.z, atan2 (-m.x.z) m.flat, atan2 m.x.y m.x.x⟩ := if_pos h

theorem eulerAngles_of_not_le {m : Mat4 α} (h : ¬ gimbalEpsilon ≤ m.flat) :
    m.eulerAngles = ⟨atan2 (-m.z.y) m.y.y, atan2 (-m.x.z) m.flat, 0⟩ := if_neg h

theorem eulerAngles_y (m : Mat4 α) : m.eulerAngles.y = atan2 (-m.x.z) m.flat := by
  by_cases h : gimbalEpsilon ≤ m.flat
  · rw [eulerAngles_of_le h]
  · rw [eulerAngles_of_not_le h]

end Mat4

section Exact
variable {α : Type} [ExactScalar α]

structure ExactRoot (x : α) : Prop where
  nonneg : 0 ≤ sqrt x
  mul_self : sqrt x * sqrt x = x

theorem ExactRoot.sqrt_mul_self {r : α} (h : ExactRoot (r * r)) (hr : 0 ≤ r) : sqrt (r * r) = r :=
  (mul_self_inj h.nonneg hr).mp h.mul_self

variable (α) in
/-- The zero angle is exact, and so is the angle of any point whose distance from the origin is: cosine and
sine of the angle are the coordinates of the point over this distance. -/
structure ExactAngles : Prop where
  cos_zero : cos (0 : α) = 1
  sin_zero : sin (0 : α) = 0
  cos_atan2 {y x : α} : y ^ 2 + x ^ 2 ≠ 0 → ExactRoot (y ^ 2 + x ^ 2) →
    cos (atan2 y x) = x / sqrt (y ^ 2 + x ^ 2)
  sin_atan2 {y x : α} : y ^ 2 + x ^ 2 ≠ 0 → ExactRoot (y ^ 2 + x ^ 2) →
    sin (atan2 y x) = y / sqrt (y ^ 2 + x ^ 2)

theorem ExactAngles.of_radius (ha : ExactAngles α) {r y x : α} (hr : 0 < r) (hroot : ExactRoot (r * r))
    (h : y ^ 2 + x ^ 2 = r * r) : cos (atan2 y x) = x / r ∧ sin (atan2 y x) = y / r := by
  have hne : y ^ 2 + x ^ 2 ≠ 0 := h ▸ (mul_pos hr hr).ne'
  have hexact : ExactRoot (y ^ 2 + x ^ 2) := h ▸ hroot
  rw [ha.cos_atan2 hne hexact, ha.sin_atan2 hne hexact, h, hroot.sqrt_mul_self hr.le]
  exact ⟨rfl, rfl⟩

theorem exactRoot_real {x : ℝ} (hx : 0 ≤ x) : ExactRoot x :=
  ⟨Real.sqrt_nonneg x, Real.mul_self_sqrt hx⟩

theorem exactAngles_real : ExactAngles ℝ where
  cos_zero := Real.cos_zero
  sin_zero := Real.sin_zero
  cos_atan2 {y x} hne _ := by
    have hpoint : (⟨x, y⟩ : ℂ) ≠ 0 := by
      intro h
      have hx : x = 0 := congrArg Complex.re h
      have hy : y = 0 := congrArg Complex.im h
      exact hne (by rw [hx, hy]; ring)
    have hcos := Complex.cos_arg hpoint
    rwa [Complex.norm_eq_sqrt_sq_add_sq, add_comm] at hcos
  sin_atan2 {y x} _ _ := by
    have hsin := Complex.sin_arg ⟨x, y⟩
    rwa [Complex.norm_eq_sqrt_sq_add_sq, add_comm] at hsin

namespace Vec3

theorem eq_of_dot_eq_one {u v : Vec3 α} (hu : u.dot u = 1) (hv : v.dot v = 1) (h : u.dot v = 1) : u = v := by
  simp only [dot] at hu hv h
  have hsum : (u.x - v.x) ^ 2 + (u.y - v.y) ^ 2 + (u.z - v.z) ^ 2 = 0 := by
    linear_combination hu + hv - 2 * h
  have hx := sq_nonneg (u.x - v.x)
  have hy := sq_nonneg (u.y - v.y)
  have hz := sq_nonneg (u.z - v.z)
  ext
  · exact sub_eq_zero.mp (pow_eq_zero_iff two_ne_zero |>.mp (by linarith))
  · exact sub_eq_zero.mp (pow_eq_zero_iff two_ne_zero |>.mp (by linarith))
  · exact sub_eq_zero.mp (pow_eq_zero_iff two_ne_zero |>.mp (by linarith))

theorem dot_cross_self {u v : Vec3 α} (hu : u.dot u = 1) (hv : v.dot v = 1) (huv : u.dot v = 0) :
    (u.cross v).dot (u.cross v) = 1 := by
  simp only [dot, cross] at hu hv huv ⊢
  linear_combination (v.x * v.x + v.y * v.y + v.z * v.z) * hu + hv -
    (u.x * v.x + u.y * v.y + u.z * v.z) * huv

theorem cross_eq {u v w : Vec3 α} (hu : u.dot u = 1) (hv : v.dot v = 1) (hw : w.dot w = 1)
    (huv : u.dot v = 0) (hdet : u.det v w = 1) : u.cross v = w := by
  refine eq_of_dot_eq_one (dot_cross_self hu hv huv) hw ?_
  simp only [dot, cross, det] at hdet ⊢
  linear_combination hdet

end Vec3

namespace Mat4

variable {m : Mat4 α}

namespace Rigid
variable (hm : m.Rigid)
include hm

theorem dot_self (a : Axis) : (m.axis a).dot (m.axis a) = 1 := (hm.dot a a).trans (if_pos rfl)

theorem dot_of_ne {a b : Axis} (h : a ≠ b) : (m.axis a).dot (m.axis b) = 0 := (hm.dot a b).trans (if_neg h)

theorem cross_x_y : (m.axis .x).cross (m.axis .y) = m.axis .z :=
  Vec3.cross_eq (hm.dot_self _) (hm.dot_self _) (hm.dot_self _) (hm.dot_of_ne (by decide)) hm.det

theorem cross_z_x : (m.axis .z).cross (m.axis .x) = m.axis .y := by
  have hdet : (m.axis .z).det (m.axis .x) (m.axis .y) = 1 := by
    rw [← hm.det]
    simp only [Vec3.det]
    ring
  exact Vec3.cross_eq (hm.dot_self _) (hm.dot_self _) (hm.dot_self _) (hm.dot_of_ne (by decide)) hdet

/-- The rows of a rigid frame are as long as its axes. -/
theorem sq_add_sq_z : m.y.z ^ 2 + m.z.z ^ 2 = m.x.x * m.x.x + m.x.y * m.x.y := by
  have hxx := hm.dot_self .x
  have hyy := hm.dot_self .y
  have hxy := hm.dot_of_ne (show Axis.x ≠ .y by decide)
  have hz : m.x.x * m.y.y - m.x.y * m.y.x = m.z.z := congrArg Vec3.z hm.cross_x_y
  simp only [Vec3.dot, axis, Vec4.direction] at hxx hyy hxy
  rw [← hz]
  linear_combination (m.x.x * m.x.x + m.x.y * m.x.y) * hyy - m.y.z ^ 2 * hxx -
    (m.x.x * m.y.x + m.x.y * m.y.y - m.x.z * m.y.z) * hxy

end Rigid

theorem turnZ_mul_turnY_mul_turnX (cz sz cy sy cx sx : α) :
    turnZ cz sz * turnY cy sy * turnX cx sx =
      ⟨⟨cz * cy, sz * cy, -sy, 0⟩, ⟨cz * sy * sx - sz * cx, sz * sy * sx + cz * cx, cy * sx, 0⟩,
        ⟨cz * sy * cx + sz * sx, sz * sy * cx - cz * sx, cy * cx, 0⟩, ⟨0, 0, 0, 1⟩⟩ := by
  ext <;> simp [turnZ, turnY, turnX] <;> ring

section Rebuild
variable (ha : ExactAngles α) (hm : m.Rigid) (hone : ExactRoot (1 : α))
include ha hm hone

/-- The turn about y lifts the x axis out of the xy plane. -/
theorem lift_eq (hflat : ExactRoot (m.x.x * m.x.x + m.x.y * m.x.y)) :
    cos (atan2 (-m.x.z) m.flat) = m.flat ∧ sin (atan2 (-m.x.z) m.flat) = -m.x.z := by
  have hxx := hm.dot_self .x
  simp only [Vec3.dot, axis, Vec4.direction] at hxx
  have hradius : (-m.x.z) ^ 2 + m.flat ^ 2 = 1 * 1 := by
    rw [flat]
    linear_combination hflat.mul_self + hxx
  obtain ⟨hcos, hsin⟩ := ha.of_radius one_pos (by rwa [mul_one]) hradius
  rw [hcos, hsin, div_one, div_one]
  exact ⟨rfl, rfl⟩

/-- With an x axis that leaves the z axis, the two other turns are read off the first column and the last
row. -/
theorem rebuild_of_pos (hflat : ExactRoot (m.x.x * m.x.x + m.x.y * m.x.y)) (h : 0 < m.flat) :
    let x := atan2 m.y.z m.z.z
    let y := atan2 (-m.x.z) m.flat
    let z := atan2 m.x.y m.x.x
    turnZ (cos z) (sin z) * turnY (cos y) (sin y) * turnX (cos x) (sin x) = m.withPosition ⟨0, 0, 0⟩ := by
  intro x y z
  have hsq : m.flat * m.flat = m.x.x * m.x.x + m.x.y * m.x.y := hflat.mul_self
  have hroot : ExactRoot (m.flat * m.flat) := hsq ▸ hflat
  obtain ⟨hcx, hsx⟩ := ha.of_radius h hroot (hm.sq_add_sq_z.trans hsq.symm)
  obtain ⟨hcy, hsy⟩ := lift_eq ha hm hone hflat
  obtain ⟨hcz, hsz⟩ := ha.of_radius h hroot (show m.x.y ^ 2 + m.x.x ^ 2 = _ by rw [hsq]; ring)
  have hxy := hm.dot_of_ne (show Axis.x ≠ .y by decide)
  have hxz := hm.dot_of_ne (show Axis.x ≠ .z by decide)
  have hz : m.x.x * m.y.y - m.x.y * m.y.x = m.z.z := congrArg Vec3.z hm.cross_x_y
  have hy : m.z.x * m.x.y - m.z.y * m.x.x = m.y.z := congrArg Vec3.z hm.cross_z_x
  simp only [Vec3.dot, axis, Vec4.direction] at hxy hxz
  rw [turnZ_mul_turnY_mul_turnX, hcx, hsx, hcy, hsy, hcz, hsz]
  ext
  · exact div_mul_cancel₀ _ h.ne'
  · exact div_mul_cancel₀ _ h.ne'
  · exact neg_neg _
  · exact hm.x.symm
  · show m.x.x / m.flat * -m.x.z * (m.y.z / m.flat) - m.x.y / m.flat * (m.z.z / m.flat) = m.y.x
    field_simp
    linear_combination -m.x.x * hxy + m.x.y * hz - m.y.x * hsq
  · show m.x.y / m.flat * -m.x.z * (m.y.z / m.flat) + m.x.x / m.flat * (m.z.z / m.flat) = m.y.y
    field_simp
    linear_combination -m.x.y * hxy - m.x.x * hz - m.y.y * hsq
  · exact mul_div_cancel₀ _ h.ne'
  · exact hm.y.symm
  · show m.x.x / m.flat * -m.x.z * (m.z.z / m.flat) + m.x.y / m.flat * (m.y.z / m.flat) = m.z.x
    field_simp
    linear_combination -m.x.x * hxz - m.x.y * hy - m.z.x * hsq
  · show m.x.y / m.flat * -m.x.z * (m.z.z / m.flat) - m.x.x / m.flat * (m.y.z / m.flat) = m.z.y
    field_simp
    linear_combination -m.x.y * hxz + m.x.x * hy - m.z.y * hsq
  · exact mul_div_cancel₀ _ h.ne'
  · exact hm.z.symm
  all_goals rfl

/-- With an upright x axis the turns about x and z are about the same line, and the one about x is all of
it. -/
theorem rebuild_of_eq_zero (hflat : ExactRoot (m.x.x * m.x.x + m.x.y * m.x.y)) (h : m.flat = 0) :
    let x := atan2 (-m.z.y) m.y.y
    let y := atan2 (-m.x.z) m.flat
    turnZ (cos 0) (sin 0) * turnY (cos y) (sin y) * turnX (cos x) (sin x) = m.withPosition ⟨0, 0, 0⟩ := by
  intro x y
  have hsum : m.x.x * m.x.x + m.x.y * m.x.y = 0 := by
    rw [← hflat.mul_self]
    exact mul_eq_zero_of_left h _
  obtain ⟨hxx, hxy⟩ := mul_self_add_mul_self_eq_zero.mp hsum
  have hyz : m.z.x * m.x.y - m.z.y * m.x.x = m.y.z := congrArg Vec3.z hm.cross_z_x
  have hzz : m.x.x * m.y.y - m.x.y * m.y.x = m.z.z := congrArg Vec3.z hm.cross_x_y
  have hyx : m.z.y * m.x.z - m.z.z * m.x.y = m.y.x := congrArg Vec3.x hm.cross_z_x
  rw [mul_comm] at hyx
  have hzx : m.x.y * m.y.z - m.x.z * m.y.y = m.z.x := congrArg Vec3.x hm.cross_x_y
  have hzy : m.x.z * m.y.x - m.x.x * m.y.z = m.z.y := congrArg Vec3.y hm.cross_x_y
  have hx := hm.dot_self .x
  have hy := hm.dot_self .y
  simp only [Vec3.dot, axis, Vec4.direction] at hx hy
  simp only [hxx, hxy, mul_zero, zero_mul, sub_zero, zero_sub, zero_add] at hyz hzz hyx hzx hzy hx hy
  have hradius : (-m.z.y) ^ 2 + m.y.y ^ 2 = 1 * 1 := by
    rw [← hyz] at hy
    rw [← hzy]
    linear_combination hy + m.y.x ^ 2 * hx
  obtain ⟨hcx, hsx⟩ := ha.of_radius one_pos (by rwa [mul_one]) hradius
  obtain ⟨hcy, hsy⟩ := lift_eq ha hm hone hflat
  rw [turnZ_mul_turnY_mul_turnX, hcx, hsx, hcy, hsy, ha.cos_zero, ha.sin_zero, h]
  ext <;> simp [withPosition, Vec4.ofVec3, hxx, hxy, ← hyz, ← hzz, hyx, hzx, hm.x, hm.y, hm.z]

end Rebuild

theorem gimbalEpsilon_eq : (gimbalEpsilon : α) = 1 / 1000000 := by
  rw [gimbalEpsilon, ofNat_eq]
  norm_num

theorem gimbalEpsilon_pos : 0 < (gimbalEpsilon : α) := by
  rw [gimbalEpsilon_eq]
  positivity

theorem gimbalEpsilon_le_one : (gimbalEpsilon : α) ≤ 1 := by
  rw [gimbalEpsilon_eq]
  norm_num

/-- Turned about the x axis, then about the y axis and then about the z axis by its Euler angles, the
identity has the axes of a rigid frame whose x axis is upright or leaves the upright by enough to tell.
A frame in the origin is all of it restored. -/
theorem turns_rebuild_frame (ha : ExactAngles α) (hm : m.Rigid) (hone : ExactRoot (1 : α))
    (hflat : ExactRoot (m.x.x * m.x.x + m.x.y * m.x.y)) (h : gimbalEpsilon ≤ m.flat ∨ m.flat = 0) :
    let angles := m.eulerAngles
    turnZ (cos angles.z) (sin angles.z) * turnY (cos angles.y) (sin angles.y) *
      turnX (cos angles.x) (sin angles.x) = m.withPosition ⟨0, 0, 0⟩ := by
  obtain hle | hzero := h
  · rw [eulerAngles_of_le hle]
    exact rebuild_of_pos ha hm hone hflat (gimbalEpsilon_pos.trans_le hle)
  · have hlocked : ¬ gimbalEpsilon ≤ m.flat := by
      rw [hzero]
      exact gimbalEpsilon_pos.not_ge
    rw [eulerAngles_of_not_le hlocked]
    exact rebuild_of_eq_zero ha hm hone hflat hzero

theorem rigid_ofAxes {u v : Vec3 α} (hu : u.dot u = 1) (hv : v.dot v = 1) (huv : u.dot v = 0) :
    (ofAxes u v).Rigid where
  toAffine := ⟨rfl, rfl, rfl, rfl⟩
  dot a b := by
    have hw := Vec3.dot_cross_self hu hv huv
    simp only [Vec3.dot, Vec3.cross] at hu hv huv hw
    cases a <;> cases b <;>
      simp only [ofAxes, axis, Vec4.direction_ofVec3, Vec3.dot, Vec3.cross, reduceCtorEq, if_true, if_false]
    all_goals grind
  det := by
    have hw := Vec3.dot_cross_self hu hv huv
    simp only [ofAxes, axis, Vec4.direction_ofVec3, Vec3.det, Vec3.dot, Vec3.cross] at hw ⊢
    linear_combination hw

/-- A frame with no axis along a plane of the space around it, and one with an upright x axis. -/
theorem turns_rebuild_tilted :
    let tilted : Mat4 ℝ := ofAxes ⟨2 / 3, 2 / 3, -(1 / 3)⟩ ⟨-(1 / 3), 2 / 3, 2 / 3⟩
    let upright : Mat4 ℝ := ofAxes ⟨0, 0, 1⟩ ⟨3 / 5, 4 / 5, 0⟩
    tilted.Rigid ∧ gimbalEpsilon ≤ tilted.flat ∧ upright.Rigid ∧ upright.flat = 0 ∧
    ∀ m ∈ [tilted, upright], turnZ (cos m.eulerAngles.z) (sin m.eulerAngles.z) *
      turnY (cos m.eulerAngles.y) (sin m.eulerAngles.y) *
      turnX (cos m.eulerAngles.x) (sin m.eulerAngles.x) = m := by
  intro tilted upright
  have hrigid : tilted.Rigid :=
    rigid_ofAxes (by norm_num [Vec3.dot]) (by norm_num [Vec3.dot]) (by norm_num [Vec3.dot])
  have hrigid' : upright.Rigid :=
    rigid_ofAxes (by norm_num [Vec3.dot]) (by norm_num [Vec3.dot]) (by norm_num [Vec3.dot])
  have hone : ExactRoot (1 : ℝ) := exactRoot_real zero_le_one
  have htilted : gimbalEpsilon ≤ tilted.flat := by
    rw [gimbalEpsilon_eq]
    show 1 / 1000000 ≤ Real.sqrt (2 / 3 * (2 / 3) + 2 / 3 * (2 / 3))
    exact Real.le_sqrt_of_sq_le (by norm_num)
  have hupright : upright.flat = 0 := by
    show Real.sqrt (0 * 0 + 0 * 0) = 0
    norm_num
  have hroot (m : Mat4 ℝ) : ExactRoot (m.x.x * m.x.x + m.x.y * m.x.y) :=
    exactRoot_real (add_nonneg (mul_self_nonneg _) (mul_self_nonneg _))
  have hfirst := turns_rebuild_frame exactAngles_real hrigid hone (hroot _) (.inl htilted)
  have hsecond := turns_rebuild_frame exactAngles_real hrigid' hone (hroot _) (.inr hupright)
  exact ⟨hrigid, htilted, hrigid', hupright,
    List.forall_mem_cons.mpr ⟨hfirst, List.forall_mem_singleton.mpr hsecond⟩⟩

end Mat4
end Exact
end ShapeGrammar
