import ShapeGrammar.Proofs.Corners

/-! Selectors and the directions of faces. The normal of a face is an axis of the box or its opposite, so
a selector that names one face takes a face just if the cosine between the two, times the lengths of
both axes, comes up to the threshold. Where the axes are orthonormal each selector takes the faces that
it names, and no others. -/
namespace ShapeGrammar
open Scalar

def FaceSelector.faces : FaceSelector → List Face
  | front => [.posZ]
  | back => [.negZ]
  | left => [.negX]
  | right => [.posX]
  | top => [.posY]
  | bottom => [.negY]
  | vertical | side => [.posZ, .negZ, .posX, .negX]
  | horizontal => [.negY, .posY]
  | all => Face.values

variable {α : Type} [ExactScalar α] {box : Shape α} {f : Face}

theorem Vec3.dot_scale (u v : Vec3 α) (c : α) : u.dot (v.scale c) = u.dot v * c := by
  simp only [dot, scale]
  ring

theorem Face.dot_outward {m : Mat4 α} (hm : m.Rigid) (a : Axis) (f : Face) :
    (m.axis a).dot (f.outward m) = if a = f.axis then f.sign else 0 := by
  rw [outward, Vec3.dot_scale, hm.dot]
  split <;> simp

namespace FaceSelector

theorem tolerance_eq : (tolerance : α) = 1 / 10000 := by
  rw [tolerance, ofNat_eq]
  norm_num

theorem parallel_eq : (parallel : α) = 1 - 1 / 10000 := by rw [parallel, tolerance_eq]

/-- A selector that names one face goes by the axis of this face, in the direction of the face. -/
theorem accepts_of_faces (cosine : Axis → α) {s : FaceSelector} {g : Face} (h : s.faces = [g]) :
    s.accepts cosine = decide (1 - 1 / 10000 ≤ g.sign * cosine g.axis) := by
  have hup (c : α) : 1 - 1 / 10000 ≤ 1 * c ↔ parallel ≤ c := by rw [one_mul, parallel_eq]
  have hdown (c : α) : 1 - 1 / 10000 ≤ -1 * c ↔ c ≤ -parallel := by rw [neg_one_mul, le_neg, parallel_eq]
  cases s <;> simp only [faces, Face.values, List.cons.injEq, reduceCtorEq, and_false, and_true] at h
  all_goals
    subst h
    simp only [accepts, Face.sign, Face.axis, hup, hdown]

/-- Orthonormal axes leave no doubt: a cosine of one or of minus one is beyond every threshold, a
cosine of zero before it. -/
theorem accepts_rigid (f : Face) (s : FaceSelector) :
    s.accepts (fun a => if a = f.axis then (f.sign : α) else 0) = decide (f ∈ s.faces) := by
  have hone : (parallel : α) ≤ 1 := by norm_num [parallel_eq]
  have hzero : (0 : α) < parallel := by norm_num [parallel_eq]
  have hneg : (-1 : α) < parallel := by norm_num [parallel_eq]
  have htol : (0 : α) ≤ tolerance := by norm_num [tolerance_eq]
  have htol' : (tolerance : α) < 1 := by norm_num [tolerance_eq]
  cases s <;> cases f <;>
    simp [accepts, faces, Face.values, Face.axis, Face.sign, Scalar.abs_eq, le_neg, not_le.mpr,
      hone, hzero, hneg, htol, htol']

theorem selects_quad (hf : (f.turn : Rotation α).toMat4 = f.frame) (hk : box.kind = .box)
    (hm : box.transform.Affine) (s : FaceSelector) :
    s.selects box (f.quad box.scope) =
      .ok (s.accepts fun a => (box.transform.axis a).dot (f.outward box.transform)) := by
  rw [← Face.normal_quad hf hm]
  simp only [selects, hk, Face.quad]

/-- A selector that names one face of a box takes a face just if the cosine between the normals of the
two, which need not be unit vectors, comes up to the threshold; the others go by the y axis alone.
With rigid axes every selector takes just the faces that it names. -/
theorem selectors_tell_faces (ht : ExactTurns α) (hk : box.kind = .box) (hm : box.transform.Affine) :
    ∃ quads, box.components .faces = .ok quads ∧
      List.Forall₂ (fun (f : Face) q =>
          let cosine := fun a => (box.transform.axis a).dot (f.outward box.transform)
          q.corners = box.cornersOn f ∧ q.normal = f.outward box.transform ∧
          (∀ (s : FaceSelector) g, s.faces = [g] →
            s.selects box q = .ok (decide (1 - 1 / 10000 ≤ g.sign * cosine g.axis))) ∧
          horizontal.selects box q = .ok (decide (1 - 1 / 10000 ≤ |cosine .y|)) ∧
          vertical.selects box q = .ok (decide (|cosine .y| ≤ 1 / 10000)) ∧
          side.selects box q = .ok (decide (|cosine .y| ≤ 1 / 10000)) ∧
          all.selects box q = .ok true ∧
          (box.transform.Rigid → ∀ s : FaceSelector, s.selects box q = .ok (decide (f ∈ s.faces))))
        [.negY, .posY, .posZ, .negZ, .posX, .negX] quads := by
  refine ⟨_, Shape.components_faces hk, ?_⟩
  refine List.forall₂_map_right_iff.mpr (List.forall₂_same.mpr fun f _ => ?_)
  intro cosine
  have hf := Face.toMat4_turn ht f
  have hselects (s : FaceSelector) : s.selects box (f.quad box.scope) = .ok (s.accepts cosine) :=
    selects_quad hf hk hm s
  refine ⟨Face.corners_quad hf hk, Face.normal_quad hf hm, fun s g hg => ?_, ?_, ?_, ?_, ?_,
    fun hrigid s => ?_⟩
  · rw [hselects, accepts_of_faces cosine hg]
  · rw [hselects, accepts, Scalar.abs_eq, parallel_eq]
  · rw [hselects, accepts, Scalar.abs_eq, tolerance_eq]
  · rw [hselects, accepts, Scalar.abs_eq, tolerance_eq]
  · rw [hselects, accepts]
  · have hcosine : cosine = fun a => if a = f.axis then f.sign else 0 :=
      funext fun a => Face.dot_outward hrigid a f
    rw [hselects, hcosine, accepts_rigid]

/-- A tower that lies on its side, so that its x axis stands upright. -/
noncomputable def tower : Shape ℝ :=
  ⟨.box, ⟨⟨0, 1, 0, 0⟩, ⟨-1, 0, 0, 0⟩, ⟨0, 0, 1, 0⟩, ⟨1, 0, 1, 1⟩⟩, Shape.crate.size⟩

theorem rigid_tower : tower.transform.Rigid where
  toAffine := ⟨rfl, rfl, rfl, rfl⟩
  dot a b := by cases a <;> cases b <;> simp [tower, Shape.transform, Mat4.axis, Vec4.direction, Vec3.dot]
  det := by simp [tower, Shape.transform, Mat4.axis, Vec4.direction, Vec3.det]

theorem selectors_tell_faces_tower : tower.kind = .box ∧ tower.transform.Rigid ∧
    ∃ quads, tower.components .faces = .ok quads ∧
      List.Forall₂ (fun (f : Face) q => ∀ s : FaceSelector, s.selects tower q = .ok (decide (f ∈ s.faces)))
        [.negY, .posY, .posZ, .negZ, .posX, .negX] quads := by
  have hk : tower.kind = .box := rfl
  obtain ⟨quads, hquads, hfaces⟩ := selectors_tell_faces exactTurns_real hk rigid_tower.toAffine
  refine ⟨hk, rigid_tower, quads, hquads, hfaces.imp fun f q h => ?_⟩
  obtain ⟨-, -, -, -, -, -, -, hrigid⟩ := h
  exact hrigid rigid_tower

end FaceSelector
end ShapeGrammar
