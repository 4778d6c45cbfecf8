import ShapeGrammar.Proofs.Turns
import ShapeGrammar.Proofs.FirstMatch

/-! The surface of a box. A shape has its corners at half its extents to either side of its centre, along
the axes of its frame. In any affine frame, also a sheared one, and for extents of any sign, the six
faces into which a box comes apart have the corners of the box as theirs, four each, look out of the
box along its axes, and measure what its surface does. -/
namespace ShapeGrammar
open Scalar

section Points
variable {α : Type} [Scalar α]

instance : Add (Vec3 α) := ⟨fun u v => ⟨u.x + v.x, u.y + v.y, u.z + v.z⟩⟩

def Mat4.point (m : Mat4 α) (v : Vec3 α) : Vec3 α := m.position + m.direct v

@[simp] theorem Vec3.add_x (u v : Vec3 α) : (u + v).x = u.x + v.x := rfl
@[simp] theorem Vec3.add_y (u v : Vec3 α) : (u + v).y = u.y + v.y := rfl
@[simp] theorem Vec3.add_z (u v : Vec3 α) : (u + v).z = u.z + v.z := rfl

end Points

section Corners
variable {α : Type} [ExactScalar α]

/-- Half of an extent, to either side of the centre. -/
def halves (extent : α) : Set α := {extent / 2, -(extent / 2)}

namespace Shape

/-- The corners of a shape by their coordinates in its own frame; a quad is flat, whatever its extent
along its normal. -/
def localCorners (h : Shape α) : Set (Vec3 α) :=
  {v | v.x ∈ halves h.size.x ∧ v.y ∈ halves h.size.y ∧
    match h.kind with
    | .box => v.z ∈ halves h.size.z
    | .quad => v.z = 0}

def corners (h : Shape α) : Set (Vec3 α) := h.transform.point '' h.localCorners

/-- The corners of a box at one end of an axis: half of its extent up the axis or, for a face that looks
the other way, down. -/
def cornersOn (h : Shape α) (f : Face) : Set (Vec3 α) :=
  h.transform.point '' {v ∈ h.localCorners | v.get f.axis = f.sign * (h.size.get f.axis / 2)}

end Shape
end Corners

variable {α : Type} [ExactScalar α]

namespace Vec3

theorem add_scale_zero (u v : Vec3 α) : u + v.scale 0 = u := by ext <;> simp [scale]

theorem scale_one (v : Vec3 α) : v.scale 1 = v := by ext <;> simp [scale]

end Vec3

theorem neg_mem_halves {c e : α} : -c ∈ halves e ↔ c ∈ halves e := by
  rw [halves, Set.mem_insert_iff, Set.mem_singleton_iff, neg_inj, neg_eq_iff_eq_neg, or_comm]
  rfl

namespace Mat4

theorem point_mul (m : Mat4 α) {n : Mat4 α} (hn : n.Affine) (v : Vec3 α) :
    (m * n).point v = m.point (n.point v) := by
  ext <;> simp [point, position, Vec4.direction, direct, hn.x, hn.y, hn.z, hn.w] <;> ring

theorem point_translate (m : Mat4 α) (u v : Vec3 α) : (m.translate u).point v = m.point (u + v) := by
  have hmove : (displacement u).point v = u + v := by
    ext <;> simp [point, position, Vec4.direction, direct, displacement, identity, Vec4.ofVec3]
  rw [translate, point_mul m (affine_displacement u), hmove]

theorem point_rotate (m : Mat4 α) (q : Rotation α) (v : Vec3 α) :
    (m.rotate q).point v = m.point (q.toMat4.point v) := point_mul m (affine_toMat4 q) v

theorem point_add_z (m : Mat4 α) (v : Vec3 α) (c : α) :
    m.point (v + ⟨0, 0, c⟩) = m.point v + (m.axis .z).scale c := by
  ext <;> simp [point, direct, axis, Vec4.direction, Vec3.scale] <;> ring

end Mat4

namespace Face
variable {box : Shape α} {f : Face}

/-- A point of a face, given in the frame of the face, as it is in the frame of the box. -/
def place (size : Vec3 α) (f : Face) (v : Vec3 α) : Vec3 α :=
  f.frame.point (⟨0, 0, f.depth size / 2⟩ + v)

def unplace (size : Vec3 α) : Face → Vec3 α → Vec3 α
  | negY, v => ⟨v.x, v.z, -v.y - size.y / 2⟩
  | posY, v => ⟨v.x, -v.z, v.y - size.y / 2⟩
  | posZ, v => ⟨v.x, v.y, v.z - size.z / 2⟩
  | negZ, v => ⟨-v.x, v.y, -v.z - size.z / 2⟩
  | posX, v => ⟨-v.z, v.y, v.x - size.x / 2⟩
  | negX, v => ⟨v.z, v.y, -v.x - size.x / 2⟩

theorem unplace_place (size : Vec3 α) (f : Face) (v : Vec3 α) : f.unplace size (f.place size v) = v := by
  cases f <;> ext <;>
    simp [unplace, place, frame, Mat4.turnX, Mat4.turnY, Mat4.identity, Mat4.point, Mat4.direct,
      Mat4.position, Vec4.direction, depth]

theorem place_unplace (size : Vec3 α) (f : Face) (v : Vec3 α) : f.place size (f.unplace size v) = v := by
  cases f <;> ext <;>
    simp [unplace, place, frame, Mat4.turnX, Mat4.turnY, Mat4.identity, Mat4.point, Mat4.direct,
      Mat4.position, Vec4.direction, depth]

/-- The corners of a face are, in the frame of the box, those of the box at the end of an axis. -/
theorem image_localCorners (hk : box.kind = .box) (f : Face) :
    f.place box.size '' (quad box.scope f).localCorners =
      {v ∈ box.localCorners | v.get f.axis = f.sign * (box.size.get f.axis / 2)} := by
  rw [Set.image_eq_preimage_of_inverse (unplace_place box.size f) (place_unplace box.size f)]
  ext v
  simp only [Set.mem_preimage, Set.mem_ofPred_eq, Shape.localCorners, hk]
  -- that a point is in the plane of the face fixes one coordinate, the other two are exchanged or negated
  cases f <;> simp only [unplace, quad, size, axis, sign, Vec3.get, Shape.size, halves] <;> grind

theorem point_quad (hf : (f.turn : Rotation α).toMat4 = f.frame) (box : Scope α) (v : Vec3 α) :
    (quad box f).transform.point v = box.transform.point (f.place box.size v) := by
  show ((box.transform.rotate f.turn).translate ⟨0, 0, f.depth box.size * half⟩).point v = _
  rw [Mat4.point_translate, Mat4.point_rotate, hf, mul_half, place]

theorem corners_quad (hf : (f.turn : Rotation α).toMat4 = f.frame) (hk : box.kind = .box) :
    (quad box.scope f).corners = box.cornersOn f := by
  have hpoint : (quad box.scope f).transform.point = box.transform.point ∘ f.place box.size :=
    funext (point_quad hf box.scope)
  rw [Shape.corners, hpoint, Set.image_comp, image_localCorners hk, Shape.cornersOn]

theorem transform_z_quad (hf : (f.turn : Rotation α).toMat4 = f.frame) (hm : box.transform.Affine) :
    (quad box.scope f).transform.z = .ofVec3 (f.outward box.transform) 0 := by
  have hz : (quad box.scope f).transform.z = box.transform.apply f.frame.z := by
    show ((box.transform.rotate f.turn).translate _).z = _
    rw [Mat4.translate_z, Mat4.rotate, hf, Mat4.mul_z]
  rw [hz]
  cases f <;> ext <;>
    simp [frame, Mat4.turnX, Mat4.turnY, Mat4.identity, outward, axis, sign, Mat4.axis, Vec3.scale,
      Vec4.direction, Vec4.ofVec3, hm.x, hm.y, hm.z]

theorem normal_quad (hf : (f.turn : Rotation α).toMat4 = f.frame) (hm : box.transform.Affine) :
    (quad box.scope f).normal = f.outward box.transform := by
  show (quad box.scope f).transform.z.direction = _
  rw [transform_z_quad hf hm, Vec4.direction_ofVec3]

end Face

namespace Shape

theorem measure_quad {h : Shape α} (hk : h.kind = .quad) : h.measure = |h.size.x * h.size.y| := by
  simp only [measure, primitive, hk, Primitive.measure, Scalar.abs_eq, two_eq, ofNat_eq, abs_mul]
  push_cast
  ring

theorem components_faces {h : Shape α} (hk : h.kind = .box) :
    h.components .faces = .ok (Face.values.map (Face.quad h.scope)) :=
  (components_box hk .faces).trans (if_pos rfl)

/-- The faces of a box, in the order in which it comes apart, are the quads on its corners at the lower
and the upper end of its y axis, at the upper and the lower end of its z axis and of its x axis. They
look out of the box along these axes, and measure its surface together. -/
theorem faces_make_surface (ht : ExactTurns α) {box : Shape α} (hk : box.kind = .box)
    (hm : box.transform.Affine) :
    ∃ quads, box.components .faces = .ok quads ∧
      List.Forall₂ (fun (f : Face) q => q.kind = .quad ∧ q.corners = box.cornersOn f ∧
          q.transform.z = .ofVec3 (f.outward box.transform) 0)
        [.negY, .posY, .posZ, .negZ, .posX, .negX] quads ∧
      (quads.map measure).sum = 2 * (|box.size.x * box.size.z| + |box.size.x * box.size.y| +
        |box.size.y * box.size.z|) := by
  refine ⟨_, components_faces hk, ?_, ?_⟩
  · refine List.forall₂_map_right_iff.mpr (List.forall₂_same.mpr fun f _ => ?_)
    have hf := Face.toMat4_turn ht f
    exact ⟨rfl, Face.corners_quad hf hk, Face.transform_z_quad hf hm⟩
  · have hmeasure (f : Face) : (Face.quad box.scope f).measure =
        |(f.size box.size).x * (f.size box.size).y| := measure_quad rfl
    simp only [Face.values, List.map_cons, List.map_nil, List.sum_cons, List.sum_nil, hmeasure, Face.size]
    rw [mul_comm box.size.z box.size.y]
    ring

/-- A crate in a sheared frame, with an extent that is measured against its axis. -/
noncomputable def crate : Shape ℝ :=
  ⟨.box, ⟨⟨1, 0, 0, 0⟩, ⟨1 / 2, 2, 0, 0⟩, ⟨0, 1, 3, 0⟩, ⟨4, 5, 6, 1⟩⟩, 2, 3, -5⟩

theorem faces_make_surface_crate : crate.kind = .box ∧ crate.transform.Affine ∧
    ∃ quads, crate.components .faces = .ok quads ∧
      List.Forall₂ (fun (f : Face) q => q.kind = .quad ∧ q.corners = crate.cornersOn f ∧
          q.transform.z = .ofVec3 (f.outward crate.transform) 0)
        [.negY, .posY, .posZ, .negZ, .posX, .negX] quads ∧
      (quads.map measure).sum = 62 := by
  have hk : crate.kind = .box := rfl
  have hm : crate.transform.Affine := ⟨rfl, rfl, rfl, rfl⟩
  obtain ⟨quads, hquads, hfaces, hsum⟩ := faces_make_surface exactTurns_real hk hm
  refine ⟨hk, hm, quads, hquads, hfaces, hsum.trans ?_⟩
  show 2 * (|(2 : ℝ) * -5| + |2 * 3| + |3 * -5|) = 62
  norm_num [abs_of_pos]

end Shape
end ShapeGrammar
