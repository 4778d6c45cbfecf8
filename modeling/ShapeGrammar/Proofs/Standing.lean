import ShapeGrammar.Proofs.Corners
import ShapeGrammar.Extrusion

/-! The box that an extrusion stands on a quad. Its corners are those of the quad and those at the given
distance along the normal of the quad, in any affine frame and for a distance of any sign; and taken
apart again it has the quad, turned over, as its bottom and the quad, moved, as its top. -/
namespace ShapeGrammar
open Scalar

variable {α : Type} [ExactScalar α]

namespace Shape

/-- The box on a quad: its y axis is the normal of the quad, its z axis the opposite of the y axis of
the quad. -/
def standing (h : Shape α) (d : α) : Shape α where
  kind := .box
  scope :=
    { transform := (h.transform.rotate (.aboutX quarterTurn)).translate ⟨0, d * half, 0⟩
      size := ⟨h.size.x, d, h.size.y⟩ }

theorem extrude_z {h : Shape α} (hk : h.kind = .quad) (d : α) : h.extrude .z d = .ok (h.standing d) := by
  simp only [extrude, hk, standing]

/-- A point given in the frame of the box, as it is in the frame of the quad below. -/
def grounded (d : α) (v : Vec3 α) : Vec3 α := ⟨v.x, -v.z, v.y + d * half⟩

variable {h : Shape α}

theorem point_standing (hq : ExactQuarterTurns α) (h : Shape α) (d : α) (v : Vec3 α) :
    (h.standing d).transform.point v = h.transform.point (grounded d v) := by
  have hlocal : (Face.frame .negY).point (⟨0, d * half, 0⟩ + v) = grounded d v := by
    ext <;> simp [grounded, Face.frame, Mat4.turnX, Mat4.point, Mat4.direct, Mat4.position,
      Vec4.direction, add_comm]
  show ((h.transform.rotate (Face.turn .negY)).translate ⟨0, d * half, 0⟩).point v = _
  rw [Mat4.point_translate, Mat4.point_rotate, Face.toMat4_turn_negY hq, hlocal]

theorem image_grounded (hk : h.kind = .quad) {d c : α} (hc : c ∈ halves d) :
    grounded d '' {v ∈ (h.standing d).localCorners | v.y = c} =
      (· + ⟨0, 0, c + d / 2⟩) '' h.localCorners := by
  ext p
  simp only [Set.mem_image, Set.mem_ofPred_eq, localCorners, hk, standing, size]
  constructor
  · rintro ⟨v, ⟨⟨hx, -, hz⟩, hy⟩, rfl⟩
    refine ⟨⟨v.x, -v.z, 0⟩, ⟨hx, neg_mem_halves.mpr hz, rfl⟩, ?_⟩
    ext <;> simp [grounded, mul_half, hy]
  · rintro ⟨u, ⟨hx, hy, hz⟩, rfl⟩
    refine ⟨⟨u.x, c, -u.y⟩, ⟨⟨hx, hc, neg_mem_halves.mpr hy⟩, rfl⟩, ?_⟩
    ext <;> simp [grounded, mul_half, hz]

theorem cornersOn_standing (hq : ExactQuarterTurns α) (hk : h.kind = .quad) (d : α) {f : Face}
    (hf : f.axis = .y) :
    (h.standing d).cornersOn f = (· + h.normal.scale (f.sign * (d / 2) + d / 2)) '' h.corners := by
  have hc : f.sign * (d / 2) ∈ halves d := by
    cases f <;> simp [Face.axis, Face.sign, halves] at hf ⊢
  have hpoint : (h.standing d).transform.point = h.transform.point ∘ grounded d :=
    funext (point_standing hq h d)
  have hraise (c : α) : h.transform.point ∘ (· + ⟨0, 0, c⟩) = (· + h.normal.scale c) ∘ h.transform.point :=
    funext fun v => h.transform.point_add_z v c
  have hlevel : {v ∈ (h.standing d).localCorners | v.get f.axis = f.sign * ((h.standing d).size.get f.axis / 2)} =
      {v ∈ (h.standing d).localCorners | v.y = f.sign * (d / 2)} := by rw [hf]; rfl
  rw [cornersOn, hlevel, hpoint, Set.image_comp, image_grounded hk hc, ← Set.image_comp, hraise,
    Set.image_comp, corners]

theorem cornersOn_negY_standing (hq : ExactQuarterTurns α) (hk : h.kind = .quad) (d : α) :
    (h.standing d).cornersOn .negY = h.corners := by
  have hdown : Face.sign .negY * (d / 2) + d / 2 = 0 := by rw [Face.sign]; ring
  simp only [cornersOn_standing hq hk d (f := .negY) rfl, hdown, Vec3.add_scale_zero, Set.image_id']

theorem cornersOn_posY_standing (hq : ExactQuarterTurns α) (hk : h.kind = .quad) (d : α) :
    (h.standing d).cornersOn .posY = (· + h.normal.scale d) '' h.corners := by
  have hup : Face.sign .posY * (d / 2) + d / 2 = d := by rw [Face.sign]; ring
  rw [cornersOn_standing hq hk d (f := .posY) rfl, hup]

theorem corners_eq_union (hk : h.kind = .box) : h.corners = h.cornersOn .posY ∪ h.cornersOn .negY := by
  rw [cornersOn, cornersOn, ← Set.image_union, corners]
  congr 1
  ext v
  simp only [Set.mem_union, Set.mem_ofPred_eq, localCorners, hk, Face.axis, Face.sign, Vec3.get, halves]
  grind

theorem affine_standing (hm : h.transform.Affine) (d : α) : (h.standing d).transform.Affine :=
  (hm.mul (Mat4.affine_toMat4 _)).mul (Mat4.affine_displacement _)

theorem axis_y_standing (hq : ExactQuarterTurns α) (h : Shape α) (d : α) :
    (h.standing d).transform.axis .y = h.normal := by
  have hy : (h.standing d).transform.y = h.transform.apply (Face.frame .negY).y := by
    show ((h.transform.rotate (Face.turn .negY)).translate _).y = _
    rw [Mat4.translate_y, Mat4.rotate, Face.toMat4_turn_negY hq, Mat4.mul_y]
  rw [Mat4.axis, hy]
  ext <;> simp [Face.frame, Mat4.turnX, normal, Mat4.axis, Vec4.direction]

/-- The box that an extrusion makes of a quad has the corners of the quad and those at the distance
along its normal. Taken apart, its first face is on the corners of the quad and looks the other way,
its second on the others and looks the way of the quad. -/
theorem extrusion_stands_on_quad (hq : ExactQuarterTurns α) (hk : h.kind = .quad)
    (hm : h.transform.Affine) (d : α) :
    let moved := (· + h.normal.scale d) '' h.corners
    ∃ box, h.extrude .z d = .ok box ∧ box.kind = .box ∧ box.corners = h.corners ∪ moved ∧
      ∃ bottom top sides, box.components .faces = .ok (bottom :: top :: sides) ∧
        bottom.corners = h.corners ∧ bottom.normal = h.normal.scale (-1) ∧
        top.corners = moved ∧ top.normal = h.normal := by
  intro moved
  have hbottom := cornersOn_negY_standing hq hk d
  have htop := cornersOn_posY_standing hq hk d
  have hbox : (h.standing d).kind = .box := rfl
  have haffine := affine_standing hm d
  -- the faces across the y axis are turned by a quarter, so half of the circle need not be exact
  have hdown := Face.toMat4_turn_negY hq
  have hup := Face.toMat4_turn_posY hq
  refine ⟨h.standing d, extrude_z hk d, hbox, ?_, _, _, _, components_faces hbox, ?_, ?_, ?_, ?_⟩
  · rw [corners_eq_union hbox, hbottom, htop, Set.union_comm]
  · rw [Face.corners_quad hdown hbox, hbottom]
  · rw [Face.normal_quad hdown haffine, Face.outward, Face.axis, axis_y_standing hq, Face.sign]
  · rw [Face.corners_quad hup hbox, htop]
  · rw [Face.normal_quad hup haffine, Face.outward, Face.axis, axis_y_standing hq, Face.sign,
      Vec3.scale_one]

/-- The quad in the middle of a crate, in its sheared frame. -/
noncomputable def footprint : Shape ℝ := { crate with kind := .quad }

theorem extrusion_stands_on_quad_footprint : footprint.kind = .quad ∧ footprint.transform.Affine ∧
    ∃ box, footprint.extrude .z (-4) = .ok box ∧
      box.corners = footprint.corners ∪ (· + (⟨0, 1, 3⟩ : Vec3 ℝ).scale (-4)) '' footprint.corners ∧
      ∃ bottom top sides, box.components .faces = .ok (bottom :: top :: sides) ∧
        bottom.corners = footprint.corners ∧ bottom.normal = (⟨0, 1, 3⟩ : Vec3 ℝ).scale (-1) ∧
        top.corners = (· + (⟨0, 1, 3⟩ : Vec3 ℝ).scale (-4)) '' footprint.corners ∧
        top.normal = ⟨0, 1, 3⟩ := by
  have hk : footprint.kind = .quad := rfl
  have hm : footprint.transform.Affine := ⟨rfl, rfl, rfl, rfl⟩
  obtain ⟨box, hbox, -, hcorners, hfaces⟩ :=
    extrusion_stands_on_quad exactTurns_real.toExactQuarterTurns hk hm (-4)
  exact ⟨hk, hm, box, hbox, hcorners, hfaces⟩

end Shape
end ShapeGrammar
