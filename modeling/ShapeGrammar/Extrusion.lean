import ShapeGrammar.Error

/-! Boxes from quads, and slices of a shape. -/
namespace ShapeGrammar.Shape
open Scalar

variable {α : Type} [Scalar α]

/-- The box that stands on a quad; its y axis is the normal of the quad, its base lies in the plane
of the quad. Only the direction of the normal, the local z axis, is possible. -/
def extrude (h : Shape α) (axis : Axis) (distance : α) : Except Error (Shape α) :=
  match h.kind, axis with
  | .quad, .z => .ok
    { kind := .box
      scope :=
        { transform := (h.transform.rotate (.aboutX quarterTurn)).translate ⟨0, distance * half, 0⟩
          size := ⟨h.size.x, distance, h.size.y⟩ } }
  | .quad, axis => .error (.unsupportedExtrusion .quad axis)
  | .box, _ => .error (.noStrategy "extrusion" .box)

/-- The part of a shape that begins `offset` above its lower bound on an axis and is `length` long
there, centred in its own frame. -/
def slice (h : Shape α) (axis : Axis) (offset length : α) : Shape α :=
  let shift := offset - h.extent axis * half + length * half
  { h with scope :=
    { transform := h.transform.translate (axis.unit.scale shift)
      size := h.size.set axis length } }

@[simp] theorem kind_slice (h : Shape α) (axis : Axis) (offset length : α) :
    (h.slice axis offset length).kind = h.kind := rfl

@[simp] theorem extent_slice (h : Shape α) (axis : Axis) (offset length : α) :
    (h.slice axis offset length).extent axis = length := Vec3.get_set_self ..

end ShapeGrammar.Shape
