import ShapeGrammar.Error

/-! The faces of a box and how a component split tells them apart. -/
namespace ShapeGrammar
open Scalar

/-- The six faces of a box, named by the local axis they look along. -/
inductive Face
  | negY | posY | posZ | negZ | posX | negX
  deriving DecidableEq, Repr

namespace Face

/-- The order in which a box comes apart. -/
def values : List Face := [negY, posY, posZ, negZ, posX, negX]

variable {α : Type} [Scalar α]

/-- Turns the local z axis of a box to the outside of the face. -/
def turn : Face → Rotation α
  | negY => .aboutX quarterTurn
  | posY => .aboutX (-quarterTurn)
  | posZ => .identity
  | negZ => .aboutY pi
  | posX => .aboutY quarterTurn
  | negX => .aboutY (-quarterTurn)

def depth (size : Vec3 α) : Face → α
  | negY | posY => size.y
  | posZ | negZ => size.z
  | posX | negX => size.x

def size (size : Vec3 α) : Face → Vec3 α
  | negY | posY => ⟨size.x, size.z, 0⟩
  | posZ | negZ => ⟨size.x, size.y, 0⟩
  | posX | negX => ⟨size.z, size.y, 0⟩

/-- The quad centred on this face of a box with its normal to the outside. -/
def quad (box : Scope α) (f : Face) : Shape α :=
  { kind := .quad
    scope :=
      { transform := (box.transform.rotate f.turn).translate ⟨0, 0, f.depth box.size * half⟩
        size := f.size box.size } }

end Face

/-- The components of a shape; only a box comes apart, and only into faces. -/
def Shape.components {α : Type} [Scalar α] (h : Shape α) (c : Component) :
    Except Error (List (Shape α)) :=
  match h.kind, c with
  | .quad, _ => .error (.noStrategy "component split" .quad)
  | .box, .faces => .ok (Face.values.map (Face.quad h.scope))
  | .box, c => .error (.unsupportedComponent .box c)

/-- Names for groups of faces by the direction of their normals in the frame of the box. -/
inductive FaceSelector
  | front | back | left | right | top | bottom | vertical | horizontal | side | all
  deriving DecidableEq, Repr

namespace FaceSelector

def values : List FaceSelector :=
  [front, back, left, right, top, bottom, vertical, horizontal, side, all]

def name : FaceSelector → String
  | front => "front"
  | back => "back"
  | left => "left"
  | right => "right"
  | top => "top"
  | bottom => "bottom"
  | vertical => "vertical"
  | horizontal => "horizontal"
  | side => "side"
  | all => "all"

variable {α : Type} [Scalar α]

def tolerance : α := 1 / Scalar.ofNat 10000

/-- The cosine from which on two unit vectors count as parallel. -/
def parallel : α := 1 - tolerance

/-- Decides by the cosine between the normal and each axis of the box. -/
def accepts (cosine : Axis → α) : FaceSelector → Bool
  | front => decide (parallel ≤ cosine .z)
  | back => decide (cosine .z ≤ -parallel)
  | left => decide (cosine .x ≤ -parallel)
  | right => decide (parallel ≤ cosine .x)
  | top => decide (parallel ≤ cosine .y)
  | bottom => decide (cosine .y ≤ -parallel)
  | vertical | side => decide (Scalar.abs (cosine .y) ≤ tolerance)
  | horizontal => decide (parallel ≤ Scalar.abs (cosine .y))
  | all => true

def selects (parent component : Shape α) (s : FaceSelector) : Except Error Bool :=
  match parent.kind, component.kind with
  | .quad, _ => .error (.noStrategy "semantic selection" .quad)
  | .box, .box => .error (.mismatchedComponent .box .box)
  | .box, .quad => .ok (s.accepts fun a => (parent.transform.axis a).dot component.normal)

end FaceSelector
end ShapeGrammar
