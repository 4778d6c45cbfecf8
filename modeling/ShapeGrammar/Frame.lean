import ShapeGrammar.Rotation

/-! A matrix read as a local frame: three axes and an origin. Moves and turns are given in the
frame itself, that is multiplied from the right. -/
namespace ShapeGrammar.Mat4
open Scalar

variable {α : Type}

def position (m : Mat4 α) : Vec3 α := m.w.direction

def axis (m : Mat4 α) : Axis → Vec3 α
  | .x => m.x.direction
  | .y => m.y.direction
  | .z => m.z.direction

variable [Scalar α]

def withPosition (m : Mat4 α) (v : Vec3 α) : Mat4 α := { m with w := .ofVec3 v 1 }

@[simp] theorem position_withPosition (m : Mat4 α) (v : Vec3 α) :
    (m.withPosition v).position = v := rfl

@[simp] theorem axis_withPosition (m : Mat4 α) (v : Vec3 α) (a : Axis) :
    (m.withPosition v).axis a = m.axis a := by cases a <;> rfl

def translate (m : Mat4 α) (v : Vec3 α) : Mat4 α := m * displacement v

def rotate (m : Mat4 α) (q : Rotation α) : Mat4 α := m * q.toMat4

/-- Below this length of the x axis in the xy plane a frame counts as gimbal locked. -/
def gimbalEpsilon : α := 1 / ofNat 1000000

/-- Angles of the turns about z, y and x, in this order from the left, that make up the frame. A
frame whose x axis stands upright leaves the turn about z open; it is then zero. -/
def eulerAngles (m : Mat4 α) : Vec3 α :=
  let flat := sqrt (m.x.x * m.x.x + m.x.y * m.x.y)
  if gimbalEpsilon ≤ flat then
    ⟨atan2 m.y.z m.z.z, atan2 (-m.x.z) flat, atan2 m.x.y m.x.x⟩
  else
    ⟨atan2 (-m.z.y) m.y.y, atan2 (-m.x.z) flat, 0⟩

end ShapeGrammar.Mat4
