import ShapeGrammar.Matrix

/-! Rotations as quaternions, made from half angles and never normalized. -/
namespace ShapeGrammar

structure Rotation (α : Type) where
  x : α
  y : α
  z : α
  w : α
  deriving DecidableEq, Repr

namespace Rotation
variable {α : Type}

def toList (q : Rotation α) : List α := [q.x, q.y, q.z, q.w]

variable [Scalar α]
open Scalar

def identity : Rotation α := ⟨0, 0, 0, 1⟩

def aboutX (a : α) : Rotation α := ⟨sin (a * half), 0, 0, cos (a * half)⟩

def aboutY (a : α) : Rotation α := ⟨0, sin (a * half), 0, cos (a * half)⟩

/-- Roll about z, then pitch about x, then yaw about y, each in degrees. -/
def ofPitchYawRoll (degrees : Vec3 α) : Rotation α :=
  let i := ofDegrees degrees.y * half
  let j := ofDegrees degrees.x * half
  let h := ofDegrees degrees.z * half
  let cc := cos i * cos h
  let cs := cos i * sin h
  let sc := sin i * cos h
  let ss := sin i * sin h
  { x := cos j * ss + sin j * cc
    y := cos j * sc - sin j * cs
    z := cos j * cs - sin j * sc
    w := cos j * cc + sin j * ss }

/-- The matrix that turns a column; a rotation if the quaternion has length one. -/
def toMat4 (q : Rotation α) : Mat4 α :=
  let x2 := q.x + q.x
  let y2 := q.y + q.y
  let z2 := q.z + q.z
  let xx := q.x * x2
  let xy := q.x * y2
  let xz := q.x * z2
  let yy := q.y * y2
  let yz := q.y * z2
  let zz := q.z * z2
  let wx := q.w * x2
  let wy := q.w * y2
  let wz := q.w * z2
  { x := ⟨1 - (yy + zz), xy + wz, xz - wy, 0⟩
    y := ⟨xy - wz, 1 - (xx + zz), yz + wx, 0⟩
    z := ⟨xz + wy, yz - wx, 1 - (xx + yy), 0⟩
    w := ⟨0, 0, 0, 1⟩ }

end Rotation
end ShapeGrammar
