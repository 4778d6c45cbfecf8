import ShapeGrammar.Frame

/-! Shapes: boxes and quads. A scope places the centre of a shape and holds its full extents along
the local axes; a quad lies in its local xy plane and faces along its local z axis. -/
namespace ShapeGrammar

structure Scope (α : Type) where
  transform : Mat4 α
  size : Vec3 α
  deriving DecidableEq, Repr

inductive ShapeKind
  | box | quad
  deriving DecidableEq, Repr

def ShapeKind.values : List ShapeKind := [.box, .quad]

def ShapeKind.name : ShapeKind → String
  | .box => "Box"
  | .quad => "Quad"

structure Shape (α : Type) where
  kind : ShapeKind
  scope : Scope α
  deriving DecidableEq, Repr

/-- The part of a shape that an expression can read as `scope.tx`, `scope.ry`, `scope.sz` … -/
inductive ScopeAttribute
  | position (axis : Axis)
  | rotation (axis : Axis)
  | size (axis : Axis)
  deriving DecidableEq, Repr

namespace ScopeAttribute

def values : List ScopeAttribute :=
  [position .x, position .y, position .z, rotation .x, rotation .y, rotation .z,
    size .x, size .y, size .z]

def name : ScopeAttribute → String
  | position a => "scope.t" ++ a.name
  | rotation a => "scope.r" ++ a.name
  | size a => "scope.s" ++ a.name

def ofName? (s : String) : Option ScopeAttribute := values.find? (·.name == s)

@[simp] theorem ofName?_name (a : ScopeAttribute) : ofName? a.name = some a := by
  cases a with | _ a => cases a <;> decide +kernel

end ScopeAttribute

namespace Scope
variable {α : Type} [Scalar α]

def extent (s : Scope α) (a : Axis) : α := s.size.get a

def read (s : Scope α) : ScopeAttribute → α
  | .position a => s.transform.position.get a
  | .rotation a => s.transform.eulerAngles.get a
  | .size a => s.size.get a

end Scope

/-- The solid or plane figure that a shape is drawn as, by half extents. -/
inductive Primitive (α : Type)
  | cuboid (half : Vec3 α)
  | rectangle (halfX halfY : α)

/-- The volume of a cuboid, the area of a rectangle. -/
def Primitive.measure {α : Type} [Scalar α] : Primitive α → α
  | cuboid h => Scalar.ofNat 8 * h.x * h.y * h.z
  | rectangle x y => Scalar.ofNat 4 * x * y

namespace Shape
variable {α : Type}

def transform (h : Shape α) : Mat4 α := h.scope.transform

def size (h : Shape α) : Vec3 α := h.scope.size

def withTransform (h : Shape α) (m : Mat4 α) : Shape α := { h with scope := { h.scope with transform := m } }

def withSize (h : Shape α) (v : Vec3 α) : Shape α := { h with scope := { h.scope with size := v } }

@[simp] theorem kind_withTransform (h : Shape α) (m : Mat4 α) : (h.withTransform m).kind = h.kind := rfl
@[simp] theorem size_withTransform (h : Shape α) (m : Mat4 α) : (h.withTransform m).size = h.size := rfl
@[simp] theorem transform_withTransform (h : Shape α) (m : Mat4 α) : (h.withTransform m).transform = m := rfl
@[simp] theorem kind_withSize (h : Shape α) (v : Vec3 α) : (h.withSize v).kind = h.kind := rfl
@[simp] theorem transform_withSize (h : Shape α) (v : Vec3 α) : (h.withSize v).transform = h.transform := rfl
@[simp] theorem size_withSize (h : Shape α) (v : Vec3 α) : (h.withSize v).size = v := rfl

variable [Scalar α]

def unitBox : Shape α := ⟨.box, .identity, ⟨1, 1, 1⟩⟩

/-- Like a face of a box it has no extent along its normal. -/
def unitQuad : Shape α := ⟨.quad, .identity, ⟨1, 1, 0⟩⟩

def position (h : Shape α) : Vec3 α := h.transform.position

def normal (h : Shape α) : Vec3 α := h.transform.axis .z

def extent (h : Shape α) (a : Axis) : α := h.scope.extent a

def read (h : Shape α) (a : ScopeAttribute) : α := h.scope.read a

/-- Maps the unit figure of its kind onto the shape. -/
def modelMatrix (h : Shape α) : Mat4 α :=
  h.transform * .stretch (match h.kind with
    | .box => h.size
    | .quad => { h.size with z := 1 })

def primitive (h : Shape α) : Primitive α :=
  let half := fun c : α => Scalar.abs c / Scalar.two
  match h.kind with
  | .box => .cuboid (h.size.map half)
  | .quad => .rectangle (half h.size.x) (half h.size.y)

def measure (h : Shape α) : α := h.primitive.measure

def text [Numeral α] (h : Shape α) : String :=
  h.kind.name ++ "[position: " ++ h.position.text ++ ", rotation: " ++ h.transform.eulerAngles.text
    ++ ", size: " ++ h.size.text ++ "]"

end Shape
end ShapeGrammar
