import ShapeGrammar.Scalar

/-! Points, extents and directions in space, and the local axes along which they are read. -/
namespace ShapeGrammar

inductive Axis
  | x | y | z
  deriving DecidableEq, Repr

def Axis.values : List Axis := [.x, .y, .z]

def Axis.name : Axis → String
  | .x => "x"
  | .y => "y"
  | .z => "z"

def Axis.index : Axis → Nat
  | .x => 0
  | .y => 1
  | .z => 2

structure Vec3 (α : Type) where
  x : α
  y : α
  z : α
  deriving DecidableEq, Repr

namespace Vec3
variable {α β : Type}

def map (f : α → β) (v : Vec3 α) : Vec3 β := ⟨f v.x, f v.y, f v.z⟩

def toList (v : Vec3 α) : List α := [v.x, v.y, v.z]

def ofList? : List α → Option (Vec3 α)
  | [x, y, z] => some ⟨x, y, z⟩
  | _ => none

@[simp] theorem ofList?_toList (v : Vec3 α) : ofList? v.toList = some v := rfl

def get (v : Vec3 α) : Axis → α
  | .x => v.x
  | .y => v.y
  | .z => v.z

def set (v : Vec3 α) (a : Axis) (c : α) : Vec3 α :=
  match a with
  | .x => { v with x := c }
  | .y => { v with y := c }
  | .z => { v with z := c }

@[simp] theorem get_set_self (v : Vec3 α) (a : Axis) (c : α) : (v.set a c).get a = c := by
  cases a <;> rfl

theorem get_set_of_ne (v : Vec3 α) {a b : Axis} (c : α) (h : b ≠ a) :
    (v.set a c).get b = v.get b := by
  cases a <;> cases b <;> first | rfl | exact absurd rfl h

def text [Numeral α] (v : Vec3 α) : String :=
  "[" ++ Numeral.text v.x ++ ", " ++ Numeral.text v.y ++ ", " ++ Numeral.text v.z ++ "]"

variable [Scalar α]

def dot (v w : Vec3 α) : α := v.x * w.x + v.y * w.y + v.z * w.z

def scale (v : Vec3 α) (c : α) : Vec3 α := ⟨v.x * c, v.y * c, v.z * c⟩

end Vec3

def Axis.unit {α : Type} [Scalar α] : Axis → Vec3 α
  | .x => ⟨1, 0, 0⟩
  | .y => ⟨0, 1, 0⟩
  | .z => ⟨0, 0, 1⟩

end ShapeGrammar
