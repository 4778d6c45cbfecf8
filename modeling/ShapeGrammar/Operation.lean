import ShapeGrammar.Face
import ShapeGrammar.Layout

/-! Operations on a single shape. Moving, turning, sizing and extruding replace it by one shape,
the two kinds of split divide it into branches. -/
namespace ShapeGrammar

structure Selection (σ : Type) where
  selector : FaceSelector
  successor : σ

/-- A mark on a split, which no layout heeds. -/
inductive Adjustment
  | adjust | noadjust
  deriving DecidableEq, Repr

def Adjustment.values : List Adjustment := [adjust, noadjust]

def Adjustment.name : Adjustment → String
  | adjust => "adjust"
  | noadjust => "noadjust"

inductive Operation (α σ : Type)
  | translate (offset : Vec3 (Expr α))
  /-- Pitch, yaw and roll in degrees. -/
  | rotate (degrees : Vec3 (Expr α))
  /-- Sets the extents whatever they were. -/
  | scale (size : Vec3 (Expr α))
  /-- Along the local z axis if no axis is given. -/
  | extrude (axis : Option Axis) (distance : Expr α)
  | componentSplit (component : Component) (selections : List (Selection σ))
  | split (axis : Axis) (adjustment : Option Adjustment) (pattern : Pattern α σ)

inductive Effect (α σ : Type)
  | replaced (shape : Shape α)
  | divided (branches : List (Branch α σ))

namespace Effect
variable {α σ : Type}

def shapes : Effect α σ → List (Shape α)
  | replaced h => [h]
  | divided bs => bs.map (·.shape)

/-- What the operation yields, one successor for each branch in order. -/
def successors : Effect α σ → List σ
  | replaced _ => []
  | divided bs => bs.map (·.successor)

end Effect

variable {α σ : Type}

/-- The components a test accepts and the others, both in order; the first error counts. -/
def sift (accepts : Shape α → Except Error Bool) :
    List (Shape α) → Except Error (List (Shape α) × List (Shape α))
  | [] => .ok ([], [])
  | c :: cs => do
    let accepted ← accepts c
    let (ins, outs) ← sift accepts cs
    return if accepted then (c :: ins, outs) else (ins, c :: outs)

variable [Scalar α]

/-- Gives each component to the first selection that takes it; those left at the end are dropped. -/
def assign (parent : Shape α) : List (Selection σ) → List (Shape α) → Except Error (List (Branch α σ))
  | [], _ => .ok []
  | k :: ks, pool => do
    let (ins, outs) ← sift (fun c => k.selector.selects parent c) pool
    let rest ← assign parent ks outs
    return ins.map (fun c => ⟨k.successor, c⟩) ++ rest

def Operation.apply (env : Env α) (h : Shape α) : Operation α σ → Except Error (Effect α σ)
  | translate offset => do
    let v ← offset.eval env
    return .replaced (h.withTransform (h.transform.translate v))
  | rotate degrees => do
    let v ← degrees.eval env
    return .replaced (h.withTransform (h.transform.rotate (.ofPitchYawRoll v)))
  | scale size => do
    let v ← size.eval env
    return .replaced (h.withSize v)
  | extrude axis distance => do
    let d ← distance.eval env
    return .replaced (← h.extrude (axis.getD .z) d)
  | componentSplit component selections => do
    return .divided (← assign h selections (← h.components component))
  | split axis _ pattern => do
    return .divided (← (pattern.layout env axis h).complete)

end ShapeGrammar
