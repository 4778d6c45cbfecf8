import ShapeGrammar.Pattern

/-! Sharing an extent among the items of a pattern. -/
namespace ShapeGrammar

/-- What an item asks of the extent that is shared. -/
inductive Demand (α : Type)
  | fixed (length : α)
  | share (weight : α)
  deriving DecidableEq, Repr

namespace Demand
variable {α : Type}

def fixed? : Demand α → Option α
  | fixed v => some v
  | share _ => none

def share? : Demand α → Option α
  | fixed _ => none
  | share w => some w

end Demand

variable {α σ : Type} [Scalar α]

/-- Only the size of a step is evaluated; a nested pattern is not looked into. -/
def Item.demand (env : Env α) : Item α σ → Except Error (Demand α)
  | step (.absolute e) _ => (e.eval env).map .fixed
  | step (.relative e) _ => (e.eval env).map .share
  | nested _ _ => .ok (.share 1)

/-- The demands of the items in order; the first error counts. -/
def demands (env : Env α) : List (Item α σ) → Except Error (List (Demand α))
  | [] => .ok []
  | i :: is => do
    let d ← i.demand env
    let ds ← demands env is
    return d :: ds

def total (xs : List α) : α := xs.foldl (· + ·) 0

/-- The lengths that meet the demands on an extent: fixed ones as they are, shares in proportion to
their weights out of what is left over. There is no proportion to weights that sum to zero. -/
def distribute (extent : α) (ds : List (Demand α)) : Except Error (List α) :=
  let weights := ds.filterMap Demand.share?
  let weight := total weights
  if !weights.isEmpty && Scalar.isZero weight then .error (.divisionByZero "split")
  else
    let pool := extent - total (ds.filterMap Demand.fixed?)
    .ok (ds.map fun
      | .fixed v => v
      | .share w => pool / weight * w)

theorem length_distribute {extent : α} {ds : List (Demand α)} {ls : List α}
    (h : distribute extent ds = .ok ls) : ls.length = ds.length := by
  simp only [distribute] at h
  split at h
  · cases h
  · cases h; simp

def allocate (env : Env α) (items : List (Item α σ)) (extent : α) : Except Error (List α) := do
  distribute extent (← demands env items)

end ShapeGrammar
