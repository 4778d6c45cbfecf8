import ShapeGrammar.Expr

/-! Split patterns: items laid out back to back along an axis. `σ` is what an item hands its piece to. -/
namespace ShapeGrammar

/-- A length of its own, or a weight for a share of what the lengths leave over. -/
inductive Size (α : Type)
  | absolute (length : Expr α)
  | relative (weight : Expr α)
  deriving DecidableEq, Repr

/-- A nested pattern weighs one and lays its own items out within its span; `repeats` is the mark
of a pattern that is meant to be repeated, which no layout heeds. -/
inductive Item (α σ : Type)
  | step (size : Size α) (successor : σ)
  | nested (items : List (Item α σ)) (repeats : Bool)

structure Pattern (α σ : Type) where
  items : List (Item α σ)
  repeats : Bool

namespace Pattern
variable {α σ : Type}

def ofItems (items : List (Item α σ)) : Pattern α σ := ⟨items, false⟩

def push (p : Pattern α σ) (i : Item α σ) : Pattern α σ := { p with items := p.items ++ [i] }

def repeating (p : Pattern α σ) : Pattern α σ := { p with repeats := true }

def toItem (p : Pattern α σ) : Item α σ := .nested p.items p.repeats

end Pattern
end ShapeGrammar
