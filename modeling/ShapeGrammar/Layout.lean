import ShapeGrammar.Allocation
import ShapeGrammar.Extrusion

/-! Laying a pattern over a shape: one branch for each step, in the order they are written. -/
namespace ShapeGrammar

variable {α σ : Type}

/-- A shape together with what is to become of it. -/
structure Branch (α σ : Type) where
  successor : σ
  shape : Shape α

/-- The branches made by a layout, up to the error that broke it off. -/
structure Layout (α σ : Type) where
  branches : List (Branch α σ)
  failure : Option Error

namespace Layout

def empty : Layout α σ := ⟨[], none⟩

def single (b : Branch α σ) : Layout α σ := ⟨[b], none⟩

def broken (e : Error) : Layout α σ := ⟨[], some e⟩

/-- One layout after another; nothing follows an error. -/
def append (l m : Layout α σ) : Layout α σ :=
  match l.failure with
  | some _ => l
  | none => ⟨l.branches ++ m.branches, m.failure⟩

instance : Append (Layout α σ) := ⟨append⟩

@[simp] theorem empty_append (l : Layout α σ) : empty ++ l = l := rfl

@[simp] theorem single_append (b : Branch α σ) (l : Layout α σ) :
    single b ++ l = ⟨b :: l.branches, l.failure⟩ := rfl

@[simp] theorem broken_append (e : Error) (l : Layout α σ) : broken e ++ l = broken e := rfl

theorem append_assoc (l m n : Layout α σ) : l ++ m ++ n = l ++ (m ++ n) := by
  rcases l with ⟨bs, _ | e⟩
  · rcases m with ⟨cs, _ | f⟩
    · exact congrArg (Layout.mk · n.failure) (List.append_assoc bs cs n.branches)
    · rfl
  · rfl

def complete (l : Layout α σ) : Except Error (List (Branch α σ)) :=
  match l.failure with
  | some e => .error e
  | none => .ok l.branches

end Layout

variable [Scalar α]

mutual

def Item.layout (env : Env α) (axis : Axis) (piece : Shape α) : Item α σ → Layout α σ
  | .step _ s => .single ⟨s, piece⟩
  | .nested items _ =>
    match allocate env items (piece.extent axis) with
    | .error e => .broken e
    | .ok lengths => layoutFrom env axis piece 0 items lengths

/-- Lays items of given lengths over a shape, beginning at an offset from its lower bound. -/
def layoutFrom (env : Env α) (axis : Axis) (whole : Shape α) (offset : α) :
    List (Item α σ) → List α → Layout α σ
  | i :: is, length :: lengths =>
    i.layout env axis (whole.slice axis offset length)
      ++ layoutFrom env axis whole (offset + length) is lengths
  | _, _ => .empty

end

def Pattern.layout (p : Pattern α σ) (env : Env α) (axis : Axis) (whole : Shape α) : Layout α σ :=
  p.toItem.layout env axis whole

end ShapeGrammar
