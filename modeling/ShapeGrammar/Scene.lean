import ShapeGrammar.Grammar

/-! The shapes of a derivation: a stack of open ones, the one taken off last, the finished ones in
the order they were found and, on request, a record of all that were ever put on the stack. -/
namespace ShapeGrammar

/-- The head of the stack is its top. -/
structure Scene (α : Type) where
  stack : List (Shape α)
  current : Option (Shape α)
  finished : Array (Shape α)
  recording : Bool
  record : Array (Shape α)

namespace Scene
variable {α : Type}

def empty (recording : Bool) : Scene α := ⟨[], none, #[], recording, #[]⟩

def depth (s : Scene α) : Nat := s.stack.length

def push (s : Scene α) (h : Shape α) : Scene α :=
  { s with stack := h :: s.stack, record := if s.recording then s.record.push h else s.record }

/-- Pushes the last one first, so that the first comes to lie on top. -/
def pushAll (s : Scene α) (hs : List (Shape α)) : Scene α := hs.foldr (fun h s => s.push h) s

def pop (s : Scene α) : Except Error (Shape α × Scene α) :=
  match s.stack with
  | [] => .error .emptyStack
  | h :: hs => .ok (h, { s with stack := hs, current := some h })

/-- Moves the top shape to the finished ones; the current shape stays. -/
def retire (s : Scene α) : Except Error (Scene α) :=
  match s.stack with
  | [] => .error .emptyStack
  | h :: hs => .ok { s with stack := hs, finished := s.finished.push h }

@[simp] theorem stack_push (s : Scene α) (h : Shape α) : (s.push h).stack = h :: s.stack := rfl
@[simp] theorem current_push (s : Scene α) (h : Shape α) : (s.push h).current = s.current := rfl
@[simp] theorem finished_push (s : Scene α) (h : Shape α) : (s.push h).finished = s.finished := rfl

@[simp] theorem recording_push (s : Scene α) (h : Shape α) : (s.push h).recording = s.recording := rfl

theorem record_push (s : Scene α) (h : Shape α) :
    (s.push h).record.toList = if s.recording then s.record.toList ++ [h] else s.record.toList := by
  simp only [push]; split <;> simp

@[simp] theorem pushAll_nil (s : Scene α) : s.pushAll [] = s := rfl
@[simp] theorem pushAll_cons (s : Scene α) (h : Shape α) (hs : List (Shape α)) :
    s.pushAll (h :: hs) = (s.pushAll hs).push h := rfl

@[simp] theorem stack_pushAll (s : Scene α) (hs : List (Shape α)) :
    (s.pushAll hs).stack = hs ++ s.stack := by
  induction hs with
  | nil => rfl
  | cons h hs ih => simp [ih]

@[simp] theorem current_pushAll (s : Scene α) (hs : List (Shape α)) :
    (s.pushAll hs).current = s.current := by
  induction hs with
  | nil => rfl
  | cons h hs ih => simp [ih]

@[simp] theorem finished_pushAll (s : Scene α) (hs : List (Shape α)) :
    (s.pushAll hs).finished = s.finished := by
  induction hs with
  | nil => rfl
  | cons h hs ih => simp [ih]

@[simp] theorem recording_pushAll (s : Scene α) (hs : List (Shape α)) :
    (s.pushAll hs).recording = s.recording := by
  induction hs with
  | nil => rfl
  | cons h hs ih => simp [ih]

theorem record_pushAll (s : Scene α) (hs : List (Shape α)) (h : s.recording = true) :
    (s.pushAll hs).record.toList = s.record.toList ++ hs.reverse := by
  induction hs with
  | nil => simp
  | cons k hs ih => simp [record_push, h, ih]

def env (s : Scene α) (g : Grammar α) : Env α := ⟨g.attr?, s.current⟩

/-- Puts the new shapes of an operation on the stack and returns what it yields; each successor
belongs to the shape as far down the stack as it stands in the list. -/
def enact {σ : Type} (s : Scene α) (e : Effect α σ) : List σ × Scene α :=
  (e.successors, s.pushAll e.shapes)

variable [Scalar α]

/-- Applies an operation to the top shape and returns what it yields. A shape that was taken off
stays off, also if the operation then fails. -/
def apply (s : Scene α) (g : Grammar α) (op : Operation α (Successor α)) :
    Except Error (List (Successor α)) × Scene α :=
  match s.pop with
  | .error e => (.error e, s)
  | .ok (h, popped) =>
    match op.apply (popped.env g) h with
    | .error e => (.error e, popped)
    | .ok effect =>
      let (successors, next) := popped.enact effect
      (.ok successors, next)

end Scene
end ShapeGrammar
