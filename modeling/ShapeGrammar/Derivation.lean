import ShapeGrammar.Scene
import ShapeGrammar.Grammar.Text

/-! Derivations, one successor at a time. A symbol with a rule is replaced in place by the body of
the rule; what the operations of a body yield waits until the body is through and then comes before
all that was waiting already. So a derivation goes depth first, and an operation behind a split in
the same body works on the first branch. -/
namespace ShapeGrammar

/-- What is left to do: the rest of the body being run in place, what it has yielded so far,
and what waits until then. -/
structure Agenda (σ : Type) where
  body : List σ
  yielded : List σ
  waiting : List σ

namespace Agenda
variable {σ : Type}

def ofList (waiting : List σ) : Agenda σ := ⟨[], [], waiting⟩

def toList (a : Agenda σ) : List σ := a.body ++ (a.yielded ++ a.waiting)

def next? (a : Agenda σ) : Option (σ × Agenda σ) :=
  match a.body with
  | s :: body => some (s, { a with body })
  | [] =>
    match a.yielded ++ a.waiting with
    | s :: waiting => some (s, .ofList waiting)
    | [] => none

@[simp] theorem next?_cons (s : σ) (body yielded waiting : List σ) :
    next? ⟨s :: body, yielded, waiting⟩ = some (s, ⟨body, yielded, waiting⟩) := rfl

@[simp] theorem next?_ofList_cons (s : σ) (waiting : List σ) :
    (ofList (s :: waiting)).next? = some (s, ofList waiting) := rfl

@[simp] theorem next?_ofList_nil : (ofList ([] : List σ)).next? = none := rfl

@[simp] theorem toList_ofList (waiting : List σ) : (ofList waiting).toList = waiting := rfl

theorem toList_of_next? {a b : Agenda σ} {s : σ} (h : a.next? = some (s, b)) :
    a.toList = s :: b.toList := by
  rcases a with ⟨_ | ⟨t, body⟩, yielded, waiting⟩
  · rcases hw : yielded ++ waiting with _ | ⟨t, ts⟩
    · simp [next?, hw] at h
    · obtain ⟨rfl, rfl⟩ : t = s ∧ ofList ts = b := by simpa [next?, hw] using h
      simp [toList, ofList, hw]
  · obtain ⟨rfl, rfl⟩ : t = s ∧ ⟨body, yielded, waiting⟩ = b := by simpa [next?] using h
    rfl

def unfold (a : Agenda σ) (body : List σ) : Agenda σ := { a with body := body ++ a.body }

def yield (a : Agenda σ) (successors : List σ) : Agenda σ :=
  { a with yielded := a.yielded ++ successors }

@[simp] theorem toList_unfold (a : Agenda σ) (body : List σ) :
    (a.unfold body).toList = body ++ a.toList := by simp [unfold, toList]

theorem next?_eq_none_iff (a : Agenda σ) : a.next? = none ↔ a.toList = [] := by
  rcases a with ⟨_ | ⟨s, body⟩, yielded, waiting⟩
  · rcases h : yielded ++ waiting with _ | ⟨t, ts⟩ <;> simp [next?, toList, h]
  · simp [next?, toList]

end Agenda

structure State (α : Type) where
  agenda : Agenda (Successor α)
  scene : Scene α

def State.start {α : Type} (a : Axiom α) (recording : Bool) : State α :=
  ⟨.ofList [.symbol a.symbol], (Scene.empty recording).push a.shape⟩

/-- How far a derivation came, and in how many steps, one that failed included. -/
inductive Progress (α : Type)
  | finished (scene : Scene α) (steps : Nat)
  | failed (error : Error) (steps : Nat)
  | suspended (state : State α) (steps : Nat)

variable {α : Type} [Scalar α] [Numeral α]

/-- Performs one successor in front of an agenda. A symbol without a rule finishes the top shape;
an error names the successor it was met at. -/
def Grammar.perform (g : Grammar α) (s : Successor α) (agenda : Agenda (Successor α))
    (scene : Scene α) : Except Error (State α) :=
  match s with
  | .symbol name =>
    match g.rule? name with
    | some r => .ok ⟨agenda.unfold r.successors, scene⟩
    | none =>
      match scene.retire with
      | .ok scene => .ok ⟨agenda, scene⟩
      | .error e => .error (.within s.text e)
  | .operation op =>
    match scene.apply g op with
    | (.ok successors, scene) => .ok ⟨agenda.yield successors, scene⟩
    | (.error e, _) => .error (.within s.text e)

@[inline] def Grammar.step (g : Grammar α) (st : State α) : Option (Except Error (State α)) :=
  match st.agenda.next? with
  | some (s, agenda) => some (g.perform s agenda st.scene)
  | none => none

/-- At most `fuel` steps, counted on from `steps`. -/
def Grammar.advance (g : Grammar α) : Nat → Nat → State α → Progress α
  | 0, steps, st =>
    match st.agenda.next? with
    | none => .finished st.scene steps
    | some _ => .suspended st steps
  | fuel + 1, steps, st =>
    match g.step st with
    | none => .finished st.scene steps
    | some (.error e) => .failed e (steps + 1)
    | some (.ok st) => g.advance fuel (steps + 1) st

structure Derivation (α : Type) where
  finished : List (Shape α)
  record : List (Shape α)
  steps : Nat

structure Config where
  /-- The largest number of steps; without one a derivation may go on for ever. -/
  limit : Option Nat
  /-- Whether all shapes put on the stack are kept. -/
  recording : Bool

/-- A derivation that its limit breaks off fails; without a limit, one that is not through yet has
no answer. -/
def Progress.answer? (limit : Option Nat) : Progress α → Option (Except Error (Derivation α))
  | finished scene steps => some (.ok ⟨scene.finished.toList, scene.record.toList, steps⟩)
  | failed e _ => some (.error e)
  | suspended _ _ => limit.map (.error ∘ .limitExceeded)

/-- Derives all finished shapes from an axiom. The limit bounds the steps; only where there is
none does `fuel`, and then there is no answer if it does not suffice. -/
def Grammar.derive? (g : Grammar α) (config : Config) (a : Axiom α) (fuel : Nat) :
    Option (Except Error (Derivation α)) :=
  (g.advance (config.limit.getD fuel) 0 (.start a config.recording)).answer? config.limit

end ShapeGrammar
