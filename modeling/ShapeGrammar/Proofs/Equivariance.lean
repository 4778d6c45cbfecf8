import ShapeGrammar.Proofs.Ending
import ShapeGrammar.Proofs.Inheritance

/-! Derivations of the images of shapes. Where every operation makes of the image of a shape the
images of what it makes of the shape, a derivation from the image of an axiom goes through the images
of the scenes that the derivation from the axiom goes through, and comes out with their images. -/
namespace ShapeGrammar
variable {α σ : Type}

def Branch.mapShape (f : Shape α → Shape α) (b : Branch α σ) : Branch α σ := ⟨b.successor, f b.shape⟩

namespace Effect

def mapShapes (f : Shape α → Shape α) : Effect α σ → Effect α σ
  | replaced h => replaced (f h)
  | divided bs => divided (bs.map (Branch.mapShape f))

@[simp] theorem shapes_mapShapes (f : Shape α → Shape α) (e : Effect α σ) :
    (e.mapShapes f).shapes = e.shapes.map f := by
  cases e with
  | replaced h => rfl
  | divided bs => simp [mapShapes, shapes, Branch.mapShape]

@[simp] theorem successors_mapShapes (f : Shape α → Shape α) (e : Effect α σ) :
    (e.mapShapes f).successors = e.successors := by
  cases e with
  | replaced h => rfl
  | divided bs => simp [mapShapes, successors, Branch.mapShape]

end Effect

namespace Scene

def map (f : Shape α → Shape α) (c : Scene α) : Scene α :=
  ⟨c.stack.map f, c.current.map f, c.finished.map f, c.recording, c.record.map f⟩

theorem map_empty (f : Shape α → Shape α) (recording : Bool) :
    (empty recording).map f = empty recording := by
  simp [map, empty]

theorem map_push (f : Shape α → Shape α) (c : Scene α) (h : Shape α) :
    (c.push h).map f = (c.map f).push (f h) := by
  cases hr : c.recording <;> simp [map, push, hr]

theorem map_pushAll (f : Shape α → Shape α) (c : Scene α) (hs : List (Shape α)) :
    (c.pushAll hs).map f = (c.map f).pushAll (hs.map f) := by
  induction hs with
  | nil => rfl
  | cons h hs ih => rw [List.map_cons, pushAll_cons, pushAll_cons, map_push, ih]

theorem pop_map (f : Shape α → Shape α) (c : Scene α) :
    (c.map f).pop = c.pop.map fun p => (f p.1, p.2.map f) := by
  cases hs : c.stack <;> simp [map, pop, hs, Except.map]

theorem retire_map (f : Shape α → Shape α) (c : Scene α) :
    (c.map f).retire = c.retire.map (Scene.map f) := by
  cases hs : c.stack <;> simp [map, retire, hs, Except.map]

end Scene

def State.mapShapes (f : Shape α → Shape α) (a : State α) : State α := ⟨a.agenda, a.scene.map f⟩

theorem State.start_map (f : Shape α → Shape α) (ax : Axiom α) (recording : Bool) :
    State.start ⟨ax.symbol, f ax.shape⟩ recording = (State.start ax recording).mapShapes f := by
  rw [start, start, mapShapes, Scene.map_push, Scene.map_empty]

def Derivation.map (f : Shape α → Shape α) (d : Derivation α) : Derivation α :=
  ⟨d.finished.map f, d.record.map f, d.steps⟩

namespace Progress

def mapShapes (f : Shape α → Shape α) : Progress α → Progress α
  | finished c n => finished (c.map f) n
  | failed e n => failed e n
  | suspended a n => suspended (a.mapShapes f) n

theorem answer?_mapShapes (f : Shape α → Shape α) (limit : Option Nat) (p : Progress α) :
    (p.mapShapes f).answer? limit = (p.answer? limit).map (·.map (Derivation.map f)) := by
  cases p with
  | finished c n => simp [mapShapes, answer?, Scene.map, Except.map, Derivation.map]
  | failed e n => rfl
  | suspended a n => cases limit <;> rfl

end Progress

variable [Scalar α]

/-- An operation that makes of the image of any shape with a property the images of what it makes of
the shape. -/
def Grammar.Respects (g : Grammar α) (f : Shape α → Shape α) (P : Shape α → Prop)
    (op : Operation α (Successor α)) : Prop :=
  ∀ h, P h → op.apply ⟨g.attr?, some (f h)⟩ (f h) =
    (op.apply ⟨g.attr?, some h⟩ h).map (Effect.mapShapes f)

namespace Grammar
variable {g : Grammar α} {f : Shape α → Shape α} {Q : Successor α → Prop} {P : Shape α → Prop}

theorem act_map {s : Successor α} {c : Scene α} (hs : ∀ op, s = .operation op → g.Respects f P op)
    (hc : c.All P) : g.act s (c.map f) = (g.act s c).map fun p => (p.1, p.2.map f) := by
  cases s with
  | symbol name =>
    rw [act, act, Scene.retire_map]
    cases c.retire <;> rfl
  | operation op =>
    have hpop : (c.map f).pop = c.pop.map fun p => (f p.1, p.2.map f) := Scene.pop_map f c
    cases hp : c.pop with
    | error e =>
      rw [hp] at hpop
      simp only [act, Scene.apply, hp, hpop, Except.map]
    | ok p =>
      obtain ⟨h, d⟩ := p
      rw [hp] at hpop
      rw [act, act, Scene.apply_of_pop g op hp, Scene.apply_of_pop g op hpop, hs op rfl h (hc.pop hp).1]
      cases op.apply ⟨g.attr?, some h⟩ h with
      | error e => rfl
      | ok e => simp [Except.map, Scene.map_pushAll]

variable [Numeral α]

/-- A map of shapes that all the operations to come respect. -/
structure Moves (g : Grammar α) (f : Shape α → Shape α) (Q : Successor α → Prop) (P : Shape α → Prop) :
    Prop extends g.Inherits Q P where
  respects : ∀ op, Q (.operation op) → g.Respects f P op

variable {a : State α}

theorem Moves.step (hg : g.Moves f Q P) (ha : a.All Q P) :
    g.step (a.mapShapes f) = (g.step a).map (Except.map (State.mapShapes f)) := by
  cases hn : a.agenda.next? with
  | none =>
    have hn' : (a.mapShapes f).agenda.next? = none := hn
    rw [step_eq_none.mpr hn, step_eq_none.mpr hn', Option.map_none]
  | some p =>
    obtain ⟨s, rest⟩ := p
    -- the map leaves the agenda alone, so the same successor comes next
    have hn' : (a.mapShapes f).agenda.next? = some (s, rest) := hn
    have hs : Q s := ha.agenda s (Agenda.mem_of_next? hn)
    have hact : g.act s (a.mapShapes f).scene = (g.act s a.scene).map fun p => (p.1, p.2.map f) :=
      act_map (fun op hop => hg.respects op (hop ▸ hs)) ha.scene
    rw [step_of_next? hn, step_of_next? hn', Option.map_some]
    congr 1
    cases hb : g.body? s with
    | some b =>
      rw [perform_of_body hb, perform_of_body hb]
      rfl
    | none =>
      cases ha : g.act s a.scene with
      | error e =>
        rw [ha] at hact
        rw [perform_of_act_error hb ha, perform_of_act_error hb hact]
        rfl
      | ok p =>
        rw [ha] at hact
        rw [perform_of_act hb ha, perform_of_act hb hact]
        rfl

theorem Moves.advance (hg : g.Moves f Q P) (ha : a.All Q P) (fuel n : Nat) :
    g.advance fuel n (a.mapShapes f) = (g.advance fuel n a).mapShapes f := by
  induction fuel generalizing n a with
  | zero =>
    rw [Grammar.advance, Grammar.advance]
    have hn : (a.mapShapes f).agenda.next? = a.agenda.next? := rfl
    rw [hn]
    cases a.agenda.next? <;> rfl
  | succ fuel ih =>
    have hstep := hg.step ha
    rcases hs : g.step a with _ | e | b
    · rw [hs] at hstep
      rw [advance_of_none hs, advance_of_none hstep]
      rfl
    · rw [hs] at hstep
      rw [advance_of_error hs, advance_of_error hstep]
      rfl
    · rw [hs] at hstep
      rw [advance_of_ok hs, advance_of_ok hstep, ih (hg.toInherits.step ha hs) (n + 1)]

/-- From the image of an axiom a derivation has the same answer, with the images of the shapes. -/
theorem Moves.derive? (hg : g.Moves f Q P) {ax : Axiom α} (hs : Q (.symbol ax.symbol)) (hax : P ax.shape)
    (config : Config) (fuel : Nat) :
    g.derive? config ⟨ax.symbol, f ax.shape⟩ fuel =
      (g.derive? config ax fuel).map (·.map (Derivation.map f)) := by
  rw [Grammar.derive?, Grammar.derive?, State.start_map, hg.advance (.start hs hax config.recording),
    Progress.answer?_mapShapes]

end Grammar
end ShapeGrammar
