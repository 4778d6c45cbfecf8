import ShapeGrammar.Derivation
import ShapeGrammar.Proofs.Failure
import ShapeGrammar.Proofs.Lookup

/-! One step of a derivation. A successor either puts the body of a rule into its place, which
leaves the scene alone, or acts on the shape it takes off the stack. What it makes of this shape
depends on nothing else in the scene, and nothing else in the scene changes. -/
namespace ShapeGrammar
variable {α β : Type}

/-- What stands for a successor that is replaced in place. -/
def Grammar.body? (g : Grammar α) : Successor α → Option (List (Successor α))
  | .symbol name => (g.rule? name).map (·.successors)
  | .operation _ => none

theorem Grammar.body?_translate {f : Successor α → Successor β} (v : α → β)
    (hsymbol : ∀ name, f (.symbol name) = .symbol name)
    (hoperation : ∀ op, ∃ op', f (.operation op) = .operation op') (g : Grammar α) (s : Successor α) :
    (g.translate f v).body? (f s) = (g.body? s).map (List.map f) := by
  cases s with
  | symbol name =>
    rw [hsymbol, body?, body?, rule?_translate, Option.map_map, Option.map_map]
    rfl
  | operation op =>
    obtain ⟨op', hop⟩ := hoperation op
    rw [hop]
    rfl

/-- What a successor makes of the shape it takes off the stack. -/
structure Outcome (α : Type) where
  yielded : List (Successor α)
  opened : List (Shape α)
  finished : List (Shape α)

/-- A scene with more finished shapes, for which some shapes were put on the stack meanwhile. -/
structure Scene.Adds (c : Scene α) (finished pushed : List (Shape α)) (d : Scene α) : Prop where
  recording : d.recording = c.recording
  finished : d.finished.toList = c.finished.toList ++ finished
  record : d.record.toList = c.record.toList ++ if c.recording then pushed else []

theorem Scene.Adds.refl (c : Scene α) : c.Adds [] [] c := ⟨rfl, by simp, by simp⟩

theorem Scene.Adds.trans {c d e : Scene α} {fs ps fs' ps' : List (Shape α)} (hcd : c.Adds fs ps d)
    (hde : d.Adds fs' ps' e) : c.Adds (fs ++ fs') (ps ++ ps') e where
  recording := hde.recording.trans hcd.recording
  finished := by rw [hde.finished, hcd.finished, List.append_assoc]
  record := by
    rw [hde.record, hcd.record, hcd.recording, List.append_assoc]
    cases c.recording <;> simp

/-- A scene in which an outcome has taken the place of the top shape. -/
structure Scene.Turns (c : Scene α) (below : List (Shape α)) (o : Outcome α) (d : Scene α) : Prop
    extends c.Adds o.finished o.opened.reverse d where
  stack : d.stack = o.opened ++ below

theorem Scene.record_pushAll_of_not (c : Scene α) (hs : List (Shape α)) (h : c.recording = false) :
    (c.pushAll hs).record.toList = c.record.toList := by
  induction hs with
  | nil => rfl
  | cons k hs ih => simp [record_push, h, ih]

theorem Scene.record_pushAll_eq (c : Scene α) (hs : List (Shape α)) :
    (c.pushAll hs).record.toList = c.record.toList ++ if c.recording then hs.reverse else [] := by
  cases h : c.recording with
  | true => simp [record_pushAll c hs h]
  | false => simp [record_pushAll_of_not c hs h]

variable [Scalar α]

namespace Grammar

def treat (g : Grammar α) (s : Successor α) (h : Shape α) : Except Error (Outcome α) :=
  match s with
  | .symbol _ => .ok ⟨[], [], [h]⟩
  | .operation op => (op.apply ⟨g.attr?, some h⟩ h).map fun e => ⟨e.successors, e.shapes, []⟩

/-- What a successor that is not replaced does to a scene, and what it yields. -/
def act (g : Grammar α) (s : Successor α) (c : Scene α) : Except Error (List (Successor α) × Scene α) :=
  match s with
  | .symbol _ => c.retire.map fun d => ([], d)
  | .operation op =>
    match c.apply g op with
    | (.ok ys, d) => .ok (ys, d)
    | (.error e, _) => .error e

variable {g : Grammar α} {s : Successor α} {c d : Scene α} {h : Shape α} {below : List (Shape α)}
  {e : Error}

theorem treat_operation {op : Operation α (Successor α)} {o : Outcome α} :
    g.treat (.operation op) h = .ok o ↔
      ∃ e, op.apply ⟨g.attr?, some h⟩ h = .ok e ∧ ⟨e.successors, e.shapes, []⟩ = o :=
  map_eq_ok

theorem treat_error (he : g.treat s h = .error e) : e.isLocal = true := by
  cases s with
  | symbol name => cases he
  | operation op => exact (Operation.apply_error rfl (map_eq_error.mp he)).isLocal

theorem act_congr {g' : Grammar α}
    (hs : ∀ op, s = .operation op → ∀ n ∈ op.reads, g.attr? n = g'.attr? n) : g.act s c = g'.act s c := by
  cases s with
  | symbol name => rfl
  | operation op =>
    have happly : c.apply g op = c.apply g' op := by
      rw [Scene.apply, Scene.apply]
      cases c.pop with
      | error e => rfl
      | ok p =>
        have henv : Env.AgreeOn op.reads (p.2.env g) (p.2.env g') := ⟨rfl, hs op rfl⟩
        simp only [Operation.apply_congr henv]
    simp only [act, happly]

theorem act_of_nil (hc : c.stack = []) : g.act s c = .error .emptyStack := by
  cases s <;> simp [act, Scene.retire, Scene.apply, Scene.pop, hc, Except.map]

theorem act_of_treat_error (hc : c.stack = h :: below) (he : g.treat s h = .error e) :
    g.act s c = .error e := by
  cases s with
  | symbol name => cases he
  | operation op =>
    have ha : op.apply ⟨g.attr?, some h⟩ h = .error e := map_eq_error.mp he
    simp [act, Scene.apply, Scene.pop, Scene.env, hc, ha]

theorem act_of_treat (hc : c.stack = h :: below) {o : Outcome α} (ho : g.treat s h = .ok o) :
    ∃ d, g.act s c = .ok (o.yielded, d) ∧ c.Turns below o d := by
  cases s with
  | symbol name =>
    cases ho
    refine ⟨{ c with stack := below, finished := c.finished.push h }, ?_, ?_⟩
    · simp [act, Scene.retire, hc, Except.map]
    · exact ⟨⟨rfl, by simp, by simp⟩, rfl⟩
  | operation op =>
    obtain ⟨effect, ha, rfl⟩ := treat_operation.mp ho
    let popped : Scene α := { c with stack := below, current := some h }
    refine ⟨popped.pushAll effect.shapes, ?_, ?_⟩
    · simp [act, Scene.apply, Scene.pop, Scene.env, Scene.enact, hc, ha, popped]
    · exact ⟨⟨by simp [popped], by simp [popped], Scene.record_pushAll_eq popped _⟩, by simp [popped]⟩

theorem exists_treat_of_act {ys : List (Successor α)} (ha : g.act s c = .ok (ys, d)) :
    ∃ h below o, c.stack = h :: below ∧ g.treat s h = .ok o ∧ ys = o.yielded ∧ c.Turns below o d := by
  cases hc : c.stack with
  | nil => rw [act_of_nil hc] at ha; cases ha
  | cons h below =>
    cases ho : g.treat s h with
    | error e => rw [act_of_treat_error hc ho] at ha; cases ha
    | ok o =>
      obtain ⟨d', ha', hd⟩ := act_of_treat hc ho
      rw [ha'] at ha
      cases ha
      exact ⟨h, below, o, rfl, ho, rfl, hd⟩

theorem act_error_cases (ha : g.act s c = .error e) :
    (c.stack = [] ∧ e = .emptyStack) ∨ ∃ h below, c.stack = h :: below ∧ g.treat s h = .error e := by
  cases hc : c.stack with
  | nil => rw [act_of_nil hc] at ha; cases ha; exact .inl ⟨rfl, rfl⟩
  | cons h below =>
    cases ho : g.treat s h with
    | error e' => rw [act_of_treat_error hc ho] at ha; cases ha; exact .inr ⟨h, below, rfl, ho⟩
    | ok o =>
      obtain ⟨d, hd, -⟩ := act_of_treat hc ho
      rw [hd] at ha
      cases ha

theorem act_error_local (ha : g.act s c = .error e) : e = .emptyStack ∨ e.isLocal = true := by
  rcases act_error_cases ha with ⟨-, he⟩ | ⟨h, below, -, ho⟩
  · exact .inl he
  · exact .inr (treat_error ho)

theorem act_eq_emptyStack (ha : g.act s c = .error e) : e = .emptyStack ↔ c.stack = [] := by
  rcases act_error_cases ha with ⟨hc, rfl⟩ | ⟨h, below, hc, ho⟩
  · simp [hc]
  · simp [hc, Error.ne_emptyStack_of_isLocal (treat_error ho)]

theorem isSettled_of_act (ha : g.act s c = .error e) : e.isSettled = false := by
  rcases act_error_local ha with rfl | hlocal
  · rfl
  · exact Error.isSettled_of_isLocal hlocal

theorem root_of_act (ha : g.act s c = .error e) : e.root = e := by
  rcases act_error_local ha with rfl | hlocal
  · rfl
  · exact Error.root_of_isLocal hlocal

variable [Numeral α] {agenda : Agenda (Successor α)}

theorem perform_of_body {b : List (Successor α)} (hb : g.body? s = some b) :
    g.perform s agenda c = .ok ⟨agenda.unfold b, c⟩ := by
  cases s with
  | symbol name =>
    obtain ⟨r, hr, rfl⟩ := Option.map_eq_some_iff.mp hb
    simp [perform, hr]
  | operation op => cases hb

theorem perform_of_act {ys : List (Successor α)} (hb : g.body? s = none) (ha : g.act s c = .ok (ys, d)) :
    g.perform s agenda c = .ok ⟨agenda.yield ys, d⟩ := by
  cases s with
  | symbol name =>
    have hr : g.rule? name = none := Option.map_eq_none_iff.mp hb
    cases hd : c.retire with
    | error e => simp [act, hd, Except.map] at ha
    | ok d' =>
      obtain ⟨rfl, rfl⟩ : [] = ys ∧ d' = d := by simpa [act, hd, Except.map] using ha
      simp [perform, hr, hd, Agenda.yield]
  | operation op =>
    rcases hd : c.apply g op with ⟨_ | ys', d'⟩
    · simp [act, hd] at ha
    · obtain ⟨rfl, rfl⟩ : ys' = ys ∧ d' = d := by simpa [act, hd] using ha
      simp [perform, hd]

theorem perform_of_act_error (hb : g.body? s = none) (ha : g.act s c = .error e) :
    g.perform s agenda c = .error (.within s.text e) := by
  cases s with
  | symbol name =>
    have hr : g.rule? name = none := Option.map_eq_none_iff.mp hb
    cases hd : c.retire with
    | error e' =>
      obtain rfl : e' = e := by simpa [act, hd, Except.map] using ha
      simp [perform, hr, hd]
    | ok d' => simp [act, hd, Except.map] at ha
  | operation op =>
    rcases hd : c.apply g op with ⟨e' | ys, d'⟩
    · obtain rfl : e' = e := by simpa [act, hd] using ha
      simp [perform, hd]
    · simp [act, hd] at ha

/-- All that a successor can do to a state. -/
theorem perform_cases {st : State α} (hp : g.perform s agenda c = .ok st) :
    (∃ b, g.body? s = some b ∧ st = ⟨agenda.unfold b, c⟩) ∨
    (g.body? s = none ∧ ∃ ys d, g.act s c = .ok (ys, d) ∧ st = ⟨agenda.yield ys, d⟩) := by
  cases hb : g.body? s with
  | some b =>
    rw [perform_of_body hb] at hp
    cases hp
    exact .inl ⟨b, rfl, rfl⟩
  | none =>
    cases ha : g.act s c with
    | error e => rw [perform_of_act_error hb ha] at hp; cases hp
    | ok p =>
      rw [perform_of_act hb ha] at hp
      cases hp
      exact .inr ⟨rfl, p.1, p.2, rfl, rfl⟩

theorem perform_error_cases (hp : g.perform s agenda c = .error e) :
    g.body? s = none ∧ ∃ cause, g.act s c = .error cause ∧ e = .within s.text cause := by
  cases hb : g.body? s with
  | some b => rw [perform_of_body hb] at hp; cases hp
  | none =>
    cases ha : g.act s c with
    | error cause =>
      rw [perform_of_act_error hb ha] at hp
      cases hp
      exact ⟨rfl, cause, rfl, rfl⟩
    | ok p => rw [perform_of_act hb ha] at hp; cases hp

theorem perform_congr {g' : Grammar α} (hb : g.body? s = g'.body? s) (ha : g.act s c = g'.act s c) :
    g.perform s agenda c = g'.perform s agenda c := by
  cases hbody : g'.body? s with
  | some b => rw [perform_of_body hbody, perform_of_body (hb.trans hbody)]
  | none =>
    cases hact : g'.act s c with
    | error e =>
      rw [perform_of_act_error hbody hact, perform_of_act_error (hb.trans hbody) (ha.trans hact)]
    | ok r => rw [perform_of_act hbody hact, perform_of_act (hb.trans hbody) (ha.trans hact)]

theorem step_of_next? {st : State α} (hn : st.agenda.next? = some (s, agenda)) :
    g.step st = some (g.perform s agenda st.scene) := by
  rw [step, hn]

theorem step_eq_none {st : State α} : g.step st = none ↔ st.agenda.next? = none := by
  rw [step]
  cases st.agenda.next? <;> simp

theorem step_cases {st : State α} {r : Except Error (State α)} (hs : g.step st = some r) :
    ∃ s agenda, st.agenda.next? = some (s, agenda) ∧ g.perform s agenda st.scene = r := by
  rw [step] at hs
  cases hn : st.agenda.next? with
  | none => simp [hn] at hs
  | some p => exact ⟨p.1, p.2, rfl, by simpa [hn] using hs⟩

theorem length_pos_of_step {st : State α} {r : Except Error (State α)} (hs : g.step st = some r) :
    0 < st.agenda.toList.length := by
  obtain ⟨s, agenda, hn, -⟩ := step_cases hs
  rw [Agenda.toList_of_next? hn]
  exact Nat.zero_lt_succ _

theorem root_of_step_error {st : State α} (hs : g.step st = some (.error e)) :
    e.root = .emptyStack ↔ st.scene.stack = [] := by
  obtain ⟨s, agenda, -, hp⟩ := step_cases hs
  obtain ⟨-, cause, ha, rfl⟩ := perform_error_cases hp
  rw [Error.root, root_of_act ha]
  exact act_eq_emptyStack ha

end Grammar
end ShapeGrammar
