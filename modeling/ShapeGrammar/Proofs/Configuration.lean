import ShapeGrammar.Proofs.Locality
import ShapeGrammar.Proofs.Ending

/-! What the configuration of a derivation changes. A limit breaks a derivation off where it would
go on beyond the limit and does nothing else; a record holds the shapes that the derivation puts on
the stack in any case and is never read. -/
namespace ShapeGrammar
variable {α : Type}

/-- The shapes that the step from one state to the next puts on the stack, in the order in which
they come there: an operation takes one shape off, and whatever lies above the others is new. -/
def State.pushed (a b : State α) : List (Shape α) :=
  match a.agenda.next? with
  | some (.operation _, _) => (b.scene.stack.take (b.scene.depth + 1 - a.scene.depth)).reverse
  | _ => []

structure Scene.Alike (c d : Scene α) : Prop where
  stack : d.stack = c.stack
  finished : d.finished.toList = c.finished.toList

theorem State.start_alike (ax : Axiom α) (recording : Bool) :
    (State.start ax false).scene.Alike (State.start ax recording).scene := ⟨rfl, rfl⟩

def Derivation.withRecord (d : Derivation α) (record : List (Shape α)) : Derivation α := { d with record }

variable [Scalar α] [Numeral α]

namespace Grammar

/-- The shapes put on the stack by the next steps, in order. -/
def pushes (g : Grammar α) : Nat → State α → List (Shape α)
  | 0, _ => []
  | n + 1, a =>
    match g.step a with
    | some (.ok b) => a.pushed b ++ g.pushes n b
    | _ => []

/-- The record of a derivation after so many steps, if there is one: the shape of the axiom and all
that was put on the stack since. -/
def recordAfter (g : Grammar α) (ax : Axiom α) (recording : Bool) (steps : Nat) : List (Shape α) :=
  if recording then ax.shape :: g.pushes steps (.start ax false) else []

variable {g : Grammar α} {a b : State α} {d : Scene α} {k n fuel : Nat} {e : Error}

section Record

theorem pushes_of_step (hs : g.step a = some (.ok b)) :
    g.pushes (n + 1) a = a.pushed b ++ g.pushes n b := by
  rw [pushes, hs]

theorem adds_of_step (hs : g.step a = some (.ok b)) : ∃ fs, a.scene.Adds fs (a.pushed b) b.scene := by
  obtain ⟨s, agenda, hn, hp⟩ := step_cases hs
  rcases perform_cases hp with ⟨body, hb, rfl⟩ | ⟨hb, ys, c, ha, rfl⟩
  · cases s with
    | symbol name =>
      rw [State.pushed, hn]
      exact ⟨[], .refl _⟩
    | operation op => cases hb
  · obtain ⟨h, below, o, hstack, ho, rfl, ht⟩ := exists_treat_of_act ha
    cases s with
    | symbol name =>
      rw [State.pushed, hn]
      cases ho
      exact ⟨[h], ht.toAdds⟩
    | operation op =>
      have hdepth : c.depth + 1 - a.scene.depth = o.opened.length := by
        rw [Scene.depth, Scene.depth, ht.stack, hstack, List.length_append, List.length_cons]
        omega
      have hpushed : State.pushed a ⟨agenda.yield o.yielded, c⟩ = o.opened.reverse := by
        simp only [State.pushed, hn, hdepth, ht.stack, List.take_left']
      rw [hpushed]
      exact ⟨o.finished, ht.toAdds⟩

theorem Exec.adds (h : g.Exec a k b) : ∃ fs, a.scene.Adds fs (g.pushes k a) b.scene := by
  induction h with
  | refl a => exact ⟨[], .refl _⟩
  | succ hs ht ih =>
    obtain ⟨fs, hab⟩ := adds_of_step hs
    obtain ⟨fs', hbc⟩ := ih
    rw [pushes_of_step hs]
    exact ⟨fs ++ fs', hab.trans hbc⟩

theorem step_alike (hd : a.scene.Alike d) (hs : g.step a = some (.ok b)) :
    ∃ d', g.step ⟨a.agenda, d⟩ = some (.ok ⟨b.agenda, d'⟩) ∧ b.scene.Alike d' := by
  have hstack : d.stack = a.scene.stack ++ [] := by rw [hd.stack, List.append_nil]
  obtain ⟨d', fs, ps, hs', hstack', hab, hdd'⟩ := step_over hstack hs
  rw [List.append_nil] at hstack'
  exact ⟨d', hs', hstack', by rw [hdd'.finished, hab.finished, hd.finished]⟩

theorem step_error_alike (hd : a.scene.Alike d) (hs : g.step a = some (.error e)) :
    g.step ⟨a.agenda, d⟩ = some (.error e) := by
  obtain ⟨s, agenda, hn, hp⟩ := step_cases hs
  obtain ⟨hb, cause, ha, rfl⟩ := perform_error_cases hp
  have ha' : g.act s d = .error cause := by
    rcases act_error_cases ha with ⟨hc, rfl⟩ | ⟨h, below, hc, ho⟩
    · exact act_of_nil (hd.stack.trans hc)
    · exact act_of_treat_error (hd.stack.trans hc) ho
  rw [show g.step ⟨a.agenda, d⟩ = some (g.perform s agenda d) from step_of_next? hn,
    perform_of_act_error hb ha']

theorem Exec.alike (h : g.Exec a k b) (hd : a.scene.Alike d) :
    ∃ d', g.Exec ⟨a.agenda, d⟩ k ⟨b.agenda, d'⟩ ∧ b.scene.Alike d' := by
  induction h generalizing d with
  | refl a => exact ⟨d, .refl _, hd⟩
  | succ hs ht ih =>
    obtain ⟨d₁, hs', hd₁⟩ := step_alike hd hs
    obtain ⟨d₂, ht', hd₂⟩ := ih hd₁
    exact ⟨d₂, .succ hs' ht', hd₂⟩

theorem pushes_alike (hd : a.scene.Alike d) : g.pushes k ⟨a.agenda, d⟩ = g.pushes k a := by
  induction k generalizing a d with
  | zero => rfl
  | succ k ih =>
    rcases hs : g.step a with _ | e | b
    · have hn : a.agenda.next? = none := step_eq_none.mp hs
      have hs' : g.step ⟨a.agenda, d⟩ = none := step_eq_none.mpr hn
      rw [pushes, pushes, hs, hs']
    · rw [pushes, pushes, hs, step_error_alike hd hs]
    · obtain ⟨d', hs', hd'⟩ := step_alike hd hs
      have hpushed : State.pushed ⟨a.agenda, d⟩ ⟨b.agenda, d'⟩ = a.pushed b := by
        simp only [State.pushed, Scene.depth, hd.stack, hd'.stack]
      rw [pushes_of_step hs, pushes_of_step hs', hpushed, ih hd']

variable {ax : Axiom α} {limit : Option Nat} {recording : Bool}

theorem Exec.record_eq (h : g.Exec (.start ax recording) k b) :
    b.scene.record.toList = g.recordAfter ax recording k := by
  obtain ⟨fs, hadds⟩ := h.adds
  have hpushes : g.pushes k (.start ax recording) = g.pushes k (.start ax false) :=
    pushes_alike (State.start_alike ax recording)
  have hrecord : b.scene.record.toList = (State.start ax recording).scene.record.toList ++
      if recording then g.pushes k (.start ax false) else [] := hpushes ▸ hadds.record
  rw [hrecord, recordAfter]
  cases recording <;> simp [State.start, Scene.push, Scene.empty]

theorem derive?_recording : g.derive? ⟨limit, recording⟩ ax fuel = (g.derive? ⟨limit, false⟩ ax fuel).map
    (·.map fun d => d.withRecord (g.recordAfter ax recording d.steps)) := by
  cases hadv : g.advance (limit.getD fuel) 0 (.start ax false) with
  | finished c m =>
    obtain ⟨k, hk, hm, hx⟩ := advance_eq_finished.mp hadv
    obtain ⟨d, hx', hd⟩ := hx.alike (State.start_alike ax recording)
    have hrecord : d.record.toList = g.recordAfter ax recording m := by
      rw [hm, Nat.zero_add]
      exact hx'.record_eq
    rw [derive?_of_finished ⟨limit, false⟩ hadv,
      derive?_of_finished ⟨limit, recording⟩ (advance_eq_finished.mpr ⟨k, hk, hm, hx'⟩),
      hd.finished, hrecord]
    rfl
  | failed e m =>
    obtain ⟨k, b, hk, hm, hx, hb⟩ := advance_eq_failed.mp hadv
    obtain ⟨d, hx', hd⟩ := hx.alike (State.start_alike ax recording)
    have hadv' := advance_eq_failed.mpr ⟨k, _, hk, hm, hx', step_error_alike hd hb⟩
    rw [derive?_of_failed ⟨limit, false⟩ hadv, derive?_of_failed ⟨limit, recording⟩ hadv']
    rfl
  | suspended st m =>
    obtain ⟨hm, hx, hb⟩ := advance_eq_suspended.mp hadv
    obtain ⟨d, hx', hd⟩ := hx.alike (State.start_alike ax recording)
    have hb' : g.step ⟨st.agenda, d⟩ ≠ none := by
      rw [ne_eq, step_eq_none] at hb ⊢
      exact hb
    have hadv' := advance_eq_suspended.mpr ⟨hm, hx', hb'⟩
    rw [derive?_of_suspended ⟨limit, false⟩ hadv, derive?_of_suspended ⟨limit, recording⟩ hadv']
    cases limit <;> rfl

end Record

section Limit
variable {ax : Axiom α} {limit : Nat} {recording : Bool} {c : Scene α}

theorem Exec.suspended (h : g.Exec a k b) (hl : limit < k ∨ limit ≤ k ∧ g.step b ≠ none) :
    ∃ st, g.advance limit 0 a = .suspended st limit := by
  obtain ⟨c, hac, hcb⟩ := h.split (j := limit) (by omega)
  refine ⟨c, advance_eq_suspended.mpr ⟨(Nat.zero_add limit).symm, hac, ?_⟩⟩
  generalize hj : k - limit = j at hcb
  cases hcb with
  | refl =>
    rcases hl with hl | ⟨-, hb⟩
    · omega
    · exact hb
  | succ hs ht => simp [hs]

theorem advance_of_loop (hs : g.step a = some (.ok a)) : g.advance fuel n a = .suspended a (n + fuel) := by
  induction fuel generalizing n with
  | zero => exact advance_eq_suspended.mpr ⟨rfl, .refl a, by simp [hs]⟩
  | succ fuel ih => rw [advance_of_ok hs, ih, Nat.add_right_comm, Nat.add_assoc]

theorem advance_of_finished (limit : Nat) (h : g.advance fuel 0 a = .finished c k) :
    (k ≤ limit → g.advance limit 0 a = .finished c k) ∧
      (limit < k → ∃ st, g.advance limit 0 a = .suspended st limit) := by
  obtain ⟨j, -, hj, hx⟩ := advance_eq_finished.mp h
  obtain rfl : k = j := by omega
  exact ⟨fun hl => advance_eq_finished.mpr ⟨k, hl, hj, hx⟩, fun hl => hx.suspended (.inl hl)⟩

theorem advance_of_failed (limit : Nat) (h : g.advance fuel 0 a = .failed e k) :
    (k ≤ limit → g.advance limit 0 a = .failed e k) ∧
      (limit < k → ∃ st, g.advance limit 0 a = .suspended st limit) := by
  obtain ⟨j, b, -, hj, hx, hb⟩ := advance_eq_failed.mp h
  refine ⟨fun hl => advance_eq_failed.mpr ⟨j, b, by omega, hj, hx, hb⟩, fun hl => ?_⟩
  exact hx.suspended (.inr ⟨by omega, by simp [hb]⟩)

end Limit

/-- A derivation with a limit is the one without, broken off if its steps, a failing one included,
are more than the limit; and one that goes on for ever is always broken off. Whether there is a
record makes no difference but for the record, which holds all shapes put on the stack in order. -/
theorem config_truncates_and_records (g : Grammar α) (ax : Axiom α) :
    (∀ fuel d, g.derive? ⟨none, false⟩ ax fuel = some (.ok d) → ∀ limit recording fuel',
      (d.steps ≤ limit → g.derive? ⟨some limit, recording⟩ ax fuel' =
        some (.ok (d.withRecord (g.recordAfter ax recording d.steps)))) ∧
      (limit < d.steps → g.derive? ⟨some limit, recording⟩ ax fuel' =
        some (.error (.limitExceeded limit)))) ∧
    (∀ fuel e, g.derive? ⟨none, false⟩ ax fuel = some (.error e) →
      ∃ k, g.advance fuel 0 (.start ax false) = .failed e k ∧ ∀ limit recording fuel',
        (k ≤ limit → g.derive? ⟨some limit, recording⟩ ax fuel' = some (.error e)) ∧
        (limit < k → g.derive? ⟨some limit, recording⟩ ax fuel' =
          some (.error (.limitExceeded limit)))) ∧
    ((∀ fuel, g.derive? ⟨none, false⟩ ax fuel = none) → ∀ limit recording fuel',
      g.derive? ⟨some limit, recording⟩ ax fuel' = some (.error (.limitExceeded limit))) ∧
    ∀ limit recording fuel, g.derive? ⟨limit, recording⟩ ax fuel =
      (g.derive? ⟨limit, false⟩ ax fuel).map
        (·.map fun d => d.withRecord (g.recordAfter ax recording d.steps)) := by
  have hexceeded {limit : Nat} {recording : Bool} {fuel : Nat}
      (h : ∃ st, g.advance limit 0 (.start ax false) = .suspended st limit) :
      g.derive? ⟨some limit, recording⟩ ax fuel = some (.error (.limitExceeded limit)) := by
    obtain ⟨st, hst⟩ := h
    rw [derive?_recording, derive?_of_suspended ⟨some limit, false⟩ hst]
    rfl
  refine ⟨fun fuel d hd limit recording fuel' => ?_, fun fuel e he => ?_,
    fun hnone limit recording fuel' => hexceeded ?_, fun limit recording fuel => derive?_recording⟩
  · obtain ⟨c, hadv, hdc⟩ := derive?_eq_ok hd
    obtain ⟨hle, hlt⟩ := advance_of_finished limit hadv
    refine ⟨fun hl => ?_, fun hl => hexceeded (hlt hl)⟩
    rw [derive?_recording, derive?_of_finished ⟨some limit, false⟩ (hle hl), ← hdc]
    rfl
  · rcases derive?_eq_error he with ⟨k, hadv⟩ | ⟨l, hl, -⟩
    · refine ⟨k, hadv, fun limit recording fuel' => ?_⟩
      obtain ⟨hle, hlt⟩ := advance_of_failed limit hadv
      refine ⟨fun hl => ?_, fun hl => hexceeded (hlt hl)⟩
      rw [derive?_recording, derive?_of_failed ⟨some limit, false⟩ (hle hl)]
      rfl
    · cases hl
  · have hrun := hnone limit
    cases hadv : g.advance limit 0 (.start ax false) with
    | finished c k =>
      rw [derive?_of_finished ⟨none, false⟩ hadv] at hrun
      cases hrun
    | failed e k =>
      rw [derive?_of_failed ⟨none, false⟩ hadv] at hrun
      cases hrun
    | suspended st k =>
      obtain ⟨hk, -⟩ := advance_eq_suspended.mp hadv
      obtain rfl : k = limit := by omega
      exact ⟨st, rfl⟩

/-- A wheel that turns for ever. -/
def treadmill : Grammar Float32 := ⟨[.rule ⟨"wheel", [.symbol "wheel"]⟩]⟩

theorem derive?_treadmill (fuel : Nat) (shape : Shape Float32) :
    treadmill.derive? ⟨none, false⟩ ⟨"wheel", shape⟩ fuel = none := by
  cases fuel with
  | zero => rfl
  | succ fuel =>
    let turning : State Float32 := ⟨⟨[.symbol "wheel"], [], []⟩, (Scene.empty false).push shape⟩
    have hstart : treadmill.advance (fuel + 1) 0 (.start ⟨"wheel", shape⟩ false) =
        treadmill.advance fuel 1 turning := rfl
    have hturn : treadmill.step turning = some (.ok turning) := rfl
    rw [derive?, Option.getD_none, hstart, advance_of_loop hturn]
    rfl

theorem config_truncates_and_records_halves :
    (∃ d, halves.derive? ⟨none, false⟩ ⟨"house", .unitBox⟩ 9 = some (.ok d) ∧
      halves.derive? ⟨some 8, true⟩ ⟨"house", .unitBox⟩ 0 =
        some (.ok (d.withRecord (halves.recordAfter ⟨"house", .unitBox⟩ true 8))) ∧
      halves.derive? ⟨some 7, true⟩ ⟨"house", .unitBox⟩ 0 = some (.error (.limitExceeded 7))) ∧
    (∃ e, halves.derive? ⟨none, false⟩ ⟨"ruin", .unitBox⟩ 9 = some (.error e) ∧
      halves.derive? ⟨some 2, true⟩ ⟨"ruin", .unitBox⟩ 0 = some (.error e) ∧
      halves.derive? ⟨some 1, true⟩ ⟨"ruin", .unitBox⟩ 0 = some (.error (.limitExceeded 1))) ∧
    (∀ fuel, treadmill.derive? ⟨none, false⟩ ⟨"wheel", .unitBox⟩ fuel = none) ∧
    treadmill.derive? ⟨some 5, true⟩ ⟨"wheel", .unitBox⟩ 0 = some (.error (.limitExceeded 5)) := by
  obtain ⟨hhouse, -⟩ := config_truncates_and_records halves ⟨"house", .unitBox⟩
  obtain ⟨-, hruin, -⟩ := config_truncates_and_records halves ⟨"ruin", .unitBox⟩
  obtain ⟨-, -, hwheel, -⟩ := config_truncates_and_records treadmill ⟨"wheel", .unitBox⟩
  have hnone (fuel : Nat) : treadmill.derive? ⟨none, false⟩ ⟨"wheel", .unitBox⟩ fuel = none :=
    derive?_treadmill fuel .unitBox
  refine ⟨?_, ?_, hnone, hwheel hnone 5 true 0⟩
  · obtain ⟨d, hd, hsteps⟩ : ∃ d, halves.derive? ⟨none, false⟩ ⟨"house", .unitBox⟩ 9 = some (.ok d) ∧
        d.steps = 8 := ⟨_, rfl, rfl⟩
    obtain ⟨hle, -⟩ := hhouse 9 d hd 8 true 0
    obtain ⟨-, hlt⟩ := hhouse 9 d hd 7 true 0
    rw [hsteps] at hle hlt
    exact ⟨d, hd, hle (by decide), hlt (by decide)⟩
  · obtain ⟨e, he, hfailed⟩ : ∃ e, halves.derive? ⟨none, false⟩ ⟨"ruin", .unitBox⟩ 9 = some (.error e) ∧
        halves.advance 9 0 (.start ⟨"ruin", .unitBox⟩ false) = .failed e 2 := ⟨_, rfl, rfl⟩
    obtain ⟨k, hk, hlimits⟩ := hruin 9 e he
    rw [hfailed] at hk
    cases hk
    obtain ⟨hle, -⟩ := hlimits 2 true 0
    obtain ⟨-, hlt⟩ := hlimits 1 true 0
    exact ⟨e, he, hle (by decide), hlt (by decide)⟩

end Grammar
end ShapeGrammar
