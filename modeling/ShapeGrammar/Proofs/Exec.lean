import ShapeGrammar.Proofs.Step

/-! Derivations as sequences of steps. Work that waits behind all the rest does not disturb the
steps before it, so a derivation of two lists of successors is one of the first followed by one of
the second. -/
namespace ShapeGrammar

namespace Agenda
variable {σ τ : Type}

def queue (a : Agenda σ) (later : List σ) : Agenda σ := { a with waiting := a.waiting ++ later }

theorem next?_queue {a b : Agenda σ} {s : σ} (later : List σ) (h : a.next? = some (s, b)) :
    (a.queue later).next? = some (s, b.queue later) := by
  rcases a with ⟨_ | ⟨t, body⟩, yielded, waiting⟩
  · rcases hw : yielded ++ waiting with _ | ⟨t, ts⟩
    · simp [next?, hw] at h
    · obtain ⟨rfl, rfl⟩ : t = s ∧ ofList ts = b := by simpa [next?, hw] using h
      have hq : yielded ++ (waiting ++ later) = t :: (ts ++ later) := by simp [← List.append_assoc, hw]
      simp [next?, queue, ofList, hq]
  · obtain ⟨rfl, rfl⟩ : t = s ∧ ⟨body, yielded, waiting⟩ = b := by simpa [next?] using h
    rfl

def map (f : σ → τ) (a : Agenda σ) : Agenda τ :=
  ⟨a.body.map f, a.yielded.map f, a.waiting.map f⟩

theorem next?_map (f : σ → τ) (a : Agenda σ) :
    (a.map f).next? = a.next?.map fun p => (f p.1, p.2.map f) := by
  rcases a with ⟨_ | ⟨t, body⟩, yielded, waiting⟩
  · rcases hw : yielded ++ waiting with _ | ⟨t, ts⟩
    · simp [next?, map, ← List.map_append, hw]
    · simp [next?, map, ofList, ← List.map_append, hw]
  · rfl

theorem map_unfold (f : σ → τ) (a : Agenda σ) (body : List σ) :
    (a.unfold body).map f = (a.map f).unfold (body.map f) := by
  simp [map, unfold]

theorem map_yield (f : σ → τ) (a : Agenda σ) (ys : List σ) :
    (a.yield ys).map f = (a.map f).yield (ys.map f) := by
  simp [map, yield]

theorem eq_ofList_nil_iff (a : Agenda σ) : a = ofList [] ↔ a.next? = none := by
  rw [next?_eq_none_iff]
  rcases a with ⟨body, yielded, waiting⟩
  simp [toList, ofList]

end Agenda

variable {α : Type}

def State.queue (st : State α) (later : List (Successor α)) : State α :=
  ⟨st.agenda.queue later, st.scene⟩

variable [Scalar α] [Numeral α]

/-- `n` steps in a row, none of which fails. -/
inductive Grammar.Exec (g : Grammar α) : State α → Nat → State α → Prop
  | refl (a) : Exec g a 0 a
  | succ {a b c n} : g.step a = some (.ok b) → Exec g b n c → Exec g a (n + 1) c

namespace Grammar
variable {g : Grammar α} {a b c : State α} {k m : Nat}

theorem Exec.trans (hab : g.Exec a k b) (hbc : g.Exec b m c) : g.Exec a (k + m) c := by
  induction hab with
  | refl => simpa using hbc
  | succ hs ht ih =>
    rw [Nat.add_right_comm]
    exact .succ hs (ih hbc)

theorem Exec.single (hs : g.step a = some (.ok b)) : g.Exec a 1 b := .succ hs (.refl b)

theorem Exec.split {j : Nat} (h : g.Exec a k b) (hj : j ≤ k) : ∃ c, g.Exec a j c ∧ g.Exec c (k - j) b := by
  induction h generalizing j with
  | refl a =>
    obtain rfl : j = 0 := by omega
    exact ⟨a, .refl a, .refl a⟩
  | @succ a c b k hs ht ih =>
    cases j with
    | zero => exact ⟨a, .refl a, .succ hs ht⟩
    | succ j =>
      obtain ⟨x, hx, hxb⟩ := ih (Nat.le_of_succ_le_succ hj)
      refine ⟨x, .succ hs hx, ?_⟩
      rwa [Nat.add_sub_add_right]

theorem Exec.invariant {P : State α → Prop} (hstep : ∀ x y, P x → g.step x = some (.ok y) → P y)
    (h : g.Exec a k b) (ha : P a) : P b := by
  induction h with
  | refl => exact ha
  | succ hs ht ih => exact ih (hstep _ _ ha hs)

theorem perform_queue (s : Successor α) (agenda : Agenda (Successor α)) (scene : Scene α)
    (later : List (Successor α)) :
    g.perform s (agenda.queue later) scene = (g.perform s agenda scene).map (·.queue later) := by
  cases hb : g.body? s with
  | some b =>
    rw [perform_of_body hb, perform_of_body hb]
    rfl
  | none =>
    cases ha : g.act s scene with
    | error e =>
      rw [perform_of_act_error hb ha, perform_of_act_error hb ha]
      rfl
    | ok p =>
      rw [perform_of_act hb ha, perform_of_act hb ha]
      rfl

theorem step_queue {r : Except Error (State α)} (later : List (Successor α)) (hs : g.step a = some r) :
    g.step (a.queue later) = some (r.map (·.queue later)) := by
  obtain ⟨s, agenda, hn, hp⟩ := step_cases hs
  have hq : (a.queue later).agenda.next? = some (s, agenda.queue later) := Agenda.next?_queue later hn
  rw [step_of_next? hq, ← hp]
  exact congrArg some (perform_queue s agenda a.scene later)

theorem Exec.queue (later : List (Successor α)) (h : g.Exec a k b) :
    g.Exec (a.queue later) k (b.queue later) := by
  induction h with
  | refl => exact .refl _
  | succ hs ht ih => exact .succ (step_queue later hs) ih

/-- Between two bodies it does not count which successors were yielded and which waited before. -/
theorem step_congr {ys w : List (Successor α)} {scene : Scene α} :
    g.step ⟨⟨[], ys, w⟩, scene⟩ = g.step ⟨.ofList (ys ++ w), scene⟩ := by
  simp [step, Agenda.next?, Agenda.ofList]

theorem step_singleton {s : Successor α} {w : List (Successor α)} {scene : Scene α} :
    g.step ⟨⟨[s], [], w⟩, scene⟩ = g.step ⟨.ofList (s :: w), scene⟩ := rfl

theorem advance_of_none {fuel n : Nat} (hs : g.step a = none) :
    g.advance fuel n a = .finished a.scene n := by
  cases fuel with
  | zero => rw [advance, step_eq_none.mp hs]
  | succ fuel => rw [advance, hs]

theorem advance_of_error {fuel n : Nat} {e : Error} (hs : g.step a = some (.error e)) :
    g.advance (fuel + 1) n a = .failed e (n + 1) := by
  rw [advance, hs]

theorem advance_of_ok {fuel n : Nat} (hs : g.step a = some (.ok b)) :
    g.advance (fuel + 1) n a = g.advance fuel (n + 1) b := by
  rw [advance, hs]

theorem Exec.advance (h : g.Exec a k b) (fuel n : Nat) :
    g.advance (k + fuel) n a = g.advance fuel (n + k) b := by
  induction h generalizing n with
  | refl => simp
  | @succ x y z k hs ht ih =>
    rw [show k + 1 + fuel = k + fuel + 1 by omega, advance_of_ok hs, ih, show n + 1 + k = n + (k + 1) by omega]

theorem advance_eq_finished {fuel n : Nat} {scene : Scene α} :
    g.advance fuel n a = .finished scene m ↔
      ∃ k ≤ fuel, m = n + k ∧ g.Exec a k ⟨.ofList [], scene⟩ := by
  constructor
  · intro h
    induction fuel generalizing n a with
    | zero =>
      rw [advance] at h
      split at h
      · next hn =>
        cases h
        refine ⟨0, Nat.le_refl 0, rfl, ?_⟩
        rw [← (Agenda.eq_ofList_nil_iff _).mpr hn]
        exact .refl a
      · cases h
    | succ fuel ih =>
      rcases hs : g.step a with _ | e | b
      · rw [advance_of_none hs] at h
        cases h
        refine ⟨0, by omega, rfl, ?_⟩
        rw [← (Agenda.eq_ofList_nil_iff _).mpr (step_eq_none.mp hs)]
        exact .refl a
      · rw [advance_of_error hs] at h
        cases h
      · rw [advance_of_ok hs] at h
        obtain ⟨k, hk, hm, he⟩ := ih h
        exact ⟨k + 1, by omega, by omega, .succ hs he⟩
  · rintro ⟨k, hk, rfl, he⟩
    obtain ⟨rest, rfl⟩ := Nat.exists_eq_add_of_le hk
    rw [he.advance]
    exact advance_of_none rfl

theorem advance_eq_failed {fuel n : Nat} {e : Error} :
    g.advance fuel n a = .failed e m ↔
      ∃ k b, k < fuel ∧ m = n + k + 1 ∧ g.Exec a k b ∧ g.step b = some (.error e) := by
  constructor
  · intro h
    induction fuel generalizing n a with
    | zero =>
      rw [advance] at h
      split at h <;> cases h
    | succ fuel ih =>
      rcases hs : g.step a with _ | e' | b
      · rw [advance_of_none hs] at h
        cases h
      · rw [advance_of_error hs] at h
        cases h
        exact ⟨0, a, by omega, rfl, .refl a, hs⟩
      · rw [advance_of_ok hs] at h
        obtain ⟨k, b', hk, hm, he, hb⟩ := ih h
        exact ⟨k + 1, b', by omega, by omega, .succ hs he, hb⟩
  · rintro ⟨k, b, hk, rfl, he, hb⟩
    obtain ⟨rest, rfl⟩ := Nat.exists_eq_add_of_lt hk
    rw [Nat.add_assoc, he.advance]
    exact advance_of_error hb

theorem advance_eq_suspended {fuel n : Nat} :
    g.advance fuel n a = .suspended b m ↔ m = n + fuel ∧ g.Exec a fuel b ∧ g.step b ≠ none := by
  constructor
  · intro h
    induction fuel generalizing n a with
    | zero =>
      rw [advance] at h
      split at h
      · cases h
      · next hn =>
        cases h
        exact ⟨rfl, .refl _, by simp [step_eq_none, hn]⟩
    | succ fuel ih =>
      rcases hs : g.step a with _ | e | b'
      · rw [advance_of_none hs] at h
        cases h
      · rw [advance_of_error hs] at h
        cases h
      · rw [advance_of_ok hs] at h
        obtain ⟨hm, he, hb⟩ := ih h
        exact ⟨by omega, .succ hs he, hb⟩
  · rintro ⟨rfl, he, hb⟩
    have h := he.advance 0 n
    rw [Nat.add_zero, advance] at h
    split at h
    · next hn => exact absurd (step_eq_none.mpr hn) hb
    · exact h

/-- Whether a test holds at all states of a run that comes to its end in fewer than `n` steps. -/
def always (g : Grammar α) (test : State α → Bool) : Nat → State α → Bool
  | 0, _ => false
  | n + 1, a =>
    test a && match g.step a with
      | some (.ok b) => g.always test n b
      | _ => true

theorem Exec.of_always {test : State α → Bool} (hx : g.Exec a k b) {n : Nat}
    (h : g.always test n a = true) : test b = true := by
  induction hx generalizing n with
  | refl a =>
    cases n with
    | zero => cases h
    | succ n => exact (Bool.and_eq_true_iff.mp h).1
  | succ hs _ ih =>
    cases n with
    | zero => cases h
    | succ n =>
      rw [always, hs] at h
      exact ih (Bool.and_eq_true_iff.mp h).2

/-- The successors that the next `n` steps come to, in order; one that fails is the last. -/
def visits (g : Grammar α) : Nat → State α → List (Successor α)
  | 0, _ => []
  | n + 1, a =>
    match a.agenda.next? with
    | none => []
    | some (s, agenda) =>
      match g.perform s agenda a.scene with
      | .ok b => s :: g.visits n b
      | .error _ => [s]

section Visits
variable {s : Successor α} {agenda : Agenda (Successor α)}

theorem visits_of_ok (hn : a.agenda.next? = some (s, agenda)) (hp : g.perform s agenda a.scene = .ok b)
    (n : Nat) : g.visits (n + 1) a = s :: g.visits n b := by
  simp only [visits, hn, hp]

theorem visits_of_error {e : Error} (hn : a.agenda.next? = some (s, agenda))
    (hp : g.perform s agenda a.scene = .error e) (n : Nat) : g.visits (n + 1) a = [s] := by
  simp only [visits, hn, hp]

theorem visits_one (hn : a.agenda.next? = some (s, agenda)) : g.visits 1 a = [s] := by
  simp only [visits, hn]
  cases g.perform s agenda a.scene <;> rfl

theorem visits_of_none (hn : a.agenda.next? = none) (n : Nat) : g.visits n a = [] := by
  cases n with
  | zero => rfl
  | succ n => simp only [visits, hn]

theorem visits_congr (hn : a.agenda.next? = b.agenda.next?) (hc : a.scene = b.scene) (n : Nat) :
    g.visits n a = g.visits n b := by
  cases n with
  | zero => rfl
  | succ n => simp only [visits, hn, hc]

end Visits

/-- How a run goes on, of which so much is known, when more work waits behind it. -/
def resume (g : Grammar α) (later : List (Successor α)) (fuel n : Nat) : Progress α → Progress α
  | .finished scene m => g.advance (fuel - (m - n)) m ⟨.ofList later, scene⟩
  | .failed e m => .failed e m
  | .suspended st m => .suspended (st.queue later) m

theorem advance_queue (later : List (Successor α)) (fuel n : Nat) (a : State α) :
    g.advance fuel n (a.queue later) = g.resume later fuel n (g.advance fuel n a) := by
  induction fuel generalizing n a with
  | zero =>
    cases hn : a.agenda.next? with
    | none =>
      have ha : a.queue later = ⟨.ofList later, a.scene⟩ := by
        rw [State.queue, (Agenda.eq_ofList_nil_iff _).mpr hn]
        rfl
      rw [ha, advance_of_none (step_eq_none.mpr hn), resume, Nat.sub_self, Nat.sub_self]
    | some p =>
      have hq : (a.queue later).agenda.next? = some (p.1, p.2.queue later) := Agenda.next?_queue later hn
      simp only [advance, hn, hq, resume]
  | succ fuel ih =>
    rcases hs : g.step a with _ | e | b
    · have ha : a.queue later = ⟨.ofList later, a.scene⟩ := by
        rw [State.queue, (Agenda.eq_ofList_nil_iff _).mpr (step_eq_none.mp hs)]
        rfl
      rw [ha, advance_of_none hs, resume, Nat.sub_self, Nat.sub_zero]
    · have hq : g.step (a.queue later) = some (.error e) := step_queue later hs
      rw [advance_of_error hs, advance_of_error hq, resume]
    · have hq : g.step (a.queue later) = some (.ok (b.queue later)) := step_queue later hs
      rw [advance_of_ok hs, advance_of_ok hq, ih]
      cases hb : g.advance fuel (n + 1) b with
      | failed e m => rfl
      | suspended st m => rfl
      | finished scene m =>
        obtain ⟨k, -, rfl, -⟩ := advance_eq_finished.mp hb
        simp only [resume]
        congr 1
        omega

end Grammar
end ShapeGrammar
