import ShapeGrammar.Proofs.Exec

/-! How derivations end. A run ends when no work is left, at the first error or where its limit
breaks it off; one that does none of this has no ending. The fuel of a derivation without a limit
only has to suffice. -/
namespace ShapeGrammar
variable {α β σ : Type}

/-- How a stretch of a derivation ends: with a value and the scene reached, or with an error; and
how many steps the whole derivation has done by then. -/
inductive Ending (α β : Type)
  | reached (value : β) (scene : Scene α) (steps : Nat)
  | broken (error : Error) (steps : Nat)

namespace Ending

def answer : Ending α Unit → Except Error (Derivation α)
  | reached _ scene steps => .ok ⟨scene.finished.toList, scene.record.toList, steps⟩
  | broken e _ => .error e

def yielding (ys : List σ) : Ending α (List σ) → Ending α (List σ)
  | reached zs scene steps => reached (ys ++ zs) scene steps
  | broken e steps => broken e steps

/-- An ending of the whole after a stretch that ends like this; nothing follows an error. -/
def Leads (next : β → Scene α → Nat → Ending α Unit → Prop) : Ending α β → Ending α Unit → Prop
  | reached v scene steps, e => next v scene steps e
  | broken err steps, e => e = broken err steps

theorem leads_yielding (next : List σ → Scene α → Nat → Ending α Unit → Prop) (ys : List σ)
    (r : Ending α (List σ)) (e : Ending α Unit) :
    (r.yielding ys).Leads next e ↔ r.Leads (fun zs => next (ys ++ zs)) e := by
  cases r <;> rfl

end Ending

/-- Whether a limit lets another step begin after `n` of them. -/
def Permits (limit : Option Nat) (n : Nat) : Prop := ∀ l, limit = some l → n < l

def room (limit : Option Nat) (n fuel : Nat) : Nat :=
  match limit with
  | some l => l - n
  | none => fuel

namespace Progress

def ending? (limit : Option Nat) : Progress α → Option (Ending α Unit)
  | finished scene steps => some (.reached () scene steps)
  | failed e steps => some (.broken e steps)
  | suspended _ steps => limit.map fun l => .broken (.limitExceeded l) steps

theorem answer?_eq_map (limit : Option Nat) (p : Progress α) :
    p.answer? limit = (p.ending? limit).map Ending.answer := by
  cases p with
  | suspended st steps => cases limit <;> rfl
  | _ => rfl

end Progress

variable [Scalar α] [Numeral α]

/-- A run from a state at which `n` steps are done. -/
inductive Grammar.Ends (g : Grammar α) (limit : Option Nat) : State α → Nat → Ending α Unit → Prop
  | done {a n} : g.step a = none → Ends g limit a n (.reached () a.scene n)
  | exceeded {a n l} : limit = some l → l ≤ n → g.step a ≠ none →
      Ends g limit a n (.broken (.limitExceeded l) n)
  | broken {a n err} : Permits limit n → g.step a = some (.error err) →
      Ends g limit a n (.broken err (n + 1))
  | step {a b n e} : Permits limit n → g.step a = some (.ok b) → Ends g limit b (n + 1) e →
      Ends g limit a n e

namespace Grammar
variable {g : Grammar α} {limit : Option Nat} {a b : State α} {n : Nat} {e : Ending α Unit}

theorem Ends.congr (hs : g.step a = g.step b) (hc : a.scene = b.scene) (h : g.Ends limit a n e) :
    g.Ends limit b n e := by
  cases h with
  | done h =>
    rw [hc]
    exact .done (hs ▸ h)
  | exceeded hl hn h => exact .exceeded hl hn (hs ▸ h)
  | broken hn h => exact .broken hn (hs ▸ h)
  | step hn h ht => exact .step hn (hs ▸ h) ht

theorem permits_none (n : Nat) : Permits none n := fun l hl => by cases hl

theorem Exec.ends {k : Nat} (hx : g.Exec a k b) (h : g.Ends none b (n + k) e) : g.Ends none a n e := by
  induction hx generalizing n with
  | refl => exact h
  | @succ a c b k hs ht ih =>
    refine .step (permits_none n) hs (ih ?_)
    rwa [Nat.add_right_comm, Nat.add_assoc]

theorem room_of_permits (hn : Permits limit n) (fuel : Nat) :
    room limit n (fuel + 1) = room limit (n + 1) fuel + 1 := by
  cases limit with
  | none => rfl
  | some l =>
    have := hn l rfl
    simp only [room]
    omega

theorem exists_fuel_of_ends (h : g.Ends limit a n e) :
    ∃ fuel, (g.advance (room limit n fuel) n a).ending? limit = some e := by
  induction h with
  | done h => exact ⟨0, by rw [advance_of_none h]; rfl⟩
  | @exceeded a n l hl hn h =>
    subst hl
    refine ⟨0, ?_⟩
    rw [room, Nat.sub_eq_zero_of_le hn, advance]
    cases ha : a.agenda.next? with
    | none => exact absurd (step_eq_none.mpr ha) h
    | some p => rfl
  | broken hn h => exact ⟨1, by rw [room_of_permits hn, advance_of_error h]; rfl⟩
  | step hn h ht ih =>
    obtain ⟨fuel, hf⟩ := ih
    exact ⟨fuel + 1, by rw [room_of_permits hn, advance_of_ok h, hf]⟩

theorem ends_of_advance {fuel : Nat} (hr : ∀ l, limit = some l → fuel = l - n)
    (h : (g.advance fuel n a).ending? limit = some e) : g.Ends limit a n e := by
  induction fuel generalizing n a with
  | zero =>
    cases hs : g.step a with
    | none =>
      rw [advance_of_none hs] at h
      cases h
      exact .done hs
    | some r =>
      obtain ⟨s, agenda, hn, -⟩ := step_cases hs
      obtain ⟨l, rfl⟩ : ∃ l, limit = some l := by
        cases limit with
        | none => simp [advance, hn, Progress.ending?] at h
        | some l => exact ⟨l, rfl⟩
      obtain rfl : .broken (.limitExceeded l) n = e := by
        simpa [advance, hn, Progress.ending?] using h
      exact .exceeded rfl (by have := hr l rfl; omega) (by simp [hs])
  | succ fuel ih =>
    have hn : Permits limit n := fun l hl => by have := hr l hl; omega
    rcases hs : g.step a with _ | err | b
    · rw [advance_of_none hs] at h
      cases h
      exact .done hs
    · rw [advance_of_error hs] at h
      cases h
      exact .broken hn hs
    · rw [advance_of_ok hs] at h
      exact .step hn hs (ih (fun l hl => by have := hr l hl; omega) h)

theorem ends_iff : g.Ends limit a n e ↔
    ∃ fuel, (g.advance (room limit n fuel) n a).ending? limit = some e := by
  refine ⟨exists_fuel_of_ends, fun ⟨fuel, h⟩ => ends_of_advance (fun l hl => ?_) h⟩
  subst hl
  rfl

theorem ends_reached_iff {c : Scene α} {m : Nat} :
    g.Ends none a n (.reached () c m) ↔ ∃ fuel, g.advance fuel n a = .finished c m := by
  rw [ends_iff]
  refine exists_congr fun fuel => ?_
  rw [room]
  cases g.advance fuel n a <;> simp [Progress.ending?]

theorem ends_broken_iff {err : Error} {m : Nat} :
    g.Ends none a n (.broken err m) ↔ ∃ fuel, g.advance fuel n a = .failed err m := by
  rw [ends_iff]
  refine exists_congr fun fuel => ?_
  rw [room]
  cases g.advance fuel n a <;> simp [Progress.ending?]

/-- A derivation has an answer just if its run has an ending. -/
theorem derive?_eq_some_iff (config : Config) (ax : Axiom α) (r : Except Error (Derivation α)) :
    (∃ fuel, g.derive? config ax fuel = some r) ↔
      ∃ e, g.Ends config.limit (.start ax config.recording) 0 e ∧ e.answer = r := by
  have hd (fuel : Nat) : g.derive? config ax fuel =
      ((g.advance (room config.limit 0 fuel) 0 (.start ax config.recording)).ending? config.limit).map
        Ending.answer := by
    rw [derive?, Progress.answer?_eq_map]
    cases config.limit <;> rfl
  constructor
  · rintro ⟨fuel, hf⟩
    rw [hd, Option.map_eq_some_iff] at hf
    obtain ⟨e, he, hr⟩ := hf
    exact ⟨e, ends_iff.mpr ⟨fuel, he⟩, hr⟩
  · rintro ⟨e, he, rfl⟩
    obtain ⟨fuel, hf⟩ := ends_iff.mp he
    exact ⟨fuel, by rw [hd, hf]; rfl⟩

section Answer
variable {ax : Axiom α} {fuel k : Nat}

theorem derive?_of_finished (config : Config) {c : Scene α}
    (h : g.advance (config.limit.getD fuel) 0 (.start ax config.recording) = .finished c k) :
    g.derive? config ax fuel = some (.ok ⟨c.finished.toList, c.record.toList, k⟩) := by
  rw [derive?, h]
  rfl

theorem derive?_of_failed (config : Config) {err : Error}
    (h : g.advance (config.limit.getD fuel) 0 (.start ax config.recording) = .failed err k) :
    g.derive? config ax fuel = some (.error err) := by
  rw [derive?, h]
  rfl

theorem derive?_of_suspended (config : Config) {st : State α}
    (h : g.advance (config.limit.getD fuel) 0 (.start ax config.recording) = .suspended st k) :
    g.derive? config ax fuel = config.limit.map fun l => .error (.limitExceeded l) := by
  rw [derive?, h]
  rfl

end Answer

theorem derive?_eq_ok {config : Config} {ax : Axiom α} {fuel : Nat} {d : Derivation α}
    (h : g.derive? config ax fuel = some (.ok d)) :
    ∃ c, g.advance (config.limit.getD fuel) 0 (.start ax config.recording) = .finished c d.steps ∧
      d = ⟨c.finished.toList, c.record.toList, d.steps⟩ := by
  rw [derive?] at h
  cases hadv : g.advance (config.limit.getD fuel) 0 (.start ax config.recording) with
  | finished c m =>
    rw [hadv] at h
    cases h
    exact ⟨c, rfl, rfl⟩
  | failed err m => rw [hadv] at h; cases h
  | suspended st m =>
    rw [hadv, Progress.answer?] at h
    obtain ⟨l, -, he⟩ := Option.map_eq_some_iff.mp h
    cases he

theorem exec_of_derive? {config : Config} {ax : Axiom α} {fuel : Nat} {d : Derivation α}
    (h : g.derive? config ax fuel = some (.ok d)) :
    ∃ c, g.Exec (.start ax config.recording) d.steps ⟨.ofList [], c⟩ ∧
      d = ⟨c.finished.toList, c.record.toList, d.steps⟩ := by
  obtain ⟨c, hadv, hd⟩ := derive?_eq_ok h
  obtain ⟨k, -, hk, hx⟩ := advance_eq_finished.mp hadv
  obtain rfl : d.steps = k := hk.trans (Nat.zero_add k)
  exact ⟨c, hx, hd⟩

theorem exists_derive?_of_map {β : Type} (g : Grammar α) (config : Config) (ax : Axiom α) (fuel : Nat)
    (f : Derivation α → β) (r : β) (h : (g.derive? config ax fuel).map (Except.map f) = some (.ok r)) :
    ∃ d, g.derive? config ax fuel = some (.ok d) ∧ f d = r := by
  obtain ⟨x, hx, hr⟩ := Option.map_eq_some_iff.mp h
  obtain ⟨d, rfl, hd⟩ := map_eq_ok.mp hr
  exact ⟨d, hx, hd⟩

theorem derive?_eq_error {config : Config} {ax : Axiom α} {fuel : Nat} {err : Error}
    (h : g.derive? config ax fuel = some (.error err)) :
    (∃ m, g.advance (config.limit.getD fuel) 0 (.start ax config.recording) = .failed err m) ∨
      ∃ l, config.limit = some l ∧ err = .limitExceeded l := by
  rw [derive?] at h
  cases hadv : g.advance (config.limit.getD fuel) 0 (.start ax config.recording) with
  | finished c m => rw [hadv] at h; cases h
  | failed err' m =>
    rw [hadv] at h
    cases h
    exact .inl ⟨m, rfl⟩
  | suspended st m =>
    rw [hadv, Progress.answer?] at h
    obtain ⟨l, hl, he⟩ := Option.map_eq_some_iff.mp h
    cases he
    exact .inr ⟨l, hl, rfl⟩

end Grammar
end ShapeGrammar
