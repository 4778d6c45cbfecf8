import ShapeGrammar.Binary32
import ShapeGrammar.Proofs.Exec

/-! What a derivation does not touch. It never looks below the shapes it was given, nor at the
current shape, the finished shapes or the record that it finds: on top of other shapes and with
another history it goes the same way, unless it runs out of shapes of its own. -/
namespace ShapeGrammar
variable {α : Type}

/-- The same open shapes on top of others and with another history. -/
def Scene.onto (c : Scene α) (rest : List (Shape α)) (current : Option (Shape α))
    (finished record : Array (Shape α)) : Scene α :=
  { stack := c.stack ++ rest, current, finished, recording := c.recording, record }

variable [Scalar α]

namespace Grammar
variable {g : Grammar α} {s : Successor α} {c d : Scene α} {rest : List (Shape α)} {e : Error}

theorem act_over {ys : List (Successor α)} {c' : Scene α} (hd : d.stack = c.stack ++ rest)
    (ha : g.act s c = .ok (ys, c')) :
    ∃ d' fs ps, g.act s d = .ok (ys, d') ∧ d'.stack = c'.stack ++ rest ∧
      c.Adds fs ps c' ∧ d.Adds fs ps d' := by
  obtain ⟨h, below, o, hc, ho, rfl, ht⟩ := exists_treat_of_act ha
  rw [hc, List.cons_append] at hd
  obtain ⟨d', ha', ht'⟩ := act_of_treat hd ho
  refine ⟨d', _, _, ha', ?_, ht.toAdds, ht'.toAdds⟩
  rw [ht'.stack, ht.stack, List.append_assoc]

theorem act_error_over (hd : d.stack = c.stack ++ rest) (ha : g.act s c = .error e)
    (he : e ≠ .emptyStack) : g.act s d = .error e := by
  rcases act_error_cases ha with ⟨-, rfl⟩ | ⟨h, below, hc, ho⟩
  · exact absurd rfl he
  · rw [hc, List.cons_append] at hd
    exact act_of_treat_error hd ho

variable [Numeral α] {a b : State α} {k : Nat}

theorem step_over (hd : d.stack = a.scene.stack ++ rest) (hs : g.step a = some (.ok b)) :
    ∃ d' fs ps, g.step ⟨a.agenda, d⟩ = some (.ok ⟨b.agenda, d'⟩) ∧ d'.stack = b.scene.stack ++ rest ∧
      a.scene.Adds fs ps b.scene ∧ d.Adds fs ps d' := by
  obtain ⟨s, agenda, hn, hp⟩ := step_cases hs
  have hstep : g.step ⟨a.agenda, d⟩ = some (g.perform s agenda d) := step_of_next? hn
  rcases perform_cases hp with ⟨body, hb, rfl⟩ | ⟨hb, ys, c', ha, rfl⟩
  · exact ⟨d, [], [], by rw [hstep, perform_of_body hb], hd, .refl _, .refl _⟩
  · obtain ⟨d', fs, ps, ha', hd', hc, hd''⟩ := act_over hd ha
    exact ⟨d', fs, ps, by rw [hstep, perform_of_act hb ha'], hd', hc, hd''⟩

theorem step_error_over (hd : d.stack = a.scene.stack ++ rest) (hs : g.step a = some (.error e))
    (he : e.root ≠ .emptyStack) : g.step ⟨a.agenda, d⟩ = some (.error e) := by
  obtain ⟨s, agenda, hn, hp⟩ := step_cases hs
  obtain ⟨hb, cause, ha, rfl⟩ := perform_error_cases hp
  have hcause : cause ≠ .emptyStack := by
    rintro rfl
    exact he rfl
  rw [show g.step ⟨a.agenda, d⟩ = some (g.perform s agenda d) from step_of_next? hn,
    perform_of_act_error hb (act_error_over hd ha hcause)]

theorem Exec.over (h : g.Exec a k b) (hd : d.stack = a.scene.stack ++ rest) :
    ∃ d' fs ps, g.Exec ⟨a.agenda, d⟩ k ⟨b.agenda, d'⟩ ∧ d'.stack = b.scene.stack ++ rest ∧
      a.scene.Adds fs ps b.scene ∧ d.Adds fs ps d' := by
  induction h generalizing d with
  | refl a => exact ⟨d, [], [], .refl _, hd, .refl _, .refl _⟩
  | succ hs ht ih =>
    obtain ⟨d₁, fs, ps, hs', hd₁, hac, had⟩ := step_over hd hs
    obtain ⟨d₂, fs', ps', ht', hd₂, hcb, hdb⟩ := ih hd₁
    exact ⟨d₂, fs ++ fs', ps ++ ps', .succ hs' ht', hd₂, hac.trans hcb, had.trans hdb⟩

/-- A run on top of other shapes and with another history ends after the same number of steps, in
success with the same shapes left above the others and the same ones added to what was finished
and recorded before, or with the same error unless the run lacked a shape; and it is broken off
where the other is. -/
theorem advance_onto (g : Grammar α) (w : List (Successor α)) (c : Scene α) (rest : List (Shape α))
    (current : Option (Shape α)) (finished record : Array (Shape α)) (fuel n : Nat) :
    (∀ c' m, g.advance fuel n ⟨.ofList w, c⟩ = .finished c' m →
      ∃ d' fs ps, g.advance fuel n ⟨.ofList w, c.onto rest current finished record⟩ = .finished d' m ∧
        d'.stack = c'.stack ++ rest ∧
        c'.finished.toList = c.finished.toList ++ fs ∧ d'.finished.toList = finished.toList ++ fs ∧
        c'.record.toList = c.record.toList ++ ps ∧ d'.record.toList = record.toList ++ ps) ∧
    (∀ e m, g.advance fuel n ⟨.ofList w, c⟩ = .failed e m → e.root ≠ .emptyStack →
      g.advance fuel n ⟨.ofList w, c.onto rest current finished record⟩ = .failed e m) ∧
    (∀ st m, g.advance fuel n ⟨.ofList w, c⟩ = .suspended st m →
      ∃ d', g.advance fuel n ⟨.ofList w, c.onto rest current finished record⟩ =
        .suspended ⟨st.agenda, d'⟩ m ∧ d'.stack = st.scene.stack ++ rest) := by
  have hd : (c.onto rest current finished record).stack = c.stack ++ rest := rfl
  refine ⟨fun c' m h => ?_, fun e m h he => ?_, fun st m h => ?_⟩
  · obtain ⟨k, hk, hm, hx⟩ := advance_eq_finished.mp h
    obtain ⟨d', fs, ps, hx', hd', hc, hcd⟩ := hx.over hd
    exact ⟨d', fs, _, advance_eq_finished.mpr ⟨k, hk, hm, hx'⟩, hd', hc.finished, hcd.finished,
      hc.record, hcd.record⟩
  · obtain ⟨k, b, hk, hm, hx, hb⟩ := advance_eq_failed.mp h
    obtain ⟨d', fs, ps, hx', hd', -, -⟩ := hx.over hd
    exact advance_eq_failed.mpr ⟨k, _, hk, hm, hx', step_error_over hd' hb he⟩
  · obtain ⟨hm, hx, hb⟩ := advance_eq_suspended.mp h
    obtain ⟨d', fs, ps, hx', hd', -, -⟩ := hx.over hd
    refine ⟨d', advance_eq_suspended.mpr ⟨hm, hx', ?_⟩, hd'⟩
    rw [ne_eq, step_eq_none] at hb ⊢
    exact hb

def unity : Expr Float32 := .constant 1 .plain

def lift : Operation Float32 (Successor Float32) := .translate ⟨unity, unity, unity⟩

def halve : Operation Float32 (Successor Float32) := .split .x none (.ofItems
  [.step (.relative unity) (.symbol "left"), .step (.relative unity) (.symbol "right")])

def level : Operation Float32 (Successor Float32) := .scale ⟨unity, unity, unity⟩

def collapse : Operation Float32 (Successor Float32) :=
  .scale ⟨unity, unity, .binary .div unity (.constant 0 .plain) .plain⟩

/-- A house that is cut in two, and a ruin of an extent that has no value. -/
def halves : Grammar Float32 where
  statements :=
    [.rule ⟨"house", [.operation lift, .operation halve, .operation level]⟩,
      .rule ⟨"right", [.operation level, .symbol "wall"]⟩,
      .rule ⟨"ruin", [.operation collapse]⟩]

theorem advance_onto_halves :
    let c : Scene Float32 := (Scene.empty true).push .unitBox
    let d : Scene Float32 := c.onto [.unitQuad] (some .unitQuad) #[.unitQuad] #[]
    (∃ c' d', halves.advance 9 0 ⟨.ofList [.symbol "house"], c⟩ = .finished c' 8 ∧
      halves.advance 9 0 ⟨.ofList [.symbol "house"], d⟩ = .finished d' 8 ∧
      d'.stack = c'.stack ++ [.unitQuad]) ∧
    (∃ e, e.root ≠ .emptyStack ∧
      halves.advance 9 0 ⟨.ofList [.symbol "ruin"], c⟩ = .failed e 2 ∧
      halves.advance 9 0 ⟨.ofList [.symbol "ruin"], d⟩ = .failed e 2) ∧
    ∃ b d', halves.advance 2 0 ⟨.ofList [.symbol "house"], c⟩ = .suspended b 2 ∧
      halves.advance 2 0 ⟨.ofList [.symbol "house"], d⟩ = .suspended ⟨b.agenda, d'⟩ 2 := by
  intro c d
  have hhouse := advance_onto halves [.symbol "house"] c [.unitQuad] (some .unitQuad) #[.unitQuad] #[]
  have hruin := advance_onto halves [.symbol "ruin"] c [.unitQuad] (some .unitQuad) #[.unitQuad] #[]
  refine ⟨?_, ?_, ?_⟩
  · obtain ⟨c', hc⟩ : ∃ c', halves.advance 9 0 ⟨.ofList [.symbol "house"], c⟩ = .finished c' 8 :=
      ⟨_, rfl⟩
    obtain ⟨d', fs, ps, hd, hstack, -⟩ := (hhouse 9 0).1 c' 8 hc
    exact ⟨c', d', hc, hd, hstack⟩
  · obtain ⟨e, he, hroot⟩ : ∃ e, halves.advance 9 0 ⟨.ofList [.symbol "ruin"], c⟩ = .failed e 2 ∧
        e.root = .divisionByZero "division" := ⟨_, rfl, rfl⟩
    have hne : e.root ≠ .emptyStack := by rw [hroot]; decide
    exact ⟨e, hne, he, (hruin 9 0).2.1 e 2 he hne⟩
  · obtain ⟨b, hb⟩ : ∃ b, halves.advance 2 0 ⟨.ofList [.symbol "house"], c⟩ = .suspended b 2 :=
      ⟨_, rfl⟩
    obtain ⟨d', hd, -⟩ := (hhouse 2 0).2.2 b 2 hb
    exact ⟨b, d', hb, hd⟩

end Grammar
end ShapeGrammar
