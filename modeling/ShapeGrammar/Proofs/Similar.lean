import ShapeGrammar.Binary32
import ShapeGrammar.Proofs.Surface
import ShapeGrammar.Proofs.Translation

/-! Similar grammars. Grammars that differ in surface syntax alone derive the same from every axiom.
Their derivations go through the same scenes step by step; where they fail, the error names the
successor it was met at in other words. -/
namespace ShapeGrammar
variable {α : Type}

def State.bare (st : State α) : State α := ⟨st.agenda.map Successor.bare, st.scene⟩

namespace Grammar

def bare (g : Grammar α) : Grammar α := g.translate Successor.bare id

def Similar (g g' : Grammar α) : Prop := g.bare = g'.bare

theorem body?_bare (g : Grammar α) (s : Successor α) :
    g.bare.body? s.bare = (g.body? s).map (List.map Successor.bare) :=
  body?_translate id Successor.paraphrase_symbol (fun op => ⟨_, Successor.paraphrase_operation op⟩) g s

variable {g g' : Grammar α} {s s' : Successor α}

theorem body?_similar {b : List (Successor α)} (hg : g.Similar g') (hs : s.bare = s'.bare)
    (hb : g.body? s = some b) :
    ∃ b', g'.body? s' = some b' ∧ b.map Successor.bare = b'.map Successor.bare := by
  -- both bodies have the bare form of the body of `s.bare` in the bare grammar
  have h := body?_bare g s
  rw [hg, hs, body?_bare, hb, Option.map_some] at h
  obtain ⟨b', hb', hbare⟩ := Option.map_eq_some_iff.mp h
  exact ⟨b', hb', hbare.symm⟩

theorem body?_similar_none (hg : g.Similar g') (hs : s.bare = s'.bare) (hb : g.body? s = none) :
    g'.body? s' = none := by
  have h := body?_bare g s
  rw [hg, hs, body?_bare, hb, Option.map_none] at h
  exact Option.map_eq_none_iff.mp h

variable [Scalar α] {c : Scene α}

theorem act_bare (g : Grammar α) (s : Successor α) (c : Scene α) :
    g.bare.act s.bare c = (g.act s c).map fun p => (p.1.map Successor.bare, p.2) :=
  act_translate (Paraphrase.translates fun _ => Expr.eval_bare) g s c

theorem act_similar {ys : List (Successor α)} {d : Scene α} (hg : g.Similar g')
    (hs : s.bare = s'.bare) (ha : g.act s c = .ok (ys, d)) :
    ∃ ys', g'.act s' c = .ok (ys', d) ∧ ys.map Successor.bare = ys'.map Successor.bare := by
  have h := act_bare g s c
  rw [hg, hs, act_bare, ha] at h
  obtain ⟨⟨ys', d'⟩, ha', hbare⟩ := map_eq_ok.mp h
  obtain ⟨hys, rfl⟩ : ys'.map Successor.bare = ys.map Successor.bare ∧ d' = d := by simpa using hbare
  exact ⟨ys', ha', hys.symm⟩

theorem act_similar_error {e : Error} (hg : g.Similar g') (hs : s.bare = s'.bare)
    (ha : g.act s c = .error e) : g'.act s' c = .error e := by
  have h := act_bare g s c
  rw [hg, hs, act_bare, ha] at h
  exact map_eq_error.mp h

end Grammar

variable [Scalar α] [Numeral α]

/-- Runs that have come equally far through the same scenes, and fail for the same cause if at all. -/
inductive Progress.Similar : Progress α → Progress α → Prop
  | finished (c n) : Similar (.finished c n) (.finished c n)
  | failed (s s' : Successor α) (cause n) :
      Similar (.failed (.within s.text cause) n) (.failed (.within s'.text cause) n)
  | suspended {a a' : State α} (n) : a.bare = a'.bare → Similar (.suspended a n) (.suspended a' n)

namespace Grammar

/-- Steps to states that differ in surface syntax alone, or failures for the same cause. -/
inductive SimilarStep : Option (Except Error (State α)) → Option (Except Error (State α)) → Prop
  | none : SimilarStep none none
  | error (s s' : Successor α) (cause) :
      SimilarStep (some (.error (.within s.text cause))) (some (.error (.within s'.text cause)))
  | ok {b b' : State α} : b.bare = b'.bare → SimilarStep (some (.ok b)) (some (.ok b'))

variable {g g' : Grammar α} {a a' : State α}

theorem perform_similar {s s' : Successor α} {agenda agenda' : Agenda (Successor α)}
    (hg : g.Similar g') (hs : s.bare = s'.bare)
    (ha : agenda.map Successor.bare = agenda'.map Successor.bare) (c : Scene α) :
    SimilarStep (some (g.perform s agenda c)) (some (g'.perform s' agenda' c)) := by
  cases hb : g.body? s with
  | some b =>
    obtain ⟨b', hb', hbare⟩ := body?_similar hg hs hb
    rw [perform_of_body hb, perform_of_body hb']
    refine .ok ?_
    rw [State.bare, State.bare, Agenda.map_unfold, Agenda.map_unfold, ha, hbare]
  | none =>
    have hb' := body?_similar_none hg hs hb
    cases hact : g.act s c with
    | error e =>
      rw [perform_of_act_error hb hact, perform_of_act_error hb' (act_similar_error hg hs hact)]
      exact .error s s' e
    | ok p =>
      obtain ⟨ys', hact', hbare⟩ := act_similar hg hs hact
      rw [perform_of_act hb hact, perform_of_act hb' hact']
      refine .ok ?_
      rw [State.bare, State.bare, Agenda.map_yield, Agenda.map_yield, ha, hbare]

theorem step_similar (hg : g.Similar g') (ha : a.bare = a'.bare) :
    SimilarStep (g.step a) (g'.step a') := by
  obtain ⟨agenda, c⟩ := a
  obtain ⟨agenda', c'⟩ := a'
  obtain ⟨hagenda, rfl⟩ : agenda.map Successor.bare = agenda'.map Successor.bare ∧ c = c' := by
    simpa [State.bare] using ha
  have hnext := congrArg Agenda.next? hagenda
  rw [Agenda.next?_map, Agenda.next?_map] at hnext
  rw [step, step]
  cases hn : agenda.next? with
  | none =>
    rw [hn, Option.map_none, eq_comm, Option.map_eq_none_iff] at hnext
    rw [hnext]
    exact .none
  | some p =>
    rw [hn, Option.map_some, eq_comm, Option.map_eq_some_iff] at hnext
    obtain ⟨p', hn', hp⟩ := hnext
    obtain ⟨hs, hrest⟩ := Prod.mk.inj hp
    rw [hn']
    exact perform_similar hg hs.symm hrest.symm c

theorem advance_similar (hg : g.Similar g') (ha : a.bare = a'.bare) (fuel n : Nat) :
    (g.advance fuel n a).Similar (g'.advance fuel n a') := by
  have hscene {x x' : State α} (h : x.bare = x'.bare) : x.scene = x'.scene :=
    (State.mk.inj h).2
  induction fuel generalizing n a a' with
  | zero =>
    have hstep := step_similar hg ha
    generalize hs : g.step a = r, hs' : g'.step a' = r' at hstep
    cases hstep with
    | none =>
      rw [advance_of_none hs, advance_of_none hs', hscene ha]
      exact .finished _ n
    | error | ok =>
      rw [advance_eq_suspended.mpr ⟨rfl, .refl a, by simp [hs]⟩,
        advance_eq_suspended.mpr ⟨rfl, .refl a', by simp [hs']⟩]
      exact .suspended n ha
  | succ fuel ih =>
    have hstep := step_similar hg ha
    generalize hs : g.step a = r, hs' : g'.step a' = r' at hstep
    cases hstep with
    | none =>
      rw [advance_of_none hs, advance_of_none hs', hscene ha]
      exact .finished _ n
    | error s s' cause =>
      rw [advance_of_error hs, advance_of_error hs']
      exact .failed s s' cause (n + 1)
    | ok hb =>
      rw [advance_of_ok hs, advance_of_ok hs']
      exact ih hb (n + 1)

/-- Derivations with similar grammars both succeed with the same shapes, both fail after the same
number of steps, at a successor and for the same cause, or are both broken off by the limit. -/
theorem similar_derivations_agree {g g' : Grammar α} (hg : g.Similar g') (config : Config)
    (ax : Axiom α) (fuel : Nat) :
    let run (g : Grammar α) := g.advance (config.limit.getD fuel) 0 (.start ax config.recording)
    (∃ d, g.derive? config ax fuel = some (.ok d) ∧ g'.derive? config ax fuel = some (.ok d)) ∨
    (∃ s s' cause n, run g = .failed (.within s cause) n ∧ run g' = .failed (.within s' cause) n ∧
      g.derive? config ax fuel = some (.error (.within s cause)) ∧
      g'.derive? config ax fuel = some (.error (.within s' cause))) ∨
    ∃ st st' n, run g = .suspended st n ∧ run g' = .suspended st' n ∧
      g.derive? config ax fuel = config.limit.map (.error ∘ .limitExceeded) ∧
      g'.derive? config ax fuel = config.limit.map (.error ∘ .limitExceeded) := by
  intro run
  have h : (run g).Similar (run g') := advance_similar hg rfl (config.limit.getD fuel) 0
  generalize hp : run g = p, hp' : run g' = p' at h
  cases h with
  | finished c n => exact .inl ⟨_, derive?_of_finished config hp, derive?_of_finished config hp'⟩
  | failed s s' cause n =>
    exact .inr (.inl ⟨s.text, s'.text, cause, n, rfl, rfl, derive?_of_failed config hp,
      derive?_of_failed config hp'⟩)
  | @suspended a a' n ha =>
    exact .inr (.inr ⟨a, a', n, rfl, rfl, derive?_of_suspended config hp,
      derive?_of_suspended config hp'⟩)

/-- A lot for a barn, and an annex of a height that is never declared. -/
def barn (m : Marks) (axis : Option Axis) (a : Option Adjustment) (repeats : Bool) : Grammar Float32 :=
  let width : Expr Float32 := .attr "width" m
  let double : Expr Float32 := .binary .add width width m
  let side : Operation Float32 (Successor Float32) :=
    .split .y a ⟨[.step (.absolute double) (.symbol "wall")], repeats⟩
  { statements :=
      [.attr "width" 2,
        .rule ⟨"lot", [.operation (.extrude axis double), .symbol "barn"]⟩,
        .rule ⟨"barn", [.operation (.split .x a
          ⟨[.step (.relative width) (.operation side),
            .nested [.step (.relative width) (.symbol "door")] repeats], repeats⟩)]⟩,
        .rule ⟨"annex", [.operation (.scale ⟨width, .attr "height" m, width⟩)]⟩] }

theorem similar_derivations_agree_barn :
    let plain := barn .plain none none false
    let marked := barn ⟨false, true⟩ (some .z) (some .adjust) true
    plain.Similar marked ∧
    (∃ d, plain.derive? ⟨none, true⟩ ⟨"lot", .unitQuad⟩ 9 = some (.ok d) ∧
      marked.derive? ⟨none, true⟩ ⟨"lot", .unitQuad⟩ 9 = some (.ok d) ∧ d.steps = 7) ∧
    (∃ s s' cause, cause = .undefinedAttribute "height" ∧
      plain.derive? ⟨none, false⟩ ⟨"annex", .unitBox⟩ 9 = some (.error (.within s cause)) ∧
      marked.derive? ⟨none, false⟩ ⟨"annex", .unitBox⟩ 9 = some (.error (.within s' cause))) ∧
    plain.derive? ⟨some 3, false⟩ ⟨"lot", .unitQuad⟩ 0 = some (.error (.limitExceeded 3)) ∧
    marked.derive? ⟨some 3, false⟩ ⟨"lot", .unitQuad⟩ 0 = some (.error (.limitExceeded 3)) := by
  intro plain marked
  have hsimilar : plain.Similar marked := rfl
  refine ⟨hsimilar, ?_, ?_, ?_⟩
  · obtain ⟨d, hd, hsteps⟩ : ∃ d, plain.derive? ⟨none, true⟩ ⟨"lot", .unitQuad⟩ 9 = some (.ok d) ∧
        d.steps = 7 := ⟨_, rfl, rfl⟩
    rcases similar_derivations_agree hsimilar ⟨none, true⟩ ⟨"lot", .unitQuad⟩ 9 with
      ⟨d', h, h'⟩ | ⟨s, s', cause, n, -, -, h, -⟩ | ⟨st, st', n, -, -, h, -⟩
    · rw [hd] at h
      cases h
      exact ⟨d, hd, h', hsteps⟩
    · rw [hd] at h
      cases h
    · rw [hd] at h
      cases h
  · obtain ⟨s, cause, he, hcause⟩ : ∃ s cause, plain.derive? ⟨none, false⟩ ⟨"annex", .unitBox⟩ 9 =
        some (.error (.within s cause)) ∧ cause = .undefinedAttribute "height" := ⟨_, _, rfl, rfl⟩
    rcases similar_derivations_agree hsimilar ⟨none, false⟩ ⟨"annex", .unitBox⟩ 9 with
      ⟨d, h, -⟩ | ⟨t, t', cause', n, -, -, h, h'⟩ | ⟨st, st', n, -, -, h, -⟩
    · rw [he] at h
      cases h
    · rw [he] at h
      cases h
      exact ⟨s, t', cause, hcause, he, h'⟩
    · rw [he] at h
      cases h
  · have hl : plain.derive? ⟨some 3, false⟩ ⟨"lot", .unitQuad⟩ 0 = some (.error (.limitExceeded 3)) := rfl
    rcases similar_derivations_agree hsimilar ⟨some 3, false⟩ ⟨"lot", .unitQuad⟩ 0 with
      ⟨d, h, -⟩ | ⟨s, s', cause, n, -, -, h, -⟩ | ⟨st, st', n, -, -, -, h'⟩
    · rw [hl] at h
      cases h
    · rw [hl] at h
      cases h
    · exact ⟨hl, h'⟩

end Grammar
end ShapeGrammar
