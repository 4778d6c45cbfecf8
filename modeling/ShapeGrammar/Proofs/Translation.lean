import ShapeGrammar.Proofs.Ending
import ShapeGrammar.Proofs.Substitution

/-! Grammars in other terms. If every operation is put differently, but makes the same of a shape and
yields the same in other terms, then a derivation goes through the same scenes; if its text is kept as
well, it has the same answer. -/
namespace ShapeGrammar
variable {α : Type}

def State.translate (f : Successor α → Successor α) (st : State α) : State α :=
  ⟨st.agenda.map f, st.scene⟩

def Progress.translate (f : Successor α → Successor α) : Progress α → Progress α
  | finished c n => finished c n
  | failed e n => failed e n
  | suspended st n => suspended (st.translate f) n

theorem Progress.answer?_translate (f : Successor α → Successor α) (limit : Option Nat)
    (p : Progress α) : (p.translate f).answer? limit = p.answer? limit := by
  cases p <;> rfl

variable [Scalar α]

/-- A way to put successors differently that the derivation does not notice. -/
structure Translates (f : Successor α → Successor α) : Prop where
  symbol : ∀ name, f (.symbol name) = .symbol name
  operation : ∀ op, ∃ op', f (.operation op) = .operation op' ∧
    ∀ env h, op'.apply env h = (op.apply env h).map (Effect.map f)

theorem Paraphrase.translates {p : Paraphrase α α}
    (hp : ∀ (env : Env α) (e : Expr α), (p.expr e).eval env = e.eval env) :
    Translates (Successor.paraphrase p) where
  symbol := Successor.paraphrase_symbol
  operation op := ⟨_, Successor.paraphrase_operation op, fun env h => op.apply_map (hp env) _ h⟩

namespace Grammar
variable {f : Successor α → Successor α}

theorem act_translate (hf : Translates f) (g : Grammar α) (s : Successor α) (c : Scene α) :
    (g.translate f id).act (f s) c = (g.act s c).map fun p => (p.1.map f, p.2) := by
  cases s with
  | symbol name =>
    rw [hf.symbol, act, act]
    cases c.retire <;> rfl
  | operation op =>
    obtain ⟨op', hop, happly⟩ := hf.operation op
    rw [hop, act, act, Scene.apply, Scene.apply]
    cases c.pop with
    | error e => rfl
    | ok p =>
      have henv : p.2.env (g.translate f id) = p.2.env g := by
        rw [Scene.env, Scene.env]
        congr 1
        funext name
        rw [attr?_translate, Option.map_id]
        rfl
      simp only [henv, happly]
      cases op.apply (p.2.env g) p.1 with
      | error e => rfl
      | ok e => simp [Except.map, Scene.enact]

variable [Numeral α]

theorem perform_translate (hf : Translates f) (ht : ∀ s, (f s).text = s.text) (g : Grammar α)
    (s : Successor α) (agenda : Agenda (Successor α)) (c : Scene α) :
    (g.translate f id).perform (f s) (agenda.map f) c = (g.perform s agenda c).map (State.translate f) := by
  have hbody : (g.translate f id).body? (f s) = (g.body? s).map (List.map f) :=
    body?_translate id hf.symbol (fun op => (hf.operation op).imp fun _ h => h.1) g s
  have hact := act_translate hf g s c
  cases hb : g.body? s with
  | some b =>
    rw [hb] at hbody
    rw [perform_of_body hb, perform_of_body hbody, ← Agenda.map_unfold]
    rfl
  | none =>
    rw [hb] at hbody
    cases ha : g.act s c with
    | error e =>
      rw [ha] at hact
      rw [perform_of_act_error hb ha, perform_of_act_error hbody hact, ht]
      rfl
    | ok p =>
      rw [ha] at hact
      rw [perform_of_act hb ha, perform_of_act hbody hact, ← Agenda.map_yield]
      rfl

theorem step_translate (hf : Translates f) (ht : ∀ s, (f s).text = s.text) (g : Grammar α) (st : State α) :
    (g.translate f id).step (st.translate f) = (g.step st).map (Except.map (State.translate f)) := by
  have hn' : (st.translate f).agenda.next? = _ := Agenda.next?_map f st.agenda
  cases hn : st.agenda.next? with
  | none =>
    rw [hn] at hn'
    rw [step_eq_none.mpr hn, step_eq_none.mpr hn', Option.map_none]
  | some p =>
    rw [hn] at hn'
    rw [step_of_next? hn, step_of_next? hn', Option.map_some]
    exact congrArg some (perform_translate hf ht g p.1 p.2 st.scene)

theorem advance_translate (hf : Translates f) (ht : ∀ s, (f s).text = s.text) (g : Grammar α)
    (fuel n : Nat) (st : State α) :
    (g.translate f id).advance fuel n (st.translate f) = (g.advance fuel n st).translate f := by
  induction fuel generalizing n st with
  | zero =>
    have hn : (st.translate f).agenda.next? = _ := Agenda.next?_map f st.agenda
    rw [Grammar.advance, Grammar.advance, hn]
    cases st.agenda.next? <;> rfl
  | succ fuel ih =>
    have hstep := step_translate hf ht g st
    rcases hs : g.step st with _ | e | b
    · rw [hs] at hstep
      rw [advance_of_none hs, advance_of_none hstep]
      rfl
    · rw [hs] at hstep
      rw [advance_of_error hs, advance_of_error hstep]
      rfl
    · rw [hs] at hstep
      rw [advance_of_ok hs, advance_of_ok hstep, ih]

/-- With the text of its successors kept, a grammar in other terms has the same answers. -/
theorem derive?_translate (hf : Translates f) (ht : ∀ s, (f s).text = s.text) (g : Grammar α)
    (config : Config) (ax : Axiom α) (fuel : Nat) :
    (g.translate f id).derive? config ax fuel = g.derive? config ax fuel := by
  have hstart : (State.start ax config.recording).translate f = .start ax config.recording := by
    simp [State.translate, State.start, Agenda.map, Agenda.ofList, hf.symbol]
  rw [derive?, derive?, ← hstart, advance_translate hf ht, Progress.answer?_translate, hstart]

end Grammar
end ShapeGrammar
