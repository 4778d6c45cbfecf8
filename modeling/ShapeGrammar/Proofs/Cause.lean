import ShapeGrammar.Binary32
import ShapeGrammar.Proofs.Ending
import ShapeGrammar.Proofs.Lookup

/-! Why a derivation fails. It is broken off by its limit, or a successor that is not replaced in
place could not act: for want of a shape or, if it is an operation, by a local error. However deep
the bodies of rules are nested, only this successor is named. -/
namespace ShapeGrammar
variable {α : Type} [Scalar α]

namespace Grammar
variable {g : Grammar α} {s : Successor α} {c : Scene α} {e : Error}

theorem act_symbol_error {name : String} (ha : g.act (.symbol name) c = .error e) : e = .emptyStack := by
  rcases act_error_cases ha with ⟨-, he⟩ | ⟨h, below, -, ho⟩
  · exact he
  · cases ho

theorem act_undefined {n : String} (ha : g.act s c = .error (.undefinedAttribute n)) :
    ∃ op, s = .operation op ∧ n ∈ op.reads ∧ g.attr? n = none := by
  cases s with
  | symbol name => cases act_symbol_error ha
  | operation op =>
    rcases act_error_cases ha with ⟨-, he⟩ | ⟨h, below, -, ho⟩
    · cases he
    · have hlocal := Operation.apply_error rfl (map_eq_error.mp ho)
      obtain ⟨hmem, hnone⟩ := hlocal.undefined n rfl
      exact ⟨op, rfl, hmem, hnone⟩

variable [Numeral α]

/-- A derivation that fails has done as many steps as its limit allows and has more to do, or it
stands before an operation or a symbol without a rule, which is named once, with a cause that is
local or the want of a shape. There is no shape just if the stack is empty; and an attribute that
is missing is one that the operation reads and no statement declares. -/
theorem failure_names_one_successor {config : Config} {ax : Axiom α} {fuel : Nat}
    (he : g.derive? config ax fuel = some (.error e)) :
    (∃ limit st, config.limit = some limit ∧ e = .limitExceeded limit ∧
      g.Exec (.start ax config.recording) limit st ∧ st.agenda.toList ≠ []) ∨
    ∃ k st s rest cause, g.Exec (.start ax config.recording) k st ∧ Permits config.limit k ∧
      st.agenda.next? = some (s, rest) ∧ g.perform s rest st.scene = .error e ∧
      e = .within s.text cause ∧ (cause = .emptyStack ∨ cause.isLocal = true) ∧
      (∀ name, s = .symbol name → g.rule? name = none ∧ cause = .emptyStack) ∧
      (cause = .emptyStack ↔ st.scene.stack = []) ∧
      ∀ n, cause = .undefinedAttribute n →
        ∃ op, s = .operation op ∧ n ∈ op.reads ∧ ∀ v, .attr n v ∉ g.statements := by
  cases hadv : g.advance (config.limit.getD fuel) 0 (.start ax config.recording) with
  | finished c m =>
    rw [derive?_of_finished config hadv] at he
    cases he
  | suspended st m =>
    rw [derive?_of_suspended config hadv] at he
    obtain ⟨limit, hl, hlimit⟩ := Option.map_eq_some_iff.mp he
    cases hlimit
    rw [hl] at hadv
    obtain ⟨-, hx, hst⟩ := advance_eq_suspended.mp hadv
    refine .inl ⟨limit, st, hl, rfl, hx, fun hnil => hst ?_⟩
    rw [step_eq_none, Agenda.next?_eq_none_iff, hnil]
  | failed err m =>
    rw [derive?_of_failed config hadv] at he
    cases he
    obtain ⟨k, st, hk, -, hx, hst⟩ := advance_eq_failed.mp hadv
    obtain ⟨s, rest, hnext, hp⟩ := step_cases hst
    obtain ⟨hb, cause, ha, rfl⟩ := perform_error_cases hp
    have hpermits : Permits config.limit k := fun l hl => by rwa [hl] at hk
    refine .inr ⟨k, st, s, rest, cause, hx, hpermits, hnext, hp, rfl, act_error_local ha, ?_,
      act_eq_emptyStack ha, ?_⟩
    · rintro name rfl
      exact ⟨Option.map_eq_none_iff.mp hb, act_symbol_error ha⟩
    · rintro n rfl
      obtain ⟨op, hs, hmem, hnone⟩ := act_undefined ha
      exact ⟨op, hs, hmem, attr?_eq_none_iff.mp hnone⟩

/-- A gate with a door of a height that is never declared, and a pair of posts made of one shape. -/
def gateway : Grammar Float32 where
  statements :=
    [.attr "width" 2,
      .rule ⟨"gate", [.symbol "door"]⟩,
      .rule ⟨"door", [.operation (.scale ⟨.attr "width" .plain, .attr "height" .plain, .constant 1 .plain⟩)]⟩,
      .rule ⟨"posts", [.symbol "post", .symbol "post"]⟩]

theorem failure_names_one_successor_gateway :
    (∃ e st, gateway.derive? ⟨some 2, false⟩ ⟨"gate", .unitBox⟩ 0 = some (.error e) ∧
      gateway.Exec (.start ⟨"gate", .unitBox⟩ false) 2 st ∧ st.agenda.toList ≠ []) ∧
    (∃ (e : Error) (op : Operation Float32 (Successor Float32)),
      gateway.derive? ⟨none, false⟩ ⟨"gate", .unitBox⟩ 9 = some (.error e) ∧
      e = .within op.text (.undefinedAttribute "height") ∧ "height" ∈ op.reads ∧
      ∀ v, .attr "height" v ∉ gateway.statements) ∧
    ∃ e k st, gateway.derive? ⟨none, false⟩ ⟨"posts", .unitBox⟩ 9 = some (.error e) ∧
      gateway.Exec (.start ⟨"posts", .unitBox⟩ false) k st ∧ st.scene.stack = [] := by
  refine ⟨?_, ?_, ?_⟩
  · obtain ⟨e, he, hlimit⟩ : ∃ e, gateway.derive? ⟨some 2, false⟩ ⟨"gate", .unitBox⟩ 0 = some (.error e) ∧
        e = .limitExceeded 2 := ⟨_, rfl, rfl⟩
    rcases failure_names_one_successor he with
      ⟨limit, st, hl, -, hx, hst⟩ | ⟨k, st, s, rest, cause, -, -, -, -, hwithin, -⟩
    · cases hl
      exact ⟨e, st, he, hx, hst⟩
    · rw [hlimit] at hwithin
      cases hwithin
  · obtain ⟨e, text, he, htext⟩ : ∃ e text, gateway.derive? ⟨none, false⟩ ⟨"gate", .unitBox⟩ 9 =
        some (.error e) ∧ e = .within text (.undefinedAttribute "height") := ⟨_, _, rfl, rfl⟩
    rcases failure_names_one_successor he with
      ⟨limit, st, hl, -⟩ | ⟨k, st, s, rest, cause, -, -, -, -, hwithin, -, -, -, hundefined⟩
    · cases hl
    · rw [htext] at hwithin
      injection hwithin with hs hcause
      obtain ⟨op, rfl, hmem, hnone⟩ := hundefined "height" hcause.symm
      exact ⟨e, op, he, by rw [htext, hs, Successor.text], hmem, hnone⟩
  · obtain ⟨e, he, hpost⟩ : ∃ e, gateway.derive? ⟨none, false⟩ ⟨"posts", .unitBox⟩ 9 = some (.error e) ∧
        e = .within "post" .emptyStack := ⟨_, rfl, rfl⟩
    rcases failure_names_one_successor he with
      ⟨limit, st, hl, -⟩ | ⟨k, st, s, rest, cause, hx, -, -, -, hwithin, -, -, hstack, -⟩
    · cases hl
    · rw [hpost] at hwithin
      injection hwithin with _ hcause
      exact ⟨e, k, st, he, hx, hstack.mp hcause.symm⟩

end Grammar
end ShapeGrammar
