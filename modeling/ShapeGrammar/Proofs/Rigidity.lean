import ShapeGrammar.Proofs.Rigid
import ShapeGrammar.Proofs.Ending
import ShapeGrammar.Proofs.Inheritance
import ShapeGrammar.Proofs.Placement

/-! Derivations keep frames rigid. From an axiom in a rigid frame nothing is ever sheared, scaled or
mirrored: all shapes that are open, current, finished or recorded at any time have rigid frames. -/
namespace ShapeGrammar
open Scalar

variable {α : Type} [ExactScalar α] {m n : Mat4 α}

theorem Mat4.Reaches.affine (hr : m.Reaches n) (hm : m.Affine) : n.Affine := by
  induction hr with
  | refl => exact hm
  | translate v _ ih => exact ih.mul (affine_displacement v)
  | rotate _ _ ih => exact ih.mul (affine_toMat4 _)

section Circle
variable (hcircle : ∀ a : α, sin a ^ 2 + cos a ^ 2 = 1)
include hcircle

theorem Rotation.Built.unit {q : Rotation α} (hq : q.Built) : q.Unit := by
  cases hq with
  | identity => exact unit_identity
  | aboutX a => exact unit_aboutX hcircle a
  | aboutY a => exact unit_aboutY hcircle a
  | ofPitchYawRoll degrees => exact unit_ofPitchYawRoll hcircle degrees

theorem Mat4.Reaches.rigid (hr : m.Reaches n) (hm : m.Rigid) : n.Rigid := by
  induction hr with
  | refl => exact hm
  | translate v _ ih => exact ih.mul (rigid_displacement v)
  | rotate hq _ ih => exact ih.mul (hq.unit hcircle).rigid_toMat4

theorem Grammar.inherits_rigid (g : Grammar α) :
    g.Inherits (fun _ => True) fun h => h.transform.Rigid where
  body _ _ _ _ _ _ := trivial
  part _ _ _ _ := trivial
  shape _ _ _ _ hh he k hk := (Operation.reaches_apply he k hk).rigid hcircle hh

end Circle

namespace Grammar
variable [Numeral α]

/-- From an axiom in a rigid frame all shapes of a derivation have rigid frames: those that are on the
stack, current, finished or recorded after any number of steps, also after an operation that fails
there, and so those that it returns. -/
theorem frames_stay_rigid (hcircle : ∀ a : α, sin a ^ 2 + cos a ^ 2 = 1) (g : Grammar α)
    (ax : Axiom α) (hax : ax.shape.transform.Rigid) :
    (∀ recording k st, g.Exec (.start ax recording) k st →
      st.scene.All (·.transform.Rigid) ∧ ∀ op, (st.scene.apply g op).2.All (·.transform.Rigid)) ∧
    ∀ config fuel d, g.derive? config ax fuel = some (.ok d) →
      (∀ h ∈ d.finished, h.transform.Rigid) ∧ ∀ h ∈ d.record, h.transform.Rigid := by
  have hg := g.inherits_rigid hcircle
  have hall (recording k st) (hx : g.Exec (.start ax recording) k st) :
      st.scene.All (·.transform.Rigid) :=
    (hg.exec hx (.start trivial hax recording)).scene
  refine ⟨fun recording k st hx => ?_, fun config fuel d hd => ?_⟩
  · exact ⟨hall recording k st hx, fun op => (hall recording k st hx).apply (hg.shape op trivial)⟩
  · obtain ⟨c, hx, hdc⟩ := exec_of_derive? hd
    have hc : c.All (·.transform.Rigid) := hall config.recording d.steps _ hx
    rw [hdc]
    exact ⟨hc.finished, hc.record⟩

/-- A mast that is set up askew, raised and taken apart into a door and panels, which are cut. -/
def mast : Grammar ℚ :=
  let number (x : ℚ) : Expr ℚ := .constant x .plain
  { statements :=
      [.rule ⟨"mast", [.operation (.rotate ⟨number 30, number 45, number 60⟩),
          .operation (.extrude none (number 3)),
          .operation (.componentSplit .faces [⟨.front, .symbol "door"⟩, ⟨.all, .symbol "panel"⟩])]⟩,
        .rule ⟨"panel", [.operation (.split .x none (.ofItems
          [.step (.absolute (number 1)) (.symbol "pane"), .nested
            [.step (.relative (number 1)) (.symbol "pane")] false]))]⟩] }

theorem frames_stay_rigid_mast : (Shape.unitQuad : Shape ℚ).transform.Rigid ∧
    ∃ d, mast.derive? ⟨none, true⟩ ⟨"mast", .unitQuad⟩ 25 = some (.ok d) ∧ d.finished.length = 11 ∧
      (∀ h ∈ d.finished, h.transform.Rigid) ∧ ∀ h ∈ d.record, h.transform.Rigid := by
  have hquad : (Shape.unitQuad : Shape ℚ).transform.Rigid := Mat4.rigid_identity
  obtain ⟨-, hruns⟩ := frames_stay_rigid sin_sq_add_cos_sq_rat mast ⟨"mast", .unitQuad⟩ hquad
  obtain ⟨d, hd, hlength⟩ := exists_derive?_of_map mast ⟨none, true⟩ ⟨"mast", .unitQuad⟩ 25
    (·.finished.length) 11 (by decide +kernel)
  exact ⟨hquad, d, hd, hlength, hruns ⟨none, true⟩ 25 d hd⟩

end Grammar
end ShapeGrammar
