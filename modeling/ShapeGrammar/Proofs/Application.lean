import ShapeGrammar.Proofs.FirstMatch
import ShapeGrammar.Proofs.Form
import ShapeGrammar.Proofs.Locality
import ShapeGrammar.Proofs.Placement
import ShapeGrammar.Proofs.Substitution

/-! What applying an operation does to a scene. The top shape is taken off, whatever comes of it, and
everything that the operation reads it reads off this shape. If it fails nothing else happens; if not
the new shapes take the place of the old one, each as deep in the stack as the successor that belongs
to it stands in the list. The grammar is no part of the scene, so its rules and attributes stay. -/
namespace ShapeGrammar
variable {α σ : Type}

/-- The kind of the shapes that an operation makes of one of this kind, if it is made for it. -/
def Operation.kind? : Operation α σ → ShapeKind → Option ShapeKind
  | translate _, kind | rotate _, kind | scale _, kind | split _ _ _, kind => some kind
  | extrude _ _, .quad => some .box
  | extrude _ _, .box => none
  | componentSplit _ _, .box => some .quad
  | componentSplit _ _, .quad => none

namespace Operation
variable [Scalar α]

def branches (env : Env α) (h : Shape α) : Operation α σ → List (Branch α σ)
  | componentSplit _ ks => (dealt h Face.values ks).map (Face.branch h)
  | split axis _ p => (p.layout env axis h).branches
  | translate _ | rotate _ | scale _ | extrude _ _ => []

/-- What an operation leaves in the place of a shape: the successors that it yields and the new
shapes, both from the top down. -/
structure Leaves (op : Operation α σ) (env : Env α) (h : Shape α) (ss : List σ)
    (new : List (Shape α)) : Prop where
  kind : ∃ kind, op.kind? h.kind = some kind ∧ ∀ k ∈ new, k.kind = kind
  single : op.reshapes = true → ss = [] ∧ ∃ k, new = [k]
  paired : op.reshapes = false →
    ss = (op.branches env h).map (·.successor) ∧ new = (op.branches env h).map (·.shape)
  written : op.takesApart = false → ss = op.parts

variable {env : Env α} {op : Operation α σ} {h : Shape α} {e : Effect α σ}

theorem kind_of_apply (he : op.apply env h = .ok e) :
    ∃ kind, op.kind? h.kind = some kind ∧ ∀ k ∈ e.shapes, k.kind = kind := by
  cases applies he with
  | translate | rotate | scale => exact ⟨h.kind, rfl, List.forall_mem_singleton.mpr rfl⟩
  | @extrude axis d x k _ hk =>
    cases hkind : h.kind <;> cases haxis : axis.getD .z <;>
      simp only [Shape.extrude, hkind, haxis, reduceCtorEq] at hk
    cases hk
    exact ⟨.box, rfl, List.forall_mem_singleton.mpr rfl⟩
  | componentSplit hpool hbs =>
    obtain ⟨hbox, hquad⟩ := Shape.components_eq_ok hpool
    refine ⟨.quad, by rw [hbox, kind?], List.forall_mem_map.mpr fun b hb => ?_⟩
    exact hquad _ (mem_of_assign hbs b hb)
  | @split axis _ p _ =>
    exact ⟨h.kind, rfl, List.forall_mem_map.mpr (p.toItem.kind_layout env axis h)⟩

theorem divided_of_apply (hr : op.reshapes = false) (he : op.apply env h = .ok e) :
    e = .divided (op.branches env h) := by
  cases applies he with
  | translate | rotate | scale | extrude => cases hr
  | @componentSplit c ks pool bs hpool hbs =>
    obtain ⟨hbox, -⟩ := Shape.components_eq_ok hpool
    cases c with
    | faces =>
      rw [apply_componentSplit_faces env ks hbox] at he
      exact (Except.ok.inj he).symm
    | edges | vertices =>
      rw [apply_componentSplit_ne env ks hbox (by decide)] at he
      cases he
  | split => rfl

theorem leaves_of_apply (he : op.apply env h = .ok e) : op.Leaves env h e.successors e.shapes where
  kind := kind_of_apply he
  single hr := by
    obtain ⟨k, rfl⟩ := apply_replaced hr he
    exact ⟨rfl, k, rfl⟩
  paired hr := by
    rw [divided_of_apply hr he]
    exact ⟨rfl, rfl⟩
  written ht := successors_eq_parts ht he

end Operation

namespace Grammar
variable [Scalar α]

/-- An operation fails on an empty stack and changes nothing. Otherwise it takes the top shape off,
which becomes the current one, and leaves the finished shapes alone; all its parameters, also those
of nested patterns, are evaluated at this shape. If it fails, nothing is put on the stack or recorded.
If it succeeds, what it leaves in the place of the shape comes to lie on the others, and is recorded
in the order in which it is put there, the last one first. -/
theorem operation_replaces_top (g : Grammar α) (c : Scene α) (op : Operation α (Successor α)) :
    (c.stack = [] → c.apply g op = (.error .emptyStack, c)) ∧
    ∀ h below, c.stack = h :: below → ∃ result d, c.apply g op = (result, d) ∧
      d.current = some h ∧ d.finished = c.finished ∧ d.recording = c.recording ∧
      (∀ e, result = .error e →
        (∀ current, (op.readAt h).apply ⟨g.attr?, current⟩ h = .error e) ∧
        d.stack = below ∧ d.record = c.record) ∧
      ∀ ss, result = .ok ss → ∃ new, op.Leaves ⟨g.attr?, some h⟩ h ss new ∧
        (∀ current, ∃ effect, (op.readAt h).apply ⟨g.attr?, current⟩ h = .ok effect ∧
          effect.successors = ss ∧ effect.shapes = new) ∧
        d.stack = new ++ below ∧
        d.record.toList = c.record.toList ++ if c.recording then new.reverse else [] := by
  refine ⟨fun hc => ?_, fun h below hc => ?_⟩
  · rw [Scene.apply, Scene.pop, hc]
  · have hp : c.pop = .ok (h, { c with stack := below, current := some h }) := by rw [Scene.pop, hc]
    rw [Scene.apply_of_pop g op hp]
    cases he : op.apply ⟨g.attr?, some h⟩ h with
    | error e =>
      refine ⟨_, _, rfl, rfl, rfl, rfl, fun e' he' => ?_, fun ss hss => by cases hss⟩
      cases he'
      exact ⟨fun current => by rw [op.apply_readAt, he], rfl, rfl⟩
    | ok effect =>
      refine ⟨_, _, rfl, by simp, by simp, by simp, fun e he' => (by cases he'), fun ss hss => ?_⟩
      cases hss
      refine ⟨effect.shapes, Operation.leaves_of_apply he, fun current => ?_, by simp, ?_⟩
      · exact ⟨effect, by rw [op.apply_readAt, he], rfl, rfl⟩
      · exact Scene.record_pushAll_eq _ effect.shapes

theorem operation_replaces_top_halves :
    let c : Scene Float32 := ((Scene.empty true).push .unitQuad).push .unitBox
    (Scene.empty true : Scene Float32).stack = [] ∧ c.stack = [.unitBox, .unitQuad] ∧
    (Scene.empty true).apply halves halve = (.error .emptyStack, .empty true) ∧
    (∃ d, c.apply halves collapse = (.error (.divisionByZero "division"), d) ∧
      d.current = some .unitBox ∧ d.stack = [.unitQuad] ∧ d.record = c.record) ∧
    ∃ left right d, c.apply halves halve = (.ok [.symbol "left", .symbol "right"], d) ∧
      left.kind = .box ∧ right.kind = .box ∧ d.stack = [left, right, .unitQuad] ∧
      d.record.toList = [.unitQuad, .unitBox, right, left] := by
  intro c
  refine ⟨rfl, rfl, (operation_replaces_top halves (.empty true) halve).1 rfl, ?_, ?_⟩
  · obtain ⟨result, d, ha, hcurrent, -, -, herror, -⟩ :=
      (operation_replaces_top halves c collapse).2 .unitBox [.unitQuad] rfl
    have hresult : result = .error (.divisionByZero "division") := (congrArg Prod.fst ha).symm
    obtain ⟨-, hstack, hrecord⟩ := herror _ hresult
    exact ⟨d, hresult ▸ ha, hcurrent, hstack, hrecord⟩
  · obtain ⟨result, d, ha, -, -, -, -, hok⟩ :=
      (operation_replaces_top halves c halve).2 .unitBox [.unitQuad] rfl
    have hresult : result = .ok [.symbol "left", .symbol "right"] := (congrArg Prod.fst ha).symm
    obtain ⟨new, hleaves, -, hstack, hrecord⟩ := hok _ hresult
    obtain ⟨kind, hkind, hnew⟩ := hleaves.kind
    cases hkind
    obtain ⟨hss, rfl⟩ := hleaves.paired rfl
    obtain ⟨left, right, hpair⟩ : ∃ left right,
        (halve.branches ⟨halves.attr?, some .unitBox⟩ .unitBox).map (·.shape) = [left, right] := by
      have hlength := congrArg List.length hss
      rw [List.length_map] at hlength
      exact List.length_eq_two.mp (by rw [List.length_map, ← hlength]; rfl)
    rw [hpair] at hnew hstack hrecord
    exact ⟨left, right, d, hresult ▸ ha, hnew left (by simp), hnew right (by simp), hstack, hrecord⟩

end Grammar
end ShapeGrammar
