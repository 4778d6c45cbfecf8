import ShapeGrammar.Proofs.Inheritance
import ShapeGrammar.Proofs.Substitution

/-! The form of a grammar is what is left of it without the values of its constants and attributes.
What an operation yields, and how many shapes it makes, can be read off its form, unless it takes a
shape apart: how many components a selection finds depends on the shape. -/
namespace ShapeGrammar
variable {α β σ : Type}

/-- The expression without the values of its constants. -/
def Expr.form : Expr α → Expr Unit
  | constant _ m => constant () m
  | attr n m => attr n m
  | scope a m => scope a m
  | binary op l r m => binary op l.form r.form m

def Successor.form : Successor α → Successor Unit := paraphrase (.ofExpr Expr.form)

def Operation.form (op : Operation α (Successor α)) : Operation Unit (Successor Unit) :=
  op.map (.ofExpr Expr.form) Successor.form

theorem Successor.form_symbol (name : String) : (symbol name : Successor α).form = .symbol name :=
  paraphrase_symbol name

theorem Successor.form_operation (op : Operation α (Successor α)) :
    (operation op).form = .operation op.form := paraphrase_operation op

def Grammar.form (g : Grammar α) : Grammar Unit := g.translate Successor.form fun _ => ()

namespace Operation

def takesApart : Operation α σ → Bool
  | componentSplit _ _ => true
  | translate _ | rotate _ | scale _ | extrude _ _ | split _ _ _ => false

theorem takesApart_form (op : Operation α (Successor α)) : op.form.takesApart = op.takesApart := by
  cases op <;> rfl

/-- How many shapes an operation makes, unless it takes a shape apart. -/
def arity (op : Operation α σ) : Nat := if op.reshapes then 1 else op.parts.length

theorem arity_form (op : Operation α (Successor α)) : op.form.arity = op.arity := by
  rw [arity, arity, form, reshapes_map, parts_map, List.length_map]

section Apply
variable [Scalar α] {env : Env α} {op : Operation α σ} {h : Shape α} {e : Effect α σ}

theorem successors_eq_parts (hop : op.takesApart = false) (he : op.apply env h = .ok e) :
    e.successors = op.parts := by
  cases applies he with
  | translate | rotate | scale | extrude => rfl
  | componentSplit => cases hop
  | @split axis adjustment p hf => exact Item.layout_successors axis h p.toItem hf

theorem length_shapes (hop : op.takesApart = false) (he : op.apply env h = .ok e) :
    e.shapes.length = op.arity := by
  have hparts := congrArg List.length (successors_eq_parts hop he)
  cases applies he with
  | translate | rotate | scale | extrude => rfl
  | componentSplit => cases hop
  | split hf =>
    rw [Effect.successors, List.length_map] at hparts
    rw [Effect.shapes, List.length_map, hparts]
    rfl

end Apply

end Operation

namespace Grammar
variable {g : Grammar α} {g' : Grammar β} {s : Successor α} {s' : Successor β}

theorem body?_form (g : Grammar α) (s : Successor α) :
    g.form.body? s.form = (g.body? s).map (List.map Successor.form) :=
  body?_translate _ Successor.form_symbol (fun op => ⟨op.form, Successor.form_operation op⟩) g s

theorem body?_same_form (hg : g.form = g'.form) (hs : s.form = s'.form) :
    (g.body? s).map (List.map Successor.form) = (g'.body? s').map (List.map Successor.form) := by
  rw [← body?_form, ← body?_form, hg, hs]

/-- Successors of one form that do not take shapes apart do as much with any shapes. -/
theorem treat_same_form [Scalar α] [Scalar β] (hs : s.form = s'.form)
    (huses : s.UsesOnly (·.takesApart = false)) {h : Shape α} {h' : Shape β} {o : Outcome α}
    {o' : Outcome β} (ho : g.treat s h = .ok o) (ho' : g'.treat s' h' = .ok o') :
    o.yielded.map Successor.form = o'.yielded.map Successor.form ∧
      o.opened.length = o'.opened.length ∧ o.finished.length = o'.finished.length := by
  cases s with
  | symbol name =>
    cases s' with
    | symbol name' =>
      cases ho
      cases ho'
      exact ⟨rfl, rfl, rfl⟩
    | operation op' => simp [Successor.form_symbol, Successor.form_operation] at hs
  | operation op =>
    cases s' with
    | symbol name' => simp [Successor.form_symbol, Successor.form_operation] at hs
    | operation op' =>
      have hform : op.form = op'.form := by simpa [Successor.form_operation] using hs
      have hop : op.takesApart = false := (Successor.usesOnly_operation.mp huses).1
      have hop' : op'.takesApart = false := by rw [← op'.takesApart_form, ← hform, op.takesApart_form, hop]
      obtain ⟨e, he, rfl⟩ := treat_operation.mp ho
      obtain ⟨e', he', rfl⟩ := treat_operation.mp ho'
      refine ⟨?_, ?_, rfl⟩
      · have hparts := congrArg Operation.parts hform
        rw [Operation.form, Operation.form, Operation.parts_map, Operation.parts_map] at hparts
        rw [Operation.successors_eq_parts hop he, Operation.successors_eq_parts hop' he', hparts]
      · rw [Operation.length_shapes hop he, Operation.length_shapes hop' he', ← op.arity_form,
          ← op'.arity_form, hform]

end Grammar
end ShapeGrammar
