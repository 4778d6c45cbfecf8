import ShapeGrammar.Proofs.Exact
import ShapeGrammar.Proofs.Surface

/-! Where evaluation fails. A node of an expression is at fault if it reads what is not there, or if it
divides by a zero and both of its operands have a value. An expression has a value just if none of
its nodes is at fault; otherwise the error is that of the first such node, operands before the node
that joins them and left before right. -/
namespace ShapeGrammar
variable {α : Type}

namespace Expr

/-- The nodes of an expression in the order of their evaluation. -/
def nodes : Expr α → List (Expr α)
  | constant v m => [constant v m]
  | attr n m => [attr n m]
  | scope a m => [scope a m]
  | binary op l r m => l.nodes ++ r.nodes ++ [binary op l r m]

variable [Scalar α]

/-- The error that a node is itself to blame for. An operand without a value takes the blame off the
node above it; the marks of a divisor count for its value. -/
def fault? (env : Env α) : Expr α → Option Error
  | constant _ _ => none
  | attr n _ => if (env.attr n).isNone then some (.undefinedAttribute n) else none
  | scope _ _ => if env.shape.isNone then some .emptyStack else none
  | binary op l r _ =>
    match op, l.eval env, r.eval env with
    | .div, .ok _, .ok y => if Scalar.isZero y then some (.divisionByZero "division") else none
    | .rem, .ok _, .ok y => if Scalar.isZero y then some (.divisionByZero "modulo") else none
    | _, _, _ => none

variable {env : Env α}

theorem fault?_binary {op : Operator} {l r : Expr α} {x y : α} (m : Marks) (hl : l.eval env = .ok x)
    (hr : r.eval env = .ok y) :
    (binary op l r m).fault? env = match op.apply x y with
      | .ok _ => none
      | .error err => some err := by
  cases op with
  | add | sub | mul | pow => simp only [fault?, Operator.apply]
  | div | rem =>
    simp only [fault?, hl, hr, Operator.apply]
    split <;> rfl

/-- The first fault in an expression is the error that its evaluation ends in. -/
theorem findSome?_nodes (env : Env α) (e : Expr α) :
    e.nodes.findSome? (fault? env) = match e.eval env with
      | .ok _ => none
      | .error err => some err := by
  induction e with
  | constant v m => rfl
  | attr n m =>
    rw [eval, Env.value, nodes, List.findSome?_singleton, fault?]
    cases env.attr n <;> rfl
  | scope a m =>
    rw [eval, Env.target, nodes, List.findSome?_singleton, fault?]
    cases env.shape <;> rfl
  | binary op l r m ihl ihr =>
    rw [nodes, List.findSome?_append, List.findSome?_append, ihl, ihr, List.findSome?_singleton, eval]
    cases hl : l.eval env with
    | error err => rfl
    | ok x =>
      cases hr : r.eval env with
      | error err => rfl
      | ok y =>
        rw [fault?_binary m hl hr]
        simp only [bind, Except.bind, pure, Except.pure]
        cases op.apply x y <;> rfl

theorem eval_of_agree {env' : Env α} {e : Expr α} (hattr : ∀ n ∈ e.reads, env'.attr n = env.attr n)
    (hshape : e.scopes ≠ [] → env'.shape = env.shape) : e.eval env' = e.eval env :=
  eval_congr ⟨hattr, fun a ha => by rw [hshape (List.ne_nil_of_mem ha)]⟩

/-- An expression has a value just if no node of it is at fault, and otherwise ends in the error of the
first node that is. The outcome depends on the attributes that the expression names, on the shape at
hand only if it reads a scope, and on parentheses not at all. -/
theorem first_fault_decides (env : Env α) (e : Expr α) :
    ((∃ v, e.eval env = .ok v) ↔ ∀ k ∈ e.nodes, k.fault? env = none) ∧
    (∀ err, e.eval env = .error err ↔ ∃ before k after, e.nodes = before ++ k :: after ∧
      k.fault? env = some err ∧ ∀ j ∈ before, j.fault? env = none) ∧
    (∀ env' : Env α, (∀ n ∈ e.reads, env'.attr n = env.attr n) →
      (e.scopes ≠ [] → env'.shape = env.shape) → e.eval env' = e.eval env) ∧
    ∀ e' : Expr α, e'.bare = e.bare → e'.eval env = e.eval env := by
  have hfirst := findSome?_nodes env e
  refine ⟨?_, fun err => ?_, fun env' => eval_of_agree, fun e' hbare => ?_⟩
  · rw [← List.findSome?_eq_none_iff, hfirst]
    cases e.eval env <;> simp
  · rw [← List.findSome?_eq_some_iff, hfirst]
    cases e.eval env <;> simp
  · rw [← eval_bare e', hbare, eval_bare]

/-- A remainder by the opposite of a difference, over a width that may not be declared. -/
def ledge (outer : Marks) : Expr ℚ :=
  let height : Expr ℚ := .attr "h" .plain
  .binary .div
    (.binary .rem (.constant 1 .plain) (.binary .sub height (.constant 2 .plain) ⟨true, false⟩) outer)
    (.binary .add (.attr "w" .plain) (.scope (.size .x) .plain) .plain) .plain

theorem first_fault_decides_ledge :
    let low : Env ℚ := ⟨fun n => if n = "h" then some 2 else none, none⟩
    let high : Env ℚ := ⟨fun n => if n = "h" then some 5 else if n = "w" then some 3 else none,
      some .unitBox⟩
    (ledge .plain).eval low = .error (.divisionByZero "modulo") ∧
    (∀ k ∈ (ledge .plain).nodes, k.fault? high = none) ∧ (∃ v, (ledge .plain).eval high = .ok v) ∧
    (ledge .plain).eval { high with attr := fun n => if n = "d" then some 0 else high.attr n } =
      (ledge .plain).eval high ∧
    (ledge ⟨false, true⟩).bare = (ledge .plain).bare ∧
    (ledge ⟨false, true⟩).eval high = (ledge .plain).eval high := by
  intro low high
  obtain ⟨-, herror, -, -⟩ := first_fault_decides low (ledge .plain)
  obtain ⟨hvalue, -, hagree, hbare⟩ := first_fault_decides high (ledge .plain)
  have hsound : ∀ k ∈ (ledge .plain).nodes, k.fault? high = none := by decide +kernel
  have hsame : (ledge ⟨false, true⟩).bare = (ledge .plain).bare := rfl
  refine ⟨?_, hsound, hvalue.mpr hsound, hagree _ (by decide +kernel) fun _ => rfl, hsame,
    hbare _ hsame⟩
  -- the divisor is at fault before the reads to the right of it, which are so too
  exact (herror _).mpr ⟨(ledge .plain).nodes.take 4, _, (ledge .plain).nodes.drop 5, rfl,
    by decide +kernel, by decide +kernel⟩

end Expr
end ShapeGrammar
