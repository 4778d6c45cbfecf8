import ShapeGrammar.Proofs.Substitution

/-! Surface syntax. Parentheses around an expression, the marks of a split and of a pattern, and an
axis that is left out of an extrusion matter for the text of a grammar alone: the bare form of an
operation makes the same of every shape, and yields the bare forms of what the operation yields. -/
namespace ShapeGrammar
variable {α : Type}

def Marks.bare (m : Marks) : Marks := { m with parenthesized := false }

namespace Expr

def bare : Expr α → Expr α
  | constant v m => constant v m.bare
  | attr n m => attr n m.bare
  | scope a m => scope a m.bare
  | binary op l r m => binary op l.bare r.bare m.bare

theorem eval_bare [Scalar α] {env : Env α} (e : Expr α) : e.bare.eval env = e.eval env := by
  induction e with
  | constant v m | attr n m | scope a m => rfl
  | binary op l r m ihl ihr =>
    rw [bare, eval, eval, ihl, ihr]
    rfl

end Expr

/-- Without surface syntax. An extrusion without an axis is given the one that it stands for. -/
def Paraphrase.bare : Paraphrase α α where
  expr := Expr.bare
  axis a := some (a.getD .z)
  adjustment _ := none
  repeats _ := false
  getD_axis _ := rfl

def Successor.bare : Successor α → Successor α := paraphrase .bare

end ShapeGrammar
