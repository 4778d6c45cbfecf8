import ShapeGrammar.Grammar

/-! The numbers that a grammar and an axiom contain. -/
namespace ShapeGrammar
variable {α : Type}

def Expr.numbers : Expr α → List α
  | constant v _ => [v]
  | attr _ _ | scope _ _ => []
  | binary _ l r _ => l.numbers ++ r.numbers

def Vec3.numbers (v : Vec3 (Expr α)) : List α := v.x.numbers ++ v.y.numbers ++ v.z.numbers

def Size.numbers : Size α → List α
  | absolute e | relative e => e.numbers

mutual

def Successor.numbers : Successor α → List α
  | .symbol _ => []
  | .operation op => op.numbers

def Operation.numbers : Operation α (Successor α) → List α
  | .translate v | .rotate v | .scale v => v.numbers
  | .extrude _ e => e.numbers
  | .componentSplit _ selections => Selection.allNumbers selections
  | .split _ _ p => p.numbers

def Selection.allNumbers : List (Selection (Successor α)) → List α
  | [] => []
  | k :: ks => k.numbers ++ Selection.allNumbers ks

def Selection.numbers : Selection (Successor α) → List α
  | ⟨_, s⟩ => s.numbers

def Pattern.numbers : Pattern α (Successor α) → List α
  | ⟨items, _⟩ => Item.allNumbers items

def Item.allNumbers : List (Item α (Successor α)) → List α
  | [] => []
  | i :: is => i.numbers ++ Item.allNumbers is

def Item.numbers : Item α (Successor α) → List α
  | .step size s => size.numbers ++ s.numbers
  | .nested items _ => Item.allNumbers items

end

/-- The values of attributes and the constants in rules. -/
def Statement.numbers : Statement α → List α
  | attr _ v => [v]
  | rule r => r.successors.flatMap Successor.numbers

def Grammar.numbers (g : Grammar α) : List α := g.statements.flatMap Statement.numbers

def Scope.numbers (s : Scope α) : List α := s.transform.toList ++ s.size.toList

def Shape.numbers (h : Shape α) : List α := h.scope.numbers

def Axiom.numbers (a : Axiom α) : List α := a.shape.numbers

end ShapeGrammar
