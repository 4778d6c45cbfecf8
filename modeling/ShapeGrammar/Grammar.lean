import ShapeGrammar.Operation

/-! Grammars: named numbers and rules in the order they are declared. -/
namespace ShapeGrammar

inductive Successor (α : Type)
  | symbol (name : String)
  | operation (op : Operation α (Successor α))

structure Rule (α : Type) where
  predecessor : String
  successors : List (Successor α)

inductive Statement (α : Type)
  | attr (name : String) (value : α)
  | rule (rule : Rule α)

structure Grammar (α : Type) where
  statements : List (Statement α)

structure Axiom (α : Type) where
  symbol : String
  shape : Shape α

namespace Statement
variable {α : Type}

def attr? : Statement α → Option (String × α)
  | attr n v => some (n, v)
  | rule _ => none

def rule? : Statement α → Option (Rule α)
  | attr _ _ => none
  | rule r => some r

end Statement

namespace Grammar
variable {α : Type}

def rules (g : Grammar α) : List (Rule α) := g.statements.filterMap Statement.rule?

def attrs (g : Grammar α) : List (String × α) := g.statements.filterMap Statement.attr?

/-- Of several rules for one name the last declared. -/
def rule? (g : Grammar α) (name : String) : Option (Rule α) :=
  g.rules.reverse.find? (·.predecessor == name)

/-- Of several values for one name the last declared. -/
def attr? (g : Grammar α) (name : String) : Option α :=
  (g.attrs.reverse.find? (·.1 == name)).map (·.2)

end Grammar
end ShapeGrammar
