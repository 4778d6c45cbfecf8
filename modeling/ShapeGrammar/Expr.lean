import ShapeGrammar.Error

/-! Expressions for the parameters of operations, evaluated when the operation is applied. -/
namespace ShapeGrammar

inductive Operator
  | add | sub | mul | div | pow | rem
  deriving DecidableEq, Repr

namespace Operator

def values : List Operator := [add, sub, mul, div, pow, rem]

def sign : Operator → String
  | add => "+"
  | sub => "-"
  | mul => "*"
  | div => "/"
  | pow => "^"
  | rem => "%"

/-- Only division and remainder by a zero of either sign fail. -/
def apply {α : Type} [Scalar α] : Operator → α → α → Except Error α
  | add, x, y => .ok (x + y)
  | sub, x, y => .ok (x - y)
  | mul, x, y => .ok (x * y)
  | div, x, y => if Scalar.isZero y then .error (.divisionByZero "division") else .ok (x / y)
  | pow, x, y => .ok (Scalar.pow x y)
  | rem, x, y => if Scalar.isZero y then .error (.divisionByZero "modulo") else .ok (Scalar.rem x y)

end Operator

/-- What an expression carries around its content: a minus sign, which negates its value, and
parentheses, which matter for its text alone. -/
structure Marks where
  negated : Bool := false
  parenthesized : Bool := false
  deriving DecidableEq, Repr

namespace Marks

def plain : Marks := ⟨false, false⟩

def value {α : Type} [Scalar α] (m : Marks) (x : α) : α := if m.negated then -x else x

/-- A text within its marks; a negated `compound` is put in parentheses in any case. -/
def wrap (m : Marks) (compound : Bool) (s : String) : String :=
  let bracketed := if m.parenthesized || (m.negated && compound) then "(" ++ s ++ ")" else s
  if m.negated then "-" ++ bracketed else bracketed

end Marks

inductive Expr (α : Type)
  | constant (value : α) (marks : Marks)
  | attr (name : String) (marks : Marks)
  | scope (part : ScopeAttribute) (marks : Marks)
  | binary (op : Operator) (left right : Expr α) (marks : Marks)
  deriving DecidableEq, Repr

/-- What an expression can read: declared attributes and the shape at hand. -/
structure Env (α : Type) where
  attr : String → Option α
  shape : Option (Shape α)

namespace Env
variable {α : Type}

def value (env : Env α) (name : String) : Except Error α :=
  match env.attr name with
  | some v => .ok v
  | none => .error (.undefinedAttribute name)

def target (env : Env α) : Except Error (Shape α) :=
  match env.shape with
  | some h => .ok h
  | none => .error .emptyStack

end Env

namespace Expr
variable {α : Type}

def marks : Expr α → Marks
  | constant _ m | attr _ m | scope _ m | binary _ _ _ m => m

def withMarks : Expr α → Marks → Expr α
  | constant v _, m => constant v m
  | attr n _, m => attr n m
  | scope a _, m => scope a m
  | binary op l r _, m => binary op l r m

@[simp] theorem marks_withMarks (e : Expr α) (m : Marks) : (e.withMarks m).marks = m := by
  cases e <;> rfl

def negate (e : Expr α) : Expr α := e.withMarks { e.marks with negated := !e.marks.negated }

def parenthesize (e : Expr α) : Expr α := e.withMarks { e.marks with parenthesized := true }

def text [Numeral α] : Expr α → String
  | constant v m => m.wrap false (Numeral.text v)
  | attr n m => m.wrap false n
  | scope a m => m.wrap false a.name
  | binary op l r m => m.wrap true (l.text ++ " " ++ op.sign ++ " " ++ r.text)

variable [Scalar α]

/-- Operands are evaluated from left to right; the first error counts. -/
def eval (env : Env α) : Expr α → Except Error α
  | constant v m => .ok (m.value v)
  | attr n m => (env.value n).map m.value
  | scope a m => env.target.map fun h => m.value (h.read a)
  | binary op l r m => do
    let x ← l.eval env
    let y ← r.eval env
    let z ← op.apply x y
    return m.value z

end Expr

def Vec3.eval {α : Type} [Scalar α] (env : Env α) (v : Vec3 (Expr α)) : Except Error (Vec3 α) := do
  let x ← v.x.eval env
  let y ← v.y.eval env
  let z ← v.z.eval env
  return ⟨x, y, z⟩

end ShapeGrammar
