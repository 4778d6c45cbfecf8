import ShapeGrammar.Document.Encode

/-! Grammars, shapes and diagnostics from JSON. A record is an object, whose members of unknown name
are passed over, or an array of its parts in their order. A sum is an object with one member; a
variant without content may be its name alone, and one with parts of its own has them by name.
Marks that are left out are not set, and options left out are absent. -/
namespace ShapeGrammar
variable {α : Type} (leaf : Json → Option α)

namespace Json

/-- A mark that may be left out, but not be null. -/
def mark? {j : Json} : Option j.Part → Option Bool
  | none => some false
  | some k => k.val.bool?

/-- An option, absent if its member is left out or null. -/
def option? {τ : Type} (j : Json) (name : String) (f : Json → Option τ) : Option (Option τ) :=
  match j.get? name with
  | none => some none
  | some ⟨.null, _⟩ => some none
  | some k => (f k.val).map some

def member? {τ : Type} (j : Json) (name : String) (f : Json → Option τ) : Option τ := do
  f (← j.get? name).val

def list? {τ : Type} (f : Json → Option τ) (j : Json) : Option (List τ) := j.array?.bind (·.mapM f)

def axis? : Json → Option Axis := choose? Axis.values Axis.name
def shapeKind? : Json → Option ShapeKind := choose? ShapeKind.values ShapeKind.name
def component? : Json → Option Component := choose? Component.values Component.name
def faceSelector? : Json → Option FaceSelector := choose? FaceSelector.values FaceSelector.name
def adjustment? : Json → Option Adjustment := choose? Adjustment.values Adjustment.name
def operator? : Json → Option Operator := choose? Operator.values Operator.tag
def scopeAttribute? : Json → Option ScopeAttribute := choose? ScopeAttribute.values ScopeAttribute.tag

end Json

def Expr.ofJson? (j : Json) : Option (Expr α) := do
  let part ← j.record? ["kind", "negated", "parenthesized"]
  let ⟨kind, _⟩ ← part "kind"
  let m := ⟨← Json.mark? (part "negated"), ← Json.mark? (part "parenthesized")⟩
  match kind.variant? with
  | some ("Constant", k) => return .constant (← leaf k.val) m
  | some ("Attribute", k) => return .attr (← k.val.string?) m
  | some ("Shape", k) => return .scope (← k.val.scopeAttribute?) m
  | some ("Binary", ⟨k, _⟩) =>
    let op ← k.member? "op" Json.operator?
    let ⟨l, _⟩ ← k.get? "left"
    let ⟨r, _⟩ ← k.get? "right"
    return .binary op (← Expr.ofJson? l) (← Expr.ofJson? r) m
  | _ => none
termination_by j

def Vec3.ofJson? (j : Json) : Option (Vec3 (Expr α)) :=
  return ⟨← j.member? "x" (Expr.ofJson? leaf), ← j.member? "y" (Expr.ofJson? leaf),
    ← j.member? "z" (Expr.ofJson? leaf)⟩

def Size.ofJson? (j : Json) : Option (Size α) :=
  match j.variant? with
  | some ("Absolute", k) => .absolute <$> Expr.ofJson? leaf k.val
  | some ("Relative", k) => .relative <$> Expr.ofJson? leaf k.val
  | _ => none

mutual

def Successor.ofJson? (j : Json) : Option (Successor α) :=
  match j.variant? with
  | some ("Symbol", k) => .symbol <$> k.val.string?
  | some ("Operation", ⟨k, _⟩) => .operation <$> Operation.ofJson? k
  | _ => none
termination_by j

def Operation.ofJson? (j : Json) : Option (Operation α (Successor α)) :=
  match j.variant? with
  | some ("Translate", k) => .translate <$> Vec3.ofJson? leaf k.val
  | some ("Rotate", k) => .rotate <$> Vec3.ofJson? leaf k.val
  | some ("Scale", k) => .scale <$> Vec3.ofJson? leaf k.val
  | some ("Extrude", k) =>
    return .extrude (← k.val.option? "axis" Json.axis?) (← k.val.member? "distance" (Expr.ofJson? leaf))
  | some ("ComponentSplit", ⟨k, _⟩) => do
    let component ← k.member? "selector" Json.component?
    let ⟨selections, _⟩ ← k.get? "args"
    return .componentSplit component (← (← selections.elements?).mapM fun ⟨c, _⟩ => Selection.ofJson? c)
  | some ("Split", ⟨k, _⟩) => do
    let axis ← k.member? "axis" Json.axis?
    let adjustment ← k.option? "adjust" Json.adjustment?
    let ⟨p, _⟩ ← k.get? "pattern"
    return .split axis adjustment (← Pattern.ofJson? p)
  | _ => none
termination_by j

def Selection.ofJson? (j : Json) : Option (Selection (Successor α)) := do
  let part ← j.record? ["selector", "successor"]
  let ⟨s, _⟩ ← part "successor"
  return ⟨← (← part "selector").val.faceSelector?, ← Successor.ofJson? s⟩
termination_by j

def Pattern.ofJson? (j : Json) : Option (Pattern α (Successor α)) := do
  let part ← j.record? ["items", "has_switch"]
  let ⟨items, _⟩ ← part "items"
  return ⟨← (← items.elements?).mapM fun ⟨i, _⟩ => Item.ofJson? i, ← Json.mark? (part "has_switch")⟩
termination_by j

def Item.ofJson? (j : Json) : Option (Item α (Successor α)) :=
  match j.variant? with
  | some ("Step", ⟨k, _⟩) => do
    let part ← k.record? ["size", "successor"]
    let ⟨s, _⟩ ← part "successor"
    return .step (← Size.ofJson? leaf (← part "size").val) (← Successor.ofJson? s)
  | some ("Pattern", ⟨k, _⟩) => Pattern.toItem <$> Pattern.ofJson? k
  | _ => none
termination_by j

end

def Rule.ofJson? (j : Json) : Option (Rule α) := do
  let part ← j.record? ["predecessor", "successors"]
  return ⟨← (← part "predecessor").val.string?,
    ← (← part "successors").val.list? (Successor.ofJson? leaf)⟩

def Json.attr? (j : Json) : Option (String × α) := do
  let part ← j.record? ["name", "value"]
  return (← (← part "name").val.string?, ← leaf (← part "value").val)

def Statement.ofJson? (j : Json) : Option (Statement α) :=
  match j.variant? with
  | some ("Attribute", k) => (fun (n, v) => .attr n v) <$> Json.attr? leaf k.val
  | some ("Rule", k) => .rule <$> Rule.ofJson? leaf k.val
  | _ => none

def Grammar.ofJson? (j : Json) : Option (Grammar α) := do
  let part ← j.record? ["statements"]
  return ⟨← (← part "statements").val.list? (Statement.ofJson? leaf)⟩

def Scope.ofJson? (j : Json) : Option (Scope α) := do
  let part ← j.record? ["transform", "size"]
  return ⟨← Mat4.ofList? (← (← part "transform").val.list? leaf),
    ← Vec3.ofList? (← (← part "size").val.list? leaf)⟩

def Shape.ofJson? (j : Json) : Option (Shape α) := do
  let (tag, k) ← j.variant?
  return ⟨← ShapeKind.values.find? (·.name == tag), ← Scope.ofJson? leaf k.val⟩

def Axiom.ofJson? (j : Json) : Option (Axiom α) := do
  let part ← j.record? ["symbol", "shape"]
  return ⟨← (← part "symbol").val.string?, ← Shape.ofJson? leaf (← part "shape").val⟩

def Diagnostic.ofJson? (j : Json) : Option Diagnostic := do
  let part ← j.record? ["message", "offset", "line", "column"]
  return ⟨← (← part "message").val.string?, ← (← part "offset").val.nat?,
    ← (← part "line").val.nat?, ← (← part "column").val.nat?⟩

end ShapeGrammar
