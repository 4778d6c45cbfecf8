import ShapeGrammar.Grammar
import ShapeGrammar.Document.Json

/-! Grammars, shapes and diagnostics as JSON. Every member is written, also one with its default;
how a number is written is left open. -/
namespace ShapeGrammar
variable {α : Type} (leaf : α → Json)

def Operator.tag : Operator → String
  | add => "Add"
  | sub => "Sub"
  | mul => "Mul"
  | div => "Div"
  | pow => "Pow"
  | rem => "Mod"

def ScopeAttribute.tag : ScopeAttribute → String
  | position a => "Translate" ++ axisTag a
  | rotation a => "Rotate" ++ axisTag a
  | size a => "Scale" ++ axisTag a
where
  axisTag : Axis → String
    | .x => "X"
    | .y => "Y"
    | .z => "Z"

def Marks.wrapJson (m : Marks) (kind : Json) : Json :=
  .object [("kind", kind), ("negated", .bool m.negated), ("parenthesized", .bool m.parenthesized)]

def Expr.toJson : Expr α → Json
  | constant v m => m.wrapJson (.tagged "Constant" (leaf v))
  | attr n m => m.wrapJson (.tagged "Attribute" (.string n))
  | scope a m => m.wrapJson (.tagged "Shape" (.string a.tag))
  | binary op l r m => m.wrapJson (.tagged "Binary"
      (.object [("op", .string op.tag), ("left", l.toJson), ("right", r.toJson)]))

def Vec3.toJson (v : Vec3 (Expr α)) : Json :=
  .object [("x", v.x.toJson leaf), ("y", v.y.toJson leaf), ("z", v.z.toJson leaf)]

def Size.toJson : Size α → Json
  | absolute e => .tagged "Absolute" (e.toJson leaf)
  | relative e => .tagged "Relative" (e.toJson leaf)

/-- An absent value is written as null. -/
def Json.ofOption {τ : Type} (f : τ → Json) : Option τ → Json
  | some v => f v
  | none => .null

mutual

def Successor.toJson : Successor α → Json
  | .symbol name => .tagged "Symbol" (.string name)
  | .operation op => .tagged "Operation" (Operation.toJson op)

def Operation.toJson : Operation α (Successor α) → Json
  | .translate v => .tagged "Translate" (v.toJson leaf)
  | .rotate v => .tagged "Rotate" (v.toJson leaf)
  | .scale v => .tagged "Scale" (v.toJson leaf)
  | .extrude axis e => .tagged "Extrude" (.object
      [("axis", .ofOption (.string ·.name) axis), ("distance", e.toJson leaf)])
  | .componentSplit c selections => .tagged "ComponentSplit" (.object
      [("selector", .string c.name), ("args", .array (Selection.toJsons selections))])
  | .split axis a p => .tagged "Split" (.object
      [("axis", .string axis.name), ("adjust", .ofOption (.string ·.name) a), ("pattern", Pattern.toJson p)])

def Selection.toJsons : List (Selection (Successor α)) → List Json
  | [] => []
  | k :: ks => Selection.toJson k :: Selection.toJsons ks

def Selection.toJson : Selection (Successor α) → Json
  | ⟨selector, s⟩ => .object [("selector", .string selector.name), ("successor", s.toJson)]

def Pattern.toJson : Pattern α (Successor α) → Json
  | ⟨items, repeats⟩ => .object [("items", .array (Item.toJsons items)), ("has_switch", .bool repeats)]

def Item.toJsons : List (Item α (Successor α)) → List Json
  | [] => []
  | i :: is => Item.toJson i :: Item.toJsons is

def Item.toJson : Item α (Successor α) → Json
  | .step size s => .tagged "Step" (.object [("size", size.toJson leaf), ("successor", s.toJson)])
  | .nested items repeats => .tagged "Pattern"
      (.object [("items", .array (Item.toJsons items)), ("has_switch", .bool repeats)])

end

def Rule.toJson (r : Rule α) : Json :=
  .object [("predecessor", .string r.predecessor),
    ("successors", .array (r.successors.map (Successor.toJson leaf)))]

def Json.ofAttr (name : String) (value : α) : Json :=
  .object [("name", .string name), ("value", leaf value)]

def Statement.toJson : Statement α → Json
  | attr name value => .tagged "Attribute" (.ofAttr leaf name value)
  | rule r => .tagged "Rule" (r.toJson leaf)

def Grammar.toJson (g : Grammar α) : Json :=
  .object [("statements", .array (g.statements.map (Statement.toJson leaf)))]

def Scope.toJson (s : Scope α) : Json :=
  .object [("transform", .array (s.transform.toList.map leaf)), ("size", .array (s.size.toList.map leaf))]

def Shape.toJson (h : Shape α) : Json := .tagged h.kind.name (h.scope.toJson leaf)

def Axiom.toJson (a : Axiom α) : Json :=
  .object [("symbol", .string a.symbol), ("shape", a.shape.toJson leaf)]

def Diagnostic.toJson (d : Diagnostic) : Json :=
  .object [("message", .string d.message), ("offset", .nat d.offset), ("line", .nat d.line),
    ("column", .nat d.column)]

end ShapeGrammar
