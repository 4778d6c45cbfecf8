import ShapeGrammar.Grammar

/-! The text of operations, rules and grammars. -/
namespace ShapeGrammar
variable {α : Type} [Numeral α]

def call (name : String) (v : Vec3 (Expr α)) : String :=
  name ++ "(" ++ v.x.text ++ ", " ++ v.y.text ++ ", " ++ v.z.text ++ ")"

def braces (alternatives : List String) : String :=
  "\x7b " ++ " | ".intercalate alternatives ++ " \x7d"

def braced (alternatives : List String) (repeats : Bool) : String :=
  if repeats then braces alternatives ++ "*" else braces alternatives

def Size.text : Size α → String
  | absolute e => e.text
  | relative e => "~" ++ e.text

mutual

def Successor.text : Successor α → String
  | .symbol name => name
  | .operation op => op.text

def Operation.text : Operation α (Successor α) → String
  | .translate v => call "T" v
  | .rotate v => call "R" v
  | .scale v => call "S" v
  | .extrude (some axis) e => "extrude(" ++ axis.name ++ ", " ++ e.text ++ ")"
  | .extrude none e => "extrude(" ++ e.text ++ ")"
  | .componentSplit c selections => "split(" ++ c.name ++ ") " ++ braces (Selection.texts selections)
  | .split axis (some a) p => "split(" ++ axis.name ++ ", " ++ a.name ++ ") " ++ p.text
  | .split axis none p => "split(" ++ axis.name ++ ") " ++ p.text

def Selection.texts : List (Selection (Successor α)) → List String
  | [] => []
  | k :: ks => k.text :: Selection.texts ks

def Selection.text : Selection (Successor α) → String
  | ⟨selector, s⟩ => selector.name ++ ": " ++ s.text

def Pattern.text : Pattern α (Successor α) → String
  | ⟨items, repeats⟩ => braced (Item.texts items) repeats

def Item.texts : List (Item α (Successor α)) → List String
  | [] => []
  | i :: is => i.text :: Item.texts is

def Item.text : Item α (Successor α) → String
  | .step size s => size.text ++ ": " ++ s.text
  | .nested items repeats => braced (Item.texts items) repeats

end

def Rule.text (r : Rule α) : String :=
  r.predecessor ++ " -->" ++ String.join (r.successors.map (" " ++ ·.text))

def Statement.text : Statement α → String
  | attr name v => "attr " ++ name ++ " = " ++ Numeral.text v
  | rule r => r.text

/-- One statement a line. -/
def Grammar.text (g : Grammar α) : String := String.join (g.statements.map (·.text ++ "\n"))

end ShapeGrammar
