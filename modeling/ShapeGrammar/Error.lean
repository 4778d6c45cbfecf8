import ShapeGrammar.Shape
import ShapeGrammar.Diagnostic

/-! What can stop a derivation. -/
namespace ShapeGrammar

inductive Component
  | faces | edges | vertices
  deriving DecidableEq, Repr

def Component.values : List Component := [faces, edges, vertices]

def Component.name : Component → String
  | faces => "faces"
  | edges => "edges"
  | vertices => "vertices"

inductive Error
  | unreadable (report : Diagnostic)
  | undefinedAttribute (name : String)
  | unknownScopeAttribute (name : String)
  | unsupportedExtrusion (kind : ShapeKind) (axis : Axis)
  /-- Shapes of this kind have no such operation at all. -/
  | noStrategy (operation : String) (kind : ShapeKind)
  | unsupportedComponent (kind : ShapeKind) (component : Component)
  | divisionByZero (site : String)
  | mismatchedComponent (parent component : ShapeKind)
  | emptyStack
  | limitExceeded (limit : Nat)
  /-- An error with the text of the successor it was met at. -/
  | within (successor : String) (cause : Error)
  deriving DecidableEq, Repr

namespace Error

def message : Error → String
  | unreadable report => report.text
  | undefinedAttribute name => "undefined attribute: " ++ name
  | unknownScopeAttribute name => "unknown shape attribute: " ++ name
  | unsupportedExtrusion kind axis => "cannot extrude " ++ kind.name ++ " along " ++ axis.name
  | noStrategy operation kind => "no " ++ operation ++ " strategy for " ++ kind.name
  | unsupportedComponent kind component =>
    kind.name ++ " cannot be decomposed into " ++ component.name
  | divisionByZero site => "division by zero in " ++ site
  | mismatchedComponent parent component =>
    parent.name ++ " cannot have a " ++ component.name ++ " as a component"
  | emptyStack => "shape stack is empty"
  | limitExceeded limit => "rewrite budget of " ++ toString limit ++ " symbols exceeded"
  | within successor cause => "while rewriting \x60" ++ successor ++ "\x60: " ++ cause.message

def root : Error → Error
  | within _ cause => cause.root
  | e => e

end Error

def ScopeAttribute.ofName (name : String) : Except Error ScopeAttribute :=
  match ofName? name with
  | some a => .ok a
  | none => .error (.unknownScopeAttribute name)

end ShapeGrammar
