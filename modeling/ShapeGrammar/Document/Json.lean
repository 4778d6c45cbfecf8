import ShapeGrammar.Decimal

/-! JSON values, their text, and access to their parts. Numbers keep the sign of a zero and whether
they were written as whole numbers, since some readers tell these apart. -/
namespace ShapeGrammar

namespace Json

/-- A number as it is written, `whole` if without a point and an exponent. -/
structure Number where
  negative : Bool
  whole : Bool
  decimal : Decimal
  deriving DecidableEq, Repr

namespace Number

def ofNat (n : Nat) : Number := ⟨false, true, n, 0⟩

/-- A whole number of at most 64 bits without a sign. -/
def nat? (n : Number) : Option Nat :=
  if n.whole && !n.negative && n.decimal.coefficient < Nat.pow 2 64 then some n.decimal.coefficient
  else none

def text (n : Number) : String :=
  let sign := if n.negative then "-" else ""
  let digits := toString n.decimal.coefficient
  if n.whole then sign ++ digits else sign ++ digits ++ "e" ++ toString n.decimal.exponent

end Number
end Json

inductive Json
  | null
  | bool (value : Bool)
  | number (value : Json.Number)
  | string (value : String)
  | array (elements : List Json)
  | object (members : List (String × Json))

namespace Json

def nat (n : Nat) : Json := .number (.ofNat n)

/-- An object with one member, as a variant of a sum is written. -/
def tagged (tag : String) (content : Json) : Json := .object [(tag, content)]

def bool? : Json → Option Bool
  | bool b => some b
  | _ => none

def number? : Json → Option Number
  | number n => some n
  | _ => none

def nat? (j : Json) : Option Nat := j.number?.bind Number.nat?

def string? : Json → Option String
  | string s => some s
  | _ => none

def array? : Json → Option (List Json)
  | array js => some js
  | _ => none

/-- A variant without content: its name as a string, or its name as the tag of null. -/
def unit? : Json → Option String
  | string name => some name
  | object [(name, null)] => some name
  | _ => none

def choose? {τ : Type} (values : List τ) (name : τ → String) (j : Json) : Option τ :=
  j.unit?.bind fun s => values.find? fun v => name v == s

/-- A part of a value, smaller than the whole. -/
abbrev Part (j : Json) := { k : Json // sizeOf k < sizeOf j }

def elements? : (j : Json) → Option (List j.Part)
  | array js => some <| js.attach.map fun ⟨k, h⟩ => ⟨k, by
      have := List.sizeOf_lt_of_mem h
      simp only [array.sizeOf_spec]; omega⟩
  | _ => none

def get? (j : Json) (name : String) : Option j.Part :=
  match j with
  | object members => find members
  | _ => none
where
  find : (members : List (String × Json)) → Option (object members).Part
    | [] => none
    | (n, k) :: rest =>
      if n == name then some ⟨k, by simp only [object.sizeOf_spec, List.cons.sizeOf_spec, Prod.mk.sizeOf_spec]; omega⟩
      else (find rest).map fun ⟨k, h⟩ => ⟨k, by
        simp only [object.sizeOf_spec, List.cons.sizeOf_spec] at h ⊢; omega⟩

/-- The parts of a record by name: of an object, or of an array that gives them in the order of
`names`, where parts at the end may be missing. -/
def record? (j : Json) (names : List String) : Option (String → Option j.Part) :=
  match j with
  | object members => some (object members).get?
  | array js =>
    if js.length ≤ names.length then (array js).elements?.map fun ks name => ks[names.idxOf name]?
    else none
  | _ => none

@[simp] theorem record?_object (members : List (String × Json)) (names : List String) :
    (object members).record? names = some (object members).get? := rfl

def variant? : (j : Json) → Option (String × j.Part)
  | object [(tag, k)] => some (tag, ⟨k, by
      simp only [object.sizeOf_spec, List.cons.sizeOf_spec, Prod.mk.sizeOf_spec]; omega⟩)
  | _ => none

@[simp] theorem variant?_tagged (tag : String) (k : Json) :
    (tagged tag k).variant? = some (tag, ⟨k, by
      simp only [tagged, object.sizeOf_spec, List.cons.sizeOf_spec, Prod.mk.sizeOf_spec]; omega⟩) :=
  rfl

def escape (c : Char) : String :=
  if c == '"' then "\\\"" else if c == '\\' then "\\\\" else
    if c.toNat < 32 then "\\u00" ++ String.ofList [Nat.digitChar (c.toNat / 16), Nat.digitChar (c.toNat % 16)]
    else String.singleton c

def quote (s : String) : String := s.foldl (fun t c => t ++ escape c) "\"" ++ "\""

mutual

def text : Json → String
  | null => "null"
  | bool true => "true"
  | bool false => "false"
  | number n => n.text
  | string s => quote s
  | array js => "[" ++ ",".intercalate (texts js) ++ "]"
  | object ms => "\x7b" ++ ",".intercalate (memberTexts ms) ++ "\x7d"

def texts : List Json → List String
  | [] => []
  | j :: js => j.text :: texts js

def memberTexts : List (String × Json) → List String
  | [] => []
  | m :: ms => memberText m :: memberTexts ms

def memberText : String × Json → String
  | (name, j) => quote name ++ ":" ++ j.text

end

end Json
end ShapeGrammar
