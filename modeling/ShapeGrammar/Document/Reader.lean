import ShapeGrammar.Document.Json

/-! Reading JSON text: characters are gathered into tokens, tokens into a value. Both are folds, so
neither the length of a text nor the depth of its nesting is limited. -/
namespace ShapeGrammar.Json

inductive Token
  | openArray | closeArray | openObject | closeObject | comma | colon
  | text (value : String)
  | word (letters : List Char)

def Number.ofWord? (word : List Char) : Option Number := do
  let (negative, rest) := match word with
    | '-' :: rest => (true, rest)
    | _ => (false, word)
  let whole := rest.takeWhile Char.isDigit
  let rest := rest.dropWhile Char.isDigit
  if whole.isEmpty || (whole.head? == some '0' && whole.length != 1) then none
  let (places, rest) ← match rest with
    | '.' :: rest =>
      let places := rest.takeWhile Char.isDigit
      if places.isEmpty then none else some (places, rest.dropWhile Char.isDigit)
    | _ => some ([], rest)
  let exponent ← match rest with
    | [] => some none
    | e :: rest =>
      let (lower, digits) := match rest with
        | '-' :: digits => (true, digits)
        | '+' :: digits => (false, digits)
        | digits => (false, digits)
      if (e == 'e' || e == 'E') && !digits.isEmpty && digits.all Char.isDigit then
        some (some (if lower then -(value digits : Int) else value digits))
      else none
  return {
    negative
    whole := places.isEmpty && exponent.isNone
    decimal := ⟨value (whole ++ places), exponent.getD 0 - places.length⟩ }
where
  value (digits : List Char) : Nat := digits.foldl (fun n c => 10 * n + (c.toNat - 48)) 0

def ofWord? (letters : List Char) : Option Json :=
  if letters == ['n', 'u', 'l', 'l'] then some .null
  else if letters == ['t', 'r', 'u', 'e'] then some (.bool true)
  else if letters == ['f', 'a', 'l', 's', 'e'] then some (.bool false)
  else (Number.ofWord? letters).map .number

/-- Where the characters read so far end; letters are kept last first. A first half of a surrogate
pair waits for its second half. -/
inductive Mode
  | between
  | word (letters : List Char)
  | text (letters : List Char)
  | escape (letters : List Char)
  | code (letters : List Char) (first : Option Nat) (digits value : Nat)
  | pair (letters : List Char) (first : Nat)
  | pairEscape (letters : List Char) (first : Nat)

structure Lexer where
  mode : Mode
  tokens : Array Token

namespace Lexer

def mark? (c : Char) : Option Token :=
  if c == '[' then some .openArray else if c == ']' then some .closeArray
  else if c == '\x7b' then some .openObject else if c == '\x7d' then some .closeObject
  else if c == ',' then some .comma else if c == ':' then some .colon else none

def isBlank (c : Char) : Bool := c == ' ' || c == '\t' || c == '\n' || c == '\r'

def fresh (tokens : Array Token) (c : Char) : Lexer :=
  match mark? c with
  | some t => ⟨.between, tokens.push t⟩
  | none =>
    if isBlank c then ⟨.between, tokens⟩
    else if c == '"' then ⟨.text [], tokens⟩ else ⟨.word [c], tokens⟩

def hexValue? (c : Char) : Option Nat :=
  if c.isDigit then some (c.toNat - 48)
  else if 'a' ≤ c ∧ c ≤ 'f' then some (c.toNat - 87)
  else if 'A' ≤ c ∧ c ≤ 'F' then some (c.toNat - 55)
  else none

def escaped? (c : Char) : Option Char :=
  if c == '"' || c == '\\' || c == '/' then some c
  else if c == 'b' then some '\x08' else if c == 'f' then some '\x0c'
  else if c == 'n' then some '\n' else if c == 'r' then some '\r'
  else if c == 't' then some '\t' else none

def unit? (letters : List Char) (first : Option Nat) (value : Nat) : Option Mode :=
  match first with
  | some high =>
    if 0xDC00 ≤ value ∧ value ≤ 0xDFFF then
      some (.text (Char.ofNat (0x10000 + (high - 0xD800) * 0x400 + (value - 0xDC00)) :: letters))
    else none
  | none =>
    if 0xD800 ≤ value ∧ value ≤ 0xDBFF then some (.pair letters value)
    else if 0xDC00 ≤ value ∧ value ≤ 0xDFFF then none
    else some (.text (Char.ofNat value :: letters))

def step (l : Lexer) (c : Char) : Option Lexer :=
  match l.mode with
  | .between => some (fresh l.tokens c)
  | .word letters =>
    if (mark? c).isSome || isBlank c || c == '"' then
      some (fresh (l.tokens.push (.word letters.reverse)) c)
    else some { l with mode := .word (c :: letters) }
  | .text letters =>
    if c == '"' then some ⟨.between, l.tokens.push (.text (String.ofList letters.reverse))⟩
    else if c == '\\' then some { l with mode := .escape letters }
    else some { l with mode := .text (c :: letters) }
  | .escape letters =>
    if c == 'u' then some { l with mode := .code letters none 0 0 }
    else (escaped? c).map fun e => { l with mode := .text (e :: letters) }
  | .code letters first digits value => do
    let value := 16 * value + (← hexValue? c)
    if digits == 3 then return { l with mode := ← unit? letters first value }
    else return { l with mode := .code letters first (digits + 1) value }
  | .pair letters high => if c == '\\' then some { l with mode := .pairEscape letters high } else none
  | .pairEscape letters high =>
    if c == 'u' then some { l with mode := .code letters (some high) 0 0 } else none

def finish? (l : Lexer) : Option (Array Token) :=
  match l.mode with
  | .between => some l.tokens
  | .word letters => some (l.tokens.push (.word letters.reverse))
  | _ => none

end Lexer

def tokens? (s : String) : Option (Array Token) :=
  (s.toList.foldlM Lexer.step ⟨.between, #[]⟩).bind Lexer.finish?

/-- A container that is not closed yet, its parts last first; a member waits for its value. -/
inductive Frame
  | array (elements : List Json)
  | object (members : List (String × Json))
  | member (members : List (String × Json)) (name : String)

/-- What may follow: a value, a value or the end of an empty array, a name or the end of an empty
object, a name, a colon, or a comma or an end. -/
inductive Expected
  | value | element | member | name | colon | next

inductive Builder
  | building (frames : List Frame) (expected : Expected)
  | built (value : Json)

namespace Builder

/-- A complete value; of members of one name the last counts. -/
def place (j : Json) : List Frame → Option Builder
  | [] => some (built j)
  | .array js :: frames => some (building (.array (j :: js) :: frames) .next)
  | .member ms name :: frames =>
    some (building (.object ((name, j) :: ms.filter (·.1 != name)) :: frames) .next)
  | .object _ :: _ => none

def beginsValue : Expected → Bool
  | .value | .element => true
  | _ => false

def step : Builder → Token → Option Builder
  | building frames e, .openArray => if beginsValue e then some (building (.array [] :: frames) .element) else none
  | building frames e, .openObject => if beginsValue e then some (building (.object [] :: frames) .member) else none
  | building frames e, .word letters => if beginsValue e then (ofWord? letters).bind (place · frames) else none
  | building (.object ms :: frames) .member, .text s
  | building (.object ms :: frames) .name, .text s => some (building (.member ms s :: frames) .colon)
  | building frames e, .text s => if beginsValue e then place (.string s) frames else none
  | building frames .colon, .colon => some (building frames .value)
  | building (.array js :: frames) .next, .comma => some (building (.array js :: frames) .value)
  | building (.object ms :: frames) .next, .comma => some (building (.object ms :: frames) .name)
  | building (.array js :: frames) .element, .closeArray
  | building (.array js :: frames) .next, .closeArray => place (.array js.reverse) frames
  | building (.object ms :: frames) .member, .closeObject
  | building (.object ms :: frames) .next, .closeObject => place (.object ms.reverse) frames
  | _, _ => none

end Builder

def ofText? (s : String) : Option Json := do
  match ← (← tokens? s).foldlM Builder.step (.building [] .value) with
  | .built j => return j
  | .building _ _ => none

end ShapeGrammar.Json
