/-! Diagnostics of grammar source text: a message at a byte offset, with its line and column, and
the line it points into. Offsets count bytes of UTF-8, lines and columns start at one, columns
count characters. -/
namespace ShapeGrammar

namespace Source

/-- Splits a text at the last character boundary that is at most `offset` bytes in. -/
def split : Nat → List Char → List Char × List Char
  | _, [] => ([], [])
  | offset, c :: cs =>
    if c.utf8Size ≤ offset then
      let (before, after) := split (offset - c.utf8Size) cs
      (c :: before, after)
    else ([], c :: cs)

theorem split_append (offset : Nat) (cs : List Char) :
    (split offset cs).1 ++ (split offset cs).2 = cs := by
  induction cs generalizing offset with
  | nil => rfl
  | cons c cs ih => rw [split]; split <;> simp [ih]

def byteLength : List Char → Nat
  | [] => 0
  | c :: cs => c.utf8Size + byteLength cs

def lastLine (cs : List Char) : List Char := (cs.reverse.takeWhile (· != '\n')).reverse

def firstLine (cs : List Char) : List Char := cs.takeWhile (· != '\n')

def dropReturns (cs : List Char) : List Char := (cs.reverse.dropWhile (· == '\r')).reverse

end Source

/-- A message that a reader of grammar text reports, with the place it belongs to. -/
structure Diagnostic where
  message : String
  offset : Nat
  line : Nat
  column : Nat
  deriving DecidableEq, Repr

namespace Diagnostic

/-- A message at the last character boundary that is at most `offset` bytes into the source. -/
def locate (source : String) (offset : Nat) (message : String) : Diagnostic :=
  let before := (Source.split offset source.toList).1
  { message
    offset := Source.byteLength before
    line := before.count '\n' + 1
    column := (Source.lastLine before).length + 1 }

def text (d : Diagnostic) : String :=
  d.message ++ " (line " ++ toString d.line ++ ", column " ++ toString d.column ++ ")"

/-- The line of `source` that holds the offset, without carriage returns at its end, and an arrow
below as many characters in as stand before the offset on that line. -/
def render (d : Diagnostic) (source : String) : String :=
  let (before, after) := Source.split d.offset source.toList
  let head := Source.lastLine before
  String.ofList (Source.dropReturns (head ++ Source.firstLine after)
    ++ '\n' :: List.replicate head.length ' ' ++ ['↑'])

end Diagnostic
end ShapeGrammar
