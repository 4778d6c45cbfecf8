import Mathlib.Data.List.DropRight
import Mathlib.Data.Prod.Lex
import ShapeGrammar.Proofs.Boundary

/-! Where in a text a diagnostic is. Its offset is the last boundary that is not beyond the offset asked
for, its line and column count the newlines before that and the characters since the last of them. Line
and column grow from one boundary to the next, line first, so that they tell all boundaries apart. -/
namespace ShapeGrammar

namespace Source

section Lines

/-- The lines before the last one, each with its newline. -/
def earlierLines (cs : List Char) : List Char := cs.rdropWhile (· != '\n')

theorem earlierLines_append_lastLine (cs : List Char) : earlierLines cs ++ lastLine cs = cs :=
  List.rdropWhile_append_rtakeWhile

theorem newline_not_mem_lastLine (cs : List Char) : '\n' ∉ lastLine cs := by
  intro hmem
  have hother := List.mem_takeWhile_imp (List.mem_reverse.mp hmem)
  simp at hother

theorem earlierLines_cases (cs : List Char) :
    earlierLines cs = [] ∨ ∃ lines, earlierLines cs = lines ++ ['\n'] := by
  induction cs using List.reverseRecOn with
  | nil => exact .inl rfl
  | append_singleton cs c ih =>
    rw [earlierLines, List.rdropWhile_concat]
    split
    next => exact ih
    next hc =>
      have hnewline : c = '\n' := by simpa using hc
      exact .inr ⟨cs, by rw [hnewline]⟩

theorem lastLine_concat (cs : List Char) {c : Char} (hc : c ≠ '\n') :
    lastLine (cs ++ [c]) = lastLine cs ++ [c] :=
  List.rtakeWhile_concat_pos _ _ _ (by simpa using hc)

end Lines

section Place

/-- Line and column behind a text, compared line first. -/
def place (before : List Char) : ℕ ×ₗ ℕ := toLex (before.count '\n' + 1, (lastLine before).length + 1)

theorem place_lt_concat (before : List Char) (c : Char) : place before < place (before ++ [c]) := by
  rw [place, place, Prod.Lex.toLex_lt_toLex, List.count_append, List.count_singleton]
  by_cases hc : c = '\n'
  · subst hc
    exact .inl (by simp)
  · refine .inr ⟨by simp [hc], ?_⟩
    rw [lastLine_concat before hc, List.length_append, List.length_singleton]
    exact Nat.lt_succ_self _

theorem place_lt_append (before : List Char) (c : Char) (cs : List Char) :
    place before < place (before ++ c :: cs) := by
  induction cs generalizing before c with
  | nil => exact place_lt_concat before c
  | cons d ds ih =>
    have hrest := ih (before ++ [c]) d
    rw [List.append_assoc, List.singleton_append] at hrest
    exact (place_lt_concat before c).trans hrest

end Place

section Bytewise

def lastNewline? : List Char → Option Nat
  | [] => none
  | c :: cs =>
    match lastNewline? cs with
    | some i => some (c.utf8Size + i)
    | none => if c = '\n' then some 0 else none

theorem lastNewline?_eq_none {cs : List Char} (h : '\n' ∉ cs) : lastNewline? cs = none := by
  induction cs with
  | nil => rfl
  | cons c cs ih =>
    obtain ⟨hc, hcs⟩ := not_or.mp (mt List.mem_cons.mpr h)
    rw [lastNewline?, ih hcs]
    exact if_neg (Ne.symm hc)

theorem lastNewline?_append (lines : List Char) {cs : List Char} (h : '\n' ∉ cs) :
    lastNewline? (lines ++ '\n' :: cs) = some (byteLength lines) := by
  induction lines with
  | nil =>
    rw [List.nil_append, lastNewline?, lastNewline?_eq_none h]
    rfl
  | cons c lines ih => rw [List.cons_append, lastNewline?, ih, byteLength_cons]

/-- How many bytes into a text its last line starts: one behind the last newline. -/
def lineStart (before : List Char) : Nat := (lastNewline? before).elim 0 (· + 1)

theorem lineStart_eq (before : List Char) : lineStart before = byteLength (earlierLines before) := by
  have hline := newline_not_mem_lastLine before
  have happend := earlierLines_append_lastLine before
  obtain hnone | ⟨lines, hlines⟩ := earlierLines_cases before
  · have hsame : lastLine before = before := by rw [hnone] at happend; exact happend
    rw [hnone, lineStart, lastNewline?_eq_none (hsame ▸ hline)]
    rfl
  · have hcut : before = lines ++ '\n' :: lastLine before := by
      rw [hlines, List.append_assoc] at happend
      exact happend.symm
    rw [hlines, lineStart, hcut, lastNewline?_append lines hline, byteLength_append]
    rfl

theorem slice?_lastLine {source : String} {before after : List Char} (h : source.toList = before ++ after) :
    slice? source (lineStart before) (byteLength before) = some (.ofList (lastLine before)) := by
  have hlines := earlierLines_append_lastLine before
  have hslice := slice?_eq (h.trans (congrArg (· ++ after) hlines.symm))
  rwa [hlines, ← lineStart_eq] at hslice

end Bytewise

end Source

namespace Diagnostic

def place (d : Diagnostic) : ℕ ×ₗ ℕ := toLex (d.line, d.column)

/-- A diagnostic located on the bytes of the text, all parts of which are taken out by byte offsets. -/
def locateBytewise? (source : String) (offset : Nat) (message : String) : Option Diagnostic := do
  let offset ← Source.floor? source (min offset source.utf8ByteSize)
  let before ← Source.slice? source 0 offset
  let tail ← Source.slice? source (Source.lineStart before.toList) offset
  return { message, offset, line := before.toList.count '\n' + 1, column := tail.length + 1 }

theorem locate_split {source : String} {offset : Nat} {before after : List Char} (message : String)
    (hsplit : Source.split offset source.toList = (before, after)) :
    locate source offset message =
      ⟨message, Source.byteLength before, before.count '\n' + 1, (Source.lastLine before).length + 1⟩ := by
  rw [locate, hsplit]

section Cut
variable (source : String) (offset : Nat) (message : String)

theorem locateBytewise?_eq : locateBytewise? source offset message = some (locate source offset message) := by
  obtain ⟨before, after, hsource, hsplit⟩ := Source.exists_split source offset
  simp only [locateBytewise?, Source.floor?_min, hsplit, Option.bind_eq_bind, Option.bind_some,
    Source.slice?_before hsource, String.toList_ofList, Source.slice?_lastLine hsource, String.length_ofList,
    locate_split message hsplit]
  rfl

theorem locate_boundary {before after : List Char} (hsource : source.toList = before ++ after) :
    locate source (Source.byteLength before) message =
      ⟨message, Source.byteLength before, before.count '\n' + 1, (Source.lastLine before).length + 1⟩ :=
  locate_split message (by rw [hsource, Source.split_byteLength])

theorem locate_offset (message' : String) :
    locate source (locate source offset message).offset message' =
      { locate source offset message with message := message' } :=
  locate_boundary source message' (Source.split_append offset source.toList).symm

theorem strictMonoOn_place :
    StrictMonoOn (fun i => (locate source i message).place) {i | Source.IsBoundary source i} := by
  intro i hi j hj hij
  obtain ⟨before, after, hsource, rfl⟩ := Source.isBoundary_iff.mp hi
  obtain ⟨before', after', hsource', rfl⟩ := Source.isBoundary_iff.mp hj
  obtain ⟨between, rfl, -⟩ := Source.exists_append_of_le (hsource.symm.trans hsource') hij.le
  simp only [locate_boundary source message hsource, locate_boundary source message hsource']
  cases between with
  | nil => rw [List.append_nil] at hij; exact absurd hij (Nat.lt_irrefl _)
  | cons c cs => exact Source.place_lt_append before c cs

end Cut

/-- A diagnostic is at the last boundary that is not beyond its offset, which is found without a cut
within a character. Its line counts the newlines before the boundary and its column the characters
since the last of them. To be located again changes nothing. From boundary to boundary line and column
grow, line first, and so diagnostics with the same line and column have the same offset. -/
theorem place_determines_offset (source : String) :
    (∀ offset message,
      let d := locate source offset message
      locateBytewise? source offset message = some d ∧ d.message = message ∧
      IsGreatest {i | Source.IsBoundary source i ∧ i ≤ min offset source.utf8ByteSize} d.offset ∧
      (∃ lines tail after : List Char, source = .ofList (lines ++ tail ++ after) ∧
        (String.ofList (lines ++ tail)).utf8ByteSize = d.offset ∧
        (lines = [] ∨ lines.getLast? = some '\n') ∧ '\n' ∉ tail ∧
        d.line = 1 + (lines ++ tail).count '\n' ∧ d.column = 1 + tail.length) ∧
      locate source d.offset message = d) ∧
    (∀ message, StrictMonoOn (fun i => toLex ((locate source i message).line, (locate source i message).column))
      {i | Source.IsBoundary source i}) ∧
    ∀ offset offset' message message',
      (locate source offset message).line = (locate source offset' message').line →
      (locate source offset message).column = (locate source offset' message').column →
      (locate source offset message).offset = (locate source offset' message').offset := by
  refine ⟨fun offset message => ⟨locateBytewise?_eq source offset message, rfl,
    Source.isGreatest_split_min source offset, ?_, locate_offset source offset message message⟩,
    strictMonoOn_place source, ?_⟩
  · obtain ⟨before, after, hsource, hsplit⟩ := Source.exists_split source offset
    have hlines := Source.earlierLines_append_lastLine before
    rw [locate_split message hsplit]
    refine ⟨Source.earlierLines before, Source.lastLine before, after, ?_, ?_, ?_,
      Source.newline_not_mem_lastLine before, ?_, Nat.add_comm _ _⟩
    · rw [hlines, ← hsource, String.ofList_toList]
    · rw [hlines, String.utf8ByteSize_ofList, ← Source.byteLength_eq]
    · refine (Source.earlierLines_cases before).imp_right ?_
      rintro ⟨lines, hlast⟩
      rw [hlast, List.getLast?_concat]
    · rw [hlines, Nat.add_comm]
  · intro offset offset' message message' hline hcolumn
    have hat (o : Nat) (m : String) : Source.IsBoundary source (locate source o m).offset :=
      (Source.isGreatest_split source o).1.1
    refine (strictMonoOn_place source message).injOn (hat offset message) (hat offset' message') ?_
    simp only [locate_offset, place, hline, hcolumn]

/-- The second letter of this text is on its second line, and so is what is asked for within its bytes. -/
theorem place_determines_offset_umlaut :
    let source := "ä\r\nöx"
    locate source 5 "odd" = ⟨"odd", 4, 2, 1⟩ ∧ locate source 4 "unexpected" = ⟨"unexpected", 4, 2, 1⟩ ∧
    (locate source 5 "odd").offset = (locate source 4 "unexpected").offset ∧
    Source.IsBoundary source 2 ∧ Source.IsBoundary source 4 ∧
    toLex ((locate source 2 "odd").line, (locate source 2 "odd").column) <
      toLex ((locate source 4 "odd").line, (locate source 4 "odd").column) := by
  intro source
  obtain ⟨-, hmono, hinj⟩ := place_determines_offset source
  have hreturn : Source.IsBoundary source 2 := Source.isBoundary_iff.mpr ⟨['ä'], ['\r', '\n', 'ö', 'x'], by decide⟩
  have hletter : Source.IsBoundary source 4 := Source.isBoundary_iff.mpr ⟨['ä', '\r', '\n'], ['ö', 'x'], by decide⟩
  exact ⟨by decide, by decide, hinj 5 4 "odd" "unexpected" (by decide) (by decide), hreturn, hletter,
    hmono "odd" hreturn hletter (by decide)⟩

end Diagnostic
end ShapeGrammar
