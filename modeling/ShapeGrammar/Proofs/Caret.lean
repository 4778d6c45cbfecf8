import ShapeGrammar.Proofs.Place

/-! The line that a diagnostic shows and the arrow below it. Rendered over its own text a diagnostic shows
the line that it counts, one of the pieces between the newlines of the text, with the arrow below its
column. Over any other text it still shows a single line, found without a cut within a character. -/
namespace ShapeGrammar

namespace Source

section Lines

def laterLines (cs : List Char) : List Char := cs.dropWhile (· != '\n')

theorem firstLine_append_laterLines (cs : List Char) : firstLine cs ++ laterLines cs = cs :=
  List.takeWhile_append_dropWhile

theorem newline_not_mem_firstLine (cs : List Char) : '\n' ∉ firstLine cs := by
  intro hmem
  have hother := List.mem_takeWhile_imp hmem
  simp at hother

theorem laterLines_cases (cs : List Char) :
    laterLines cs = [] ∨ ∃ lines, laterLines cs = '\n' :: lines := by
  induction cs with
  | nil => exact .inl rfl
  | cons c cs ih =>
    rw [laterLines, List.dropWhile_cons]
    split
    next => exact ih
    next hc =>
      have hnewline : c = '\n' := by simpa using hc
      exact .inr ⟨cs, by rw [hnewline]⟩

/-- What is left of a line lacks the carriage returns at its end and nothing else. -/
theorem exists_append_returns (cs : List Char) :
    ∃ k, cs = dropReturns cs ++ List.replicate k '\r' ∧ (dropReturns cs).getLast? ≠ some '\r' := by
  induction cs using List.reverseRecOn with
  | nil => exact ⟨0, rfl, by simp [dropReturns]⟩
  | append_singleton cs c ih =>
    have hconcat : dropReturns (cs ++ [c]) = if c == '\r' then dropReturns cs else cs ++ [c] :=
      List.rdropWhile_concat _ _ _
    rw [hconcat]
    split
    next hc =>
      obtain ⟨k, hk, hlast⟩ := ih
      refine ⟨k + 1, ?_, hlast⟩
      rw [List.replicate_succ', ← List.append_assoc, ← hk, beq_iff_eq.mp hc]
    next hc => exact ⟨0, by simp, by simpa using hc⟩

theorem newline_not_mem_dropReturns {cs : List Char} (h : '\n' ∉ cs) : '\n' ∉ dropReturns cs :=
  fun hmem => h ((List.rdropWhile_prefix (· == '\r') cs).subset hmem)

end Lines

section Pieces

theorem length_splitOn (cs : List Char) : (cs.splitOn '\n').length = cs.count '\n' + 1 := by
  induction cs with
  | nil => rfl
  | cons c cs ih =>
    rw [List.splitOn_cons_eq_if_modifyHead, List.count_cons]
    split
    next hc => rw [List.length_cons, ih]
    next hc => rw [List.length_modifyHead, ih, Nat.add_zero]

theorem head_splitOn {line : List Char} (h : '\n' ∉ line) (after : List Char) :
    ((line ++ after).splitOn '\n')[0]? = some (line ++ firstLine after) := by
  have hpiece : '\n' ∉ line ++ firstLine after :=
    List.not_mem_append h (newline_not_mem_firstLine after)
  rw [← firstLine_append_laterLines after, ← List.append_assoc, firstLine_append_laterLines]
  obtain hnone | ⟨lines, hlines⟩ := laterLines_cases after
  · rw [hnone, List.append_nil, List.splitOn_eq_singleton hpiece]
    rfl
  · rw [hlines, List.splitOn_append_cons_self_of_not_mem hpiece]
    rfl

/-- The piece around a cut is the one before which there are as many newlines as before the cut. -/
theorem getElem?_splitOn (before after : List Char) :
    ((before ++ after).splitOn '\n')[before.count '\n']? = some (lastLine before ++ firstLine after) := by
  have hline := newline_not_mem_lastLine before
  have happend := earlierLines_append_lastLine before
  have hhead := head_splitOn hline after
  obtain hnone | ⟨lines, hlines⟩ := earlierLines_cases before
  · have hsame : lastLine before = before := by rw [hnone] at happend; exact happend
    rw [hsame] at hline hhead
    rw [List.count_eq_zero.mpr hline, hhead, hsame]
  · have hcut : before = lines ++ '\n' :: lastLine before := by
      rw [hlines, List.append_assoc] at happend
      exact happend.symm
    have hcount : before.count '\n' = (lines.splitOn '\n').length := by
      rw [length_splitOn, hcut, List.count_append, List.count_cons_self, List.count_eq_zero.mpr hline]
    have hpieces : (before ++ after).splitOn '\n' = lines.splitOn '\n' ++ (lastLine before ++ after).splitOn '\n' := by
      rw [← List.splitOn_append_cons_self, ← List.cons_append, ← List.append_assoc, ← hcut]
    rw [hpieces, hcount, List.getElem?_append_right le_rfl, Nat.sub_self, hhead]

end Pieces

section Bytewise

def firstNewline? : List Char → Option Nat
  | [] => none
  | c :: cs => if c = '\n' then some 0 else (firstNewline? cs).map (c.utf8Size + ·)

theorem firstNewline?_eq_none {cs : List Char} (h : '\n' ∉ cs) : firstNewline? cs = none := by
  induction cs with
  | nil => rfl
  | cons c cs ih =>
    obtain ⟨hc, hcs⟩ := not_or.mp (mt List.mem_cons.mpr h)
    rw [firstNewline?, if_neg (Ne.symm hc), ih hcs, Option.map_none]

theorem firstNewline?_append {cs : List Char} (h : '\n' ∉ cs) (lines : List Char) :
    firstNewline? (cs ++ '\n' :: lines) = some (byteLength cs) := by
  induction cs with
  | nil => rfl
  | cons c cs ih =>
    obtain ⟨hc, hcs⟩ := not_or.mp (mt List.mem_cons.mpr h)
    rw [List.cons_append, firstNewline?, if_neg (Ne.symm hc), ih hcs, Option.map_some, byteLength_cons]

/-- How many bytes into a text the line ends that holds an offset: at the first newline behind it. -/
def lineEnd (source : String) (offset : Nat) (after : List Char) : Nat :=
  (firstNewline? after).elim source.utf8ByteSize (offset + ·)

theorem lineEnd_eq {source : String} {before after : List Char} (h : source.toList = before ++ after) :
    lineEnd source (byteLength before) after = byteLength (before ++ firstLine after) := by
  have hline := newline_not_mem_firstLine after
  have happend := firstLine_append_laterLines after
  obtain hnone | ⟨lines, hlines⟩ := laterLines_cases after
  · have hsame : firstLine after = after := by rw [hnone, List.append_nil] at happend; exact happend
    rw [lineEnd, firstNewline?_eq_none (hsame ▸ hline), hsame, ← h, byteLength_toList]
    rfl
  · have hfirst : firstNewline? after = some (byteLength (firstLine after)) := by
      rw [← firstNewline?_append hline lines, ← hlines, happend]
    rw [lineEnd, hfirst, byteLength_append]
    rfl

theorem slice?_line {source : String} {before after : List Char} (h : source.toList = before ++ after) :
    slice? source (lineStart before) (lineEnd source (byteLength before) after) =
      some (.ofList (lastLine before ++ firstLine after)) := by
  have hearlier := earlierLines_append_lastLine before
  have hparts : source.toList =
      earlierLines before ++ (lastLine before ++ firstLine after) ++ laterLines after := by
    rw [← List.append_assoc, hearlier, List.append_assoc, firstLine_append_laterLines, h]
  rw [lineEnd_eq h, lineStart_eq]
  have hslice := slice?_eq hparts
  rwa [← List.append_assoc, hearlier] at hslice

end Bytewise

end Source

namespace Diagnostic

/-- A diagnostic rendered on the bytes of the text, all parts of which are taken out by byte offsets. -/
def renderBytewise? (d : Diagnostic) (source : String) : Option String := do
  let offset ← Source.floor? source (min d.offset source.utf8ByteSize)
  let before ← Source.slice? source 0 offset
  let after ← Source.slice? source offset source.utf8ByteSize
  let start := Source.lineStart before.toList
  let line ← Source.slice? source start (Source.lineEnd source offset after.toList)
  let margin ← Source.slice? source start offset
  return .ofList (Source.dropReturns line.toList) ++ "\n" ++ .ofList (List.replicate margin.length ' ') ++ "↑"

section Render
variable (d : Diagnostic) (source : String)

theorem render_split {before after : List Char} (hsplit : Source.split d.offset source.toList = (before, after)) :
    d.render source = .ofList (Source.dropReturns (Source.lastLine before ++ Source.firstLine after)
      ++ '\n' :: List.replicate (Source.lastLine before).length ' ' ++ ['↑']) := by
  rw [render, hsplit]

theorem renderBytewise?_eq : renderBytewise? d source = some (d.render source) := by
  obtain ⟨before, after, hsource, hsplit⟩ := Source.exists_split source d.offset
  simp only [renderBytewise?, Source.floor?_min, hsplit, Option.bind_eq_bind, Option.bind_some,
    Source.slice?_before hsource, Source.slice?_after hsource, String.toList_ofList, Source.slice?_line hsource,
    Source.slice?_lastLine hsource, String.length_ofList, render_split d source hsplit]
  refine congrArg some (String.toList_inj.mp ?_)
  simp

end Render

/-- Over its own text a diagnostic is rendered as the piece of the text that its line counts, without the
carriage returns at its end, a newline, and an arrow in its column. Over any other text, with any offset,
no part is cut within a character, and what is rendered has one newline and ends in the arrow. -/
theorem render_shows_place (source : String) :
    (∀ offset message,
      let e := locate source offset message
      ∃ shown k,
      (source.toList.splitOn '\n')[e.line - 1]? = some (shown ++ List.replicate k '\r') ∧
      shown.getLast? ≠ some '\r' ∧
      e.render source = .ofList (shown ++ '\n' :: List.replicate (e.column - 1) ' ' ++ ['↑'])) ∧
    ∀ d : Diagnostic, renderBytewise? d source = some (d.render source) ∧
      (d.render source).toList.count '\n' = 1 ∧ ∃ text, d.render source = text ++ "↑" := by
  refine ⟨fun offset message => ?_, fun d => ⟨renderBytewise?_eq d source, ?_⟩⟩
  · obtain ⟨before, after, hsource, hsplit⟩ := Source.exists_split source offset
    have he := locate_split message hsplit
    obtain ⟨k, hk, hlast⟩ := Source.exists_append_returns (Source.lastLine before ++ Source.firstLine after)
    refine ⟨_, k, ?_, hlast, ?_⟩
    · rw [← hk, he, Nat.add_sub_cancel, hsource, Source.getElem?_splitOn]
    · have hagain : Source.split (locate source offset message).offset source.toList = (before, after) := by
        rw [he, hsource, Source.split_byteLength]
      rw [render_split _ source hagain, he, Nat.add_sub_cancel]
  · obtain ⟨before, after, -, hsplit⟩ := Source.exists_split source d.offset
    have hline : '\n' ∉ Source.dropReturns (Source.lastLine before ++ Source.firstLine after) :=
      Source.newline_not_mem_dropReturns (List.not_mem_append (Source.newline_not_mem_lastLine before)
        (Source.newline_not_mem_firstLine after))
    rw [render_split d source hsplit]
    refine ⟨?_, _, String.ofList_append⟩
    simp [List.count_append, List.count_eq_zero.mpr hline, List.count_replicate]

example : (locate "a\nbö c\r\n" 5 "unexpected").render "a\nbö c\r\n" = "bö c\n  ↑" := by decide

end Diagnostic
end ShapeGrammar
