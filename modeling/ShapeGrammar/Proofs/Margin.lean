import ShapeGrammar.Proofs.Caret

/-! How far in the arrow stands below the line that a diagnostic shows. The margin in front of it is measured
on the line with the carriage returns at its end, and the line is shown without them. So the arrow is under
the line or directly behind it, unless the diagnostic is behind one of these carriage returns; then it is
beyond the line, though by no more characters than are left out. -/
namespace ShapeGrammar

namespace Source

/-- The text is cut behind a carriage return, and on the rest of the line there is nothing else. -/
def PastReturn (before after : List Char) : Prop :=
  before.getLast? = some '\r' ∧ ∀ c ∈ firstLine after, c = '\r'

theorem getLast?_lastLine_iff (before : List Char) :
    (lastLine before).getLast? = some '\r' ↔ before.getLast? = some '\r' := by
  have happend := earlierLines_append_lastLine before
  cases hline : lastLine before with
  | nil =>
    rw [hline, List.append_nil] at happend
    rw [← happend]
    obtain hnone | ⟨lines, hlines⟩ := earlierLines_cases before
    · simp [hnone]
    · simp [hlines]
  | cons c cs =>
    rw [← happend, hline, List.getLast?_append_of_ne_nil _ (List.cons_ne_nil c cs)]

theorem dropReturns_append_of_forall (head : List Char) {tail : List Char} (h : ∀ c ∈ tail, c = '\r') :
    dropReturns (head ++ tail) = dropReturns head := by
  have hall : (tail.reverse.dropWhile (· == '\r')).isEmpty = true := by simpa using h
  rw [dropReturns, List.reverse_append, List.dropWhile_append, if_pos hall, dropReturns]

theorem dropReturns_append_of_not_forall (head : List Char) {tail : List Char}
    (h : ¬ ∀ c ∈ tail, c = '\r') : dropReturns (head ++ tail) = head ++ dropReturns tail := by
  have hsome : ¬ (tail.reverse.dropWhile (· == '\r')).isEmpty = true := by simpa using h
  rw [dropReturns, List.reverse_append, List.dropWhile_append, if_neg hsome, List.reverse_append,
    List.reverse_reverse, dropReturns]

theorem length_le_dropReturns_iff (cs : List Char) :
    cs.length ≤ (dropReturns cs).length ↔ cs.getLast? ≠ some '\r' := by
  obtain ⟨k, hk, hlast⟩ := exists_append_returns cs
  cases k with
  | zero =>
    rw [List.replicate_zero, List.append_nil] at hk
    rw [← hk] at hlast ⊢
    exact iff_of_true le_rfl hlast
  | succ k =>
    have hreturn : cs.getLast? = some '\r' := by
      rw [hk, List.replicate_succ', ← List.append_assoc, List.getLast?_concat]
    have hlength := congrArg List.length hk
    rw [List.length_append, List.length_replicate] at hlength
    exact iff_of_false (by omega) (not_not_intro hreturn)

/-- What is shown of a line is shorter than a part of it just if the part ends in a carriage return that is
left out. -/
theorem length_le_dropReturns_append_iff (head tail : List Char) :
    head.length ≤ (dropReturns (head ++ tail)).length ↔
      ¬ (head.getLast? = some '\r' ∧ ∀ c ∈ tail, c = '\r') := by
  by_cases hall : ∀ c ∈ tail, c = '\r'
  · rw [dropReturns_append_of_forall head hall, length_le_dropReturns_iff, and_iff_left hall]
  · rw [dropReturns_append_of_not_forall head hall, List.length_append]
    exact iff_of_true (Nat.le_add_right _ _) fun h => hall h.2

end Source

namespace Diagnostic

theorem render_locate {source : String} {offset : Nat} {before after : List Char} (message : String)
    (hsource : source.toList = before ++ after) (hsplit : Source.split offset source.toList = (before, after)) :
    (locate source offset message).render source =
      .ofList (Source.dropReturns (Source.lastLine before ++ Source.firstLine after) ++
        '\n' :: List.replicate (Source.lastLine before).length ' ' ++ ['↑']) := by
  refine render_split _ source ?_
  rw [locate_split message hsplit, hsource, Source.split_byteLength]

/-- A diagnostic is rendered as its line without the carriage returns at its end, with the arrow in its
column. The arrow is no farther beyond what is shown of the line than by as many characters as are left
out, and it is beyond just if the diagnostic is behind a carriage return that is left out. -/
theorem arrow_under_line_iff (source : String) (offset : Nat) (message : String) :
    let e := locate source offset message
    ∃ before after shown k, source = .ofList (before ++ after) ∧
      (String.ofList before).utf8ByteSize = e.offset ∧
      (source.toList.splitOn '\n')[e.line - 1]? = some (shown ++ List.replicate k '\r') ∧
      shown.getLast? ≠ some '\r' ∧
      e.render source = .ofList (shown ++ '\n' :: List.replicate (e.column - 1) ' ' ++ ['↑']) ∧
      e.column - 1 ≤ shown.length + k ∧
      (e.column - 1 ≤ shown.length ↔ ¬ Source.PastReturn before after) := by
  obtain ⟨before, after, hsource, hsplit⟩ := Source.exists_split source offset
  have he := locate_split message hsplit
  have hcolumn : (locate source offset message).column - 1 = (Source.lastLine before).length := by
    rw [he, Nat.add_sub_cancel]
  obtain ⟨k, hk, hlast⟩ :=
    Source.exists_append_returns (Source.lastLine before ++ Source.firstLine after)
  refine ⟨before, after, _, k, ?_, ?_, ?_, hlast, ?_, ?_, ?_⟩
  · rw [← hsource, String.ofList_toList]
  · rw [he, String.utf8ByteSize_ofList, ← Source.byteLength_eq]
  · rw [← hk, he, Nat.add_sub_cancel, hsource, Source.getElem?_splitOn]
  · rw [hcolumn, render_locate message hsource hsplit]
  · have hlength := congrArg List.length hk
    rw [List.length_append, List.length_append, List.length_replicate] at hlength
    rw [hcolumn]
    omega
  · rw [hcolumn, Source.length_le_dropReturns_append_iff, Source.getLast?_lastLine_iff]
    rfl

/-- Behind the carriage return that ends the first line the arrow is beyond what is shown of it. -/
theorem arrow_leaves_line :
    (locate "a\r\nb" 2 "unexpected").render "a\r\nb" = .ofList (['a'] ++ '\n' :: List.replicate 2 ' ' ++ ['↑']) ∧
    ¬ ∀ (source : String) (offset : Nat) (message : String) (shown : List Char) (margin : Nat), '\n' ∉ shown →
      (locate source offset message).render source =
        .ofList (shown ++ '\n' :: List.replicate margin ' ' ++ ['↑']) →
      margin ≤ shown.length := by
  have hrender : (locate "a\r\nb" 2 "unexpected").render "a\r\nb" =
      .ofList (['a'] ++ '\n' :: List.replicate 2 ' ' ++ ['↑']) := by decide +kernel
  refine ⟨hrender, fun hall => ?_⟩
  have hmargin := hall "a\r\nb" 2 "unexpected" ['a'] 2 (by decide) hrender
  exact absurd hmargin (by decide)

end Diagnostic
end ShapeGrammar
