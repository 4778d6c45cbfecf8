import Mathlib.Data.String.Basic
import Mathlib.Order.Bounds.Basic
import ShapeGrammar.Diagnostic

/-! Byte offsets into a text. A boundary is an offset at which a character starts or the text ends; the
cut at an offset is the one at the last boundary before it. The same cut is found byte by byte, and
texts are taken out between two byte offsets: this fails within a character, and does not at the cuts. -/
namespace ShapeGrammar.Source

theorem byteLength_eq (cs : List Char) : byteLength cs = String.utf8Len cs := by
  induction cs with
  | nil => rfl
  | cons c cs ih => rw [byteLength, ih, String.utf8Len_cons, Nat.add_comm]

@[simp] theorem byteLength_nil : byteLength [] = 0 := rfl

@[simp] theorem byteLength_cons (c : Char) (cs : List Char) :
    byteLength (c :: cs) = c.utf8Size + byteLength cs := rfl

@[simp] theorem byteLength_append (cs ds : List Char) :
    byteLength (cs ++ ds) = byteLength cs + byteLength ds := by
  simp only [byteLength_eq, String.utf8Len_append]

theorem byteLength_toList (source : String) : byteLength source.toList = source.utf8ByteSize := by
  rw [byteLength_eq, String.utf8Len_toList]

theorem byteLength_eq_zero {cs : List Char} : byteLength cs = 0 ↔ cs = [] := by
  rw [byteLength_eq, String.utf8Len_eq_zero]

/-- A character of the text starts this many bytes in, or the text ends there. -/
def IsBoundary (source : String) (i : Nat) : Prop := (⟨i⟩ : String.Pos.Raw).IsValid source

instance (source : String) (i : Nat) : Decidable (IsBoundary source i) :=
  inferInstanceAs (Decidable ((⟨i⟩ : String.Pos.Raw).IsValid source))

theorem isBoundary_iff {source : String} {i : Nat} :
    IsBoundary source i ↔ ∃ before after, source.toList = before ++ after ∧ byteLength before = i := by
  rw [IsBoundary, String.Pos.Raw.isValid_iff_exists_append]
  constructor
  · rintro ⟨before, after, rfl, hi⟩
    have hlength : i = before.utf8ByteSize := congrArg String.Pos.Raw.byteIdx hi
    exact ⟨before.toList, after.toList, String.toList_append, by rw [byteLength_toList, hlength]⟩
  · rintro ⟨before, after, hsource, rfl⟩
    refine ⟨.ofList before, .ofList after, ?_, ?_⟩
    · rw [← String.ofList_append, ← hsource, String.ofList_toList]
    · rw [String.rawEndPos, String.utf8ByteSize_ofList, byteLength_eq]

theorem isBoundary_zero (source : String) : IsBoundary source 0 :=
  isBoundary_iff.mpr ⟨[], source.toList, rfl, rfl⟩

theorem IsBoundary.le {source : String} {i : Nat} (hi : IsBoundary source i) : i ≤ source.utf8ByteSize := by
  obtain ⟨before, after, hsource, rfl⟩ := isBoundary_iff.mp hi
  rw [← byteLength_toList, hsource, byteLength_append]
  exact Nat.le_add_right _ _

/-- Of two parts that a text starts with, the one with more bytes starts with the other. -/
theorem exists_append_of_le {before before' after after' : List Char}
    (h : before ++ after = before' ++ after') (hle : byteLength before ≤ byteLength before') :
    ∃ between, before' = before ++ between ∧ after = between ++ after' := by
  obtain hlonger | ⟨between, hbefore, hafter⟩ := List.append_eq_append_iff.mp h
  · exact hlonger
  · have hnone : between = [] := by
      rw [hbefore, byteLength_append] at hle
      exact byteLength_eq_zero.mp (by omega)
    subst hnone
    exact ⟨[], by rw [hbefore, List.append_nil, List.append_nil], by rw [hafter]; rfl⟩

section Split

theorem byteLength_split_le (offset : Nat) (cs : List Char) : byteLength (split offset cs).1 ≤ offset := by
  induction cs generalizing offset with
  | nil => exact Nat.zero_le _
  | cons c cs ih =>
    rw [split]
    split
    · have hrest := ih (offset - c.utf8Size)
      simp only [byteLength_cons]
      omega
    · exact Nat.zero_le _

theorem exists_split (source : String) (offset : Nat) :
    ∃ before after, source.toList = before ++ after ∧ split offset source.toList = (before, after) :=
  ⟨_, _, (split_append offset source.toList).symm, rfl⟩

theorem lt_of_split {offset : Nat} {cs rest : List Char} {c : Char}
    (h : (split offset cs).2 = c :: rest) : offset < byteLength (split offset cs).1 + c.utf8Size := by
  induction cs generalizing offset with
  | nil => cases h
  | cons d ds ih =>
    rw [split] at h ⊢
    split at h
    next hfits =>
      have hrest := ih h
      rw [if_pos hfits]
      simp only [byteLength_cons]
      omega
    next hlong =>
      obtain ⟨rfl, -⟩ := List.cons.inj h
      rw [if_neg hlong, byteLength_nil]
      omega

theorem split_byteLength (before after : List Char) :
    split (byteLength before) (before ++ after) = (before, after) := by
  induction before with
  | nil =>
    cases after with
    | nil => rfl
    | cons c cs =>
      have hsize := c.utf8Size_pos
      rw [List.nil_append, split, if_neg (by rw [byteLength_nil]; omega)]
  | cons c cs ih =>
    rw [List.cons_append, split, if_pos (by rw [byteLength_cons]; omega), byteLength_cons,
      Nat.add_sub_cancel_left, ih]

/-- The cut is at the last boundary that is not beyond the offset. -/
theorem isGreatest_split (source : String) (offset : Nat) :
    IsGreatest {i | IsBoundary source i ∧ i ≤ offset} (byteLength (split offset source.toList).1) := by
  have happend := split_append offset source.toList
  refine ⟨⟨isBoundary_iff.mpr ⟨_, _, happend.symm, rfl⟩, byteLength_split_le _ _⟩, ?_⟩
  rintro i ⟨hi, hle⟩
  obtain ⟨before, after, hsource, rfl⟩ := isBoundary_iff.mp hi
  refine Nat.le_of_not_lt fun hlt => ?_
  obtain ⟨between, hbefore, hafter⟩ := exists_append_of_le (happend.trans hsource) hlt.le
  cases between with
  | nil => rw [hbefore, List.append_nil] at hlt; exact Nat.lt_irrefl _ hlt
  | cons c cs =>
    have hbeyond := lt_of_split (hafter.trans (List.cons_append ..))
    rw [hbefore, byteLength_append, byteLength_cons] at hle
    omega

end Split

section Bytewise

/-- The last boundary that is not beyond an offset, looked for from there downwards. Below the first
byte there is nothing left to look at. -/
def floor? (source : String) : Nat → Option Nat
  | 0 => if IsBoundary source 0 then some 0 else none
  | i + 1 => if IsBoundary source (i + 1) then some (i + 1) else floor? source i

theorem floor?_eq {source : String} {offset k : Nat}
    (hk : IsGreatest {i | IsBoundary source i ∧ i ≤ offset} k) : floor? source offset = some k := by
  obtain ⟨⟨hboundary, hle⟩, hgreatest⟩ := hk
  induction offset with
  | zero => rw [floor?, if_pos (isBoundary_zero source), Nat.le_zero.mp hle]
  | succ i ih =>
    rw [floor?]
    split
    next hi => rw [Nat.le_antisymm hle (hgreatest ⟨hi, le_rfl⟩)]
    next hi =>
      have hne : k ≠ i + 1 := fun h => hi (h ▸ hboundary)
      exact ih (fun j hj => hgreatest ⟨hj.1, Nat.le_succ_of_le hj.2⟩) (by omega)

theorem isGreatest_split_min (source : String) (offset : Nat) :
    IsGreatest {i | IsBoundary source i ∧ i ≤ min offset source.utf8ByteSize}
      (byteLength (split offset source.toList).1) := by
  have hset : {i | IsBoundary source i ∧ i ≤ min offset source.utf8ByteSize} =
      {i | IsBoundary source i ∧ i ≤ offset} := by
    ext i
    exact and_congr_right fun hi => by rw [le_min_iff, and_iff_left hi.le]
  rw [hset]
  exact isGreatest_split source offset

theorem floor?_min (source : String) (offset : Nat) :
    floor? source (min offset source.utf8ByteSize) = some (byteLength (split offset source.toList).1) :=
  floor?_eq (isGreatest_split_min source offset)

/-- The text from one byte offset to another; there is none unless they are boundaries and in order. -/
def slice? (source : String) (i j : Nat) : Option String :=
  if i ≤ j ∧ IsBoundary source i ∧ IsBoundary source j then
    some (String.Pos.Raw.extract source ⟨i⟩ ⟨j⟩)
  else none

theorem slice?_eq {source : String} {before between after : List Char}
    (h : source.toList = before ++ between ++ after) :
    slice? source (byteLength before) (byteLength (before ++ between)) = some (.ofList between) := by
  have hsource : source = .ofList (before ++ between ++ after) := by rw [← h, String.ofList_toList]
  have hfrom : IsBoundary source (byteLength before) :=
    isBoundary_iff.mpr ⟨before, between ++ after, by rw [h, List.append_assoc], rfl⟩
  have hto : IsBoundary source (byteLength (before ++ between)) := isBoundary_iff.mpr ⟨_, after, h, rfl⟩
  have horder : byteLength before ≤ byteLength (before ++ between) := by
    rw [byteLength_append]
    exact Nat.le_add_right _ _
  rw [slice?, if_pos ⟨horder, hfrom, hto⟩, hsource, byteLength_append, byteLength_eq, byteLength_eq,
    String.extract_of_valid]

variable {source : String} {before after : List Char} (h : source.toList = before ++ after)
include h

theorem slice?_before : slice? source 0 (byteLength before) = some (.ofList before) :=
  slice?_eq (show source.toList = [] ++ before ++ after from h)

theorem slice?_after : slice? source (byteLength before) source.utf8ByteSize = some (.ofList after) := by
  have hall : source.toList = before ++ after ++ [] := by rw [h, List.append_nil]
  rw [← byteLength_toList, h]
  exact slice?_eq hall

end Bytewise

end ShapeGrammar.Source
