import ShapeGrammar.Proofs.Bits
import ShapeGrammar.Proofs.Positional

/-! The shortest text of a number determines it. The decimal that is written lies in the bracket of the
count of units it is written for, and the brackets of different counts have no number in common: at a
bound that two neighbours share, at most one of them is closed. -/
namespace ShapeGrammar
open Decimal

namespace Decimal

theorem Bracket.contains_iff (b : Bracket) (x : Nat) : b.contains x = true ↔
    b.low ≤ x ∧ x ≤ b.high ∧ (b.closed = false → b.low < x ∧ x < b.high) := by
  rw [contains]
  cases b.closed with
  | false =>
    simp only [Bool.false_eq_true, if_false, decide_eq_true_eq, forall_const]
    omega
  | true => simp

theorem Bracket.contains_of_firstGrid {b : Bracket} {e k f : Nat} (hb : (b.nearest? b.unit).isSome)
    (h : b.firstGrid e = (k, f)) : b.contains (k * (10 ^ f * b.unit)) = true := by
  induction e with
  | zero =>
    obtain ⟨n, hn⟩ := Option.isSome_iff_exists.1 hb
    rw [firstGrid, hn] at h
    cases h
    simpa using contains_of_nearest? hn
  | succ e ih =>
    rw [firstGrid] at h
    cases hn : b.nearest? (Nat.pow 10 (e + 1) * b.unit) with
    | none =>
      rw [hn] at h
      exact ih h
    | some n =>
      rw [hn] at h
      cases h
      exact contains_of_nearest? hn

theorem contains_shortest {b : Bracket} {places : Nat}
    (hb : ((b.magnify places).nearest? (b.magnify places).unit).isSome) :
    (b.magnify places).contains ((shortest b places).coefficient *
      (10 ^ ((shortest b places).exponent + places).toNat * b.unit)) = true := by
  have h := Bracket.contains_of_firstGrid hb (e := (digits (b.value / b.unit)).length + places) rfl
  rw [shortest]
  simp only
  rw [Int.sub_add_cancel, Int.toNat_natCast]
  exact h

theorem neg_le_exponent_shortest (b : Bracket) (places : Nat) :
    -(places : Int) ≤ (shortest b places).exponent := by
  rw [shortest]
  simp only
  omega

/-- A decimal with few enough places is determined by its text. -/
theorem coefficient_mul_pow {d : Decimal} {places : Nat} (h : -(places : Int) ≤ d.exponent) :
    d.coefficient * 10 ^ (d.exponent + places).toNat =
      (parse d.text.toList).1 * 10 ^ (places - (parse d.text.toList).2) := by
  rw [parse_text]
  simp only
  rw [Nat.mul_assoc, ← Nat.pow_add]
  congr 2
  omega

end Decimal

namespace Binary32
variable {n m k n' m' k' : Nat}

theorem IsCount.spacing_eq (h : IsCount n m k) : spacing n = 2 ^ k := by
  obtain ⟨rfl, hm, rfl | hk⟩ := h
  · have hlog : m.log2 < 24 := by
      by_cases h0 : m = 0
      · subst h0
        decide
      · exact (Nat.log2_lt h0).2 hm
    rw [spacing, Nat.pow_zero, Nat.mul_one, show m.log2 - 23 = 0 by omega]
  · rw [spacing, log2_mul_two_pow hk hm, Nat.add_sub_cancel_left]
    rfl

theorem IsCount.high_eq (h : IsCount n m k) : (bracket n).high = (4 * m + 2) * 2 ^ k := by
  rw [bracket, h.spacing_eq, h.1]
  ring

theorem IsCount.closed_iff (h : IsCount n m k) : (bracket n).closed = true ↔ m % 2 = 0 := by
  rw [bracket, h.spacing_eq, h.1, Nat.mul_div_cancel _ (Nat.two_pow_pos k)]
  exact beq_iff_eq

theorem low_eq (n : Nat) : (bracket n).low =
    if n == 2 ^ 23 * spacing n && 1 < spacing n then 4 * n - spacing n else 4 * n - 2 * spacing n := rfl

theorem IsCount.low_ge (h : IsCount n m k) : (4 * m - 2) * 2 ^ k ≤ (bracket n).low := by
  rw [low_eq, h.spacing_eq, Nat.sub_mul, h.1, Nat.mul_assoc]
  split <;> omega

/-- A significand of full length is either the least one, below which the spacing is finer, or greater. -/
theorem IsCount.low_ge_of_ne (h : IsCount n m k) (hk : k ≠ 0) :
    (2 ^ 25 - 1) * 2 ^ k ≤ (bracket n).low := by
  obtain ⟨hn, hm, h0 | hm'⟩ := id h
  · exact absurd h0 hk
  · rcases Nat.eq_or_lt_of_le hm' with rfl | hlt
    · have hs : 1 < 2 ^ k := Nat.one_lt_two_pow hk
      rw [low_eq, h.spacing_eq, hn, beq_self_eq_true, decide_eq_true hs, Bool.and_self, if_pos rfl]
      omega
    · exact Nat.le_trans (Nat.mul_le_mul_right _ (by omega)) h.low_ge

theorem low_le (n : Nat) : (bracket n).low ≤ 4 * n := by
  rw [low_eq]
  split <;> omega

/-- The brackets of two counts have at most a bound in common, which is then open in one of them. -/
theorem IsCount.apart (h : IsCount n m k) (h' : IsCount n' m' k') (hn : n < n') :
    (bracket n).high < (bracket n').low ∨
      (bracket n).high = (bracket n').low ∧ ¬((bracket n).closed = true ∧ (bracket n').closed = true) := by
  have hpos := Nat.two_pow_pos k
  rw [h.closed_iff, h'.closed_iff, h.high_eq]
  rcases Nat.lt_trichotomy k k' with hk | rfl | hk
  · -- only the greatest significand comes up to the lower bound, and it is odd
    have hlow := h'.low_ge_of_ne (by omega)
    have hp : 2 * 2 ^ k ≤ 2 ^ k' := by
      rw [Nat.mul_comm, ← Nat.pow_succ]
      exact Nat.pow_le_pow_right (by decide) hk
    have hm := h.2.1
    rcases Nat.lt_or_ge m (2 ^ 24 - 1) with hlt | hge
    · have := Nat.mul_le_mul_right (2 ^ k) (show 4 * m + 2 ≤ 2 ^ 26 - 6 by omega)
      exact .inl (by omega)
    · obtain rfl : m = 2 ^ 24 - 1 := by omega
      omega
  · have hlow := h'.low_ge
    have hmm : m < m' := by
      rw [h.1, h'.1] at hn
      exact Nat.lt_of_mul_lt_mul_right hn
    rcases Nat.eq_or_lt_of_le (Nat.succ_le_of_lt hmm) with rfl | hlt
    · rw [show 4 * m.succ - 2 = 4 * m + 2 by omega] at hlow
      omega
    · have := Nat.mul_lt_mul_of_pos_right (show 4 * m + 2 < 4 * m' - 2 by omega) hpos
      exact .inl (by omega)
  · have hm : 2 ^ 23 ≤ m := h.2.2.resolve_left (by omega)
    have hp : 2 * 2 ^ k' ≤ 2 ^ k := by
      rw [Nat.mul_comm, ← Nat.pow_succ]
      exact Nat.pow_le_pow_right (by decide) hk
    have hmk := Nat.mul_le_mul_right (2 ^ k) hm
    have hmk' := Nat.mul_le_mul_right (2 ^ k') h'.2.1.le
    rw [h.1, h'.1] at hn
    omega

theorem IsCount.disjoint (h : IsCount n m k) (h' : IsCount n' m' k') (hn : n < n') {places x : Nat}
    (hx : ((bracket n).magnify places).contains x = true) :
    ((bracket n').magnify places).contains x = false := by
  rw [← Bool.not_eq_true]
  intro hx'
  obtain ⟨-, hhigh, hopen⟩ := (Bracket.contains_iff _ _).1 hx
  obtain ⟨hlow, -, hopen'⟩ := (Bracket.contains_iff _ _).1 hx'
  simp only [Bracket.magnify] at hhigh hopen hlow hopen'
  rcases h.apart h' hn with hlt | ⟨heq, hc⟩
  · have hp : 0 < Nat.pow 10 places := Nat.pow_pos (by decide)
    have := Nat.mul_lt_mul_of_pos_right hlt hp
    omega
  · rw [heq] at hhigh hopen
    rw [not_and_or, Bool.not_eq_true, Bool.not_eq_true] at hc
    rcases hc with hc | hc
    · have := (hopen hc).2
      omega
    · have := (hopen' hc).1
      omega

theorem IsCount.eq_of_contains (h : IsCount n m k) (h' : IsCount n' m' k') {places x : Nat}
    (hx : ((bracket n).magnify places).contains x = true)
    (hx' : ((bracket n').magnify places).contains x = true) : n = n' := by
  rcases Nat.lt_trichotomy n n' with hn | hn | hn
  · exact absurd hx' (by simp [h.disjoint h' hn hx])
  · exact hn
  · exact absurd hx (by simp [h'.disjoint h hn hx'])

/-- Sixty decimal places are enough for a multiple of the unit next to the value. -/
theorem isSome_nearest? (n : Nat) :
    (((bracket n).magnify 60).nearest? ((bracket n).magnify 60).unit).isSome := by
  have hs : 0 < spacing n := Nat.two_pow_pos _
  have hlow := low_le n
  let b := (bracket n).magnify 60
  have hvalue : b.value = 4 * n * 10 ^ 60 := rfl
  have hhigh : b.high = (4 * n + 2 * spacing n) * 10 ^ 60 := rfl
  have hunit : b.unit = 2 ^ 151 := rfl
  have hl : b.low ≤ b.value := Nat.mul_le_mul_right _ hlow
  have habove : b.contains ((b.value / b.unit + 1) * b.unit) = true := by
    have hlt : b.value < (b.value / b.unit + 1) * b.unit := by
      rw [Nat.add_mul, Nat.one_mul]
      exact Nat.lt_div_mul_add (by rw [hunit]; decide)
    have hle : (b.value / b.unit + 1) * b.unit < b.high := by
      rw [Nat.add_mul, Nat.one_mul]
      have := Nat.div_mul_le_self b.value b.unit
      omega
    rw [Bracket.contains_iff]
    exact ⟨by omega, by omega, fun _ => ⟨by omega, hle⟩⟩
  change (b.nearest? b.unit).isSome
  rw [Bracket.nearest?]
  cases hb : b.contains (b.value / b.unit * b.unit) <;> simp [habove]

/-- The magnitude of a number is determined by its shortest text. -/
theorem IsCount.eq_of_text_eq (h : IsCount n m k) (h' : IsCount n' m' k')
    (ht : (shortest (bracket n) 60).text = (shortest (bracket n') 60).text) : n = n' := by
  have hc := contains_shortest (isSome_nearest? n)
  have hc' := contains_shortest (isSome_nearest? n')
  rw [← Nat.mul_assoc, coefficient_mul_pow (neg_le_exponent_shortest _ 60)] at hc hc'
  rw [← ht] at hc'
  exact h.eq_of_contains h' hc hc'

theorem IsCount.text_ne_zero (h : IsCount n m k) (hn : n ≠ 0) : (shortest (bracket n) 60).text ≠ "0" := by
  intro ht
  have hc := contains_shortest (isSome_nearest? n)
  rw [← Nat.mul_assoc, coefficient_mul_pow (neg_le_exponent_shortest _ 60), ht,
    show parse "0".toList = (0, 0) by decide +kernel, Nat.zero_mul, Nat.zero_mul, Bracket.contains_iff] at hc
  have hm : 1 ≤ m := by
    by_contra h0
    obtain rfl : m = 0 := by omega
    exact hn (by rw [h.1, Nat.zero_mul])
  have hlow : 0 < (bracket n).low :=
    Nat.lt_of_lt_of_le (Nat.mul_pos (by omega) (Nat.two_pow_pos k)) h.low_ge
  have hp : 0 < Nat.pow 10 60 := by decide
  have hpos : 0 < ((bracket n).magnify 60).low := Nat.mul_pos hlow hp
  omega

def magnitude (n : Nat) : String := if n == 0 then "0" else (shortest (bracket n) 60).text

theorem magnitude_inj (h : IsCount n m k) (h' : IsCount n' m' k') (ht : magnitude n = magnitude n') :
    n = n' := by
  rw [magnitude, magnitude] at ht
  split at ht
  · next h0 =>
    split at ht
    · next h0' => rw [eq_of_beq h0, eq_of_beq h0']
    · next h0' => exact absurd ht.symm (h'.text_ne_zero fun h => h0' (beq_iff_eq.2 h))
  · next h0 =>
    split at ht
    · exact absurd ht (h.text_ne_zero fun h => h0 (beq_iff_eq.2 h))
    · exact h.eq_of_text_eq h' ht

theorem exists_magnitude (n : Nat) : ∃ c cs, (magnitude n).toList = c :: cs ∧ c.isDigit = true ∧
    ∀ x ∈ cs, x.isDigit = true ∨ x = '.' := by
  rw [magnitude]
  split
  · exact ⟨'0', [], by decide +kernel, by decide, by simp⟩
  · exact exists_text _

theorem minus_append_ne_magnitude (s : String) (n : Nat) : "-" ++ s ≠ magnitude n := by
  intro h
  obtain ⟨c, cs, hc, hd, -⟩ := exists_magnitude n
  have hm := congrArg String.toList h
  rw [String.toList_append, hc] at hm
  obtain rfl : '-' = c := (List.cons.inj hm).1
  cases hd

theorem text_eq {x : Float32} (h : x.isFinite = true) :
    text x = if isNegative x then "-" ++ magnitude (units x) else magnitude (units x) := by
  rw [text, isNaN_eq_false h, if_neg (by decide)]
  simp only [isInf_eq_false h, Bool.false_eq_true, if_false]
  rfl

variable {x y : Float32}

theorem text_inj (hx : x.isFinite = true) (hy : y.isFinite = true) (h : text x = text y) : x = y := by
  obtain ⟨m, k, hm⟩ := exists_isCount x
  obtain ⟨m', k', hm'⟩ := exists_isCount y
  rw [text_eq hx, text_eq hy] at h
  cases hnx : isNegative x <;> cases hny : isNegative y <;>
    simp only [hnx, hny, if_true, if_false, Bool.false_eq_true] at h
  · exact eq_of_units (hnx.trans hny.symm) (magnitude_inj hm hm' h)
  · exact absurd h.symm (minus_append_ne_magnitude _ _)
  · exact absurd h (minus_append_ne_magnitude _ _)
  · exact eq_of_units (hnx.trans hny.symm) (magnitude_inj hm hm' (by simpa using h))

theorem text_neg (h : x.isFinite = true) (hn : isNegative x = false) : text (-x) = "-" ++ text x := by
  rw [text_eq h, text_eq (isFinite_neg h), isNegative_neg h, units_neg h, hn]
  rfl

theorem text_of_isNegative (h : x.isFinite = true) (hn : isNegative x = true) :
    text x = "-" ++ text (-x) := by
  rw [← text_neg (isFinite_neg h) (by rw [isNegative_neg h, hn]; rfl), neg_neg h]

end Binary32
end ShapeGrammar
