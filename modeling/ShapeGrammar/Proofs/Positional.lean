import Mathlib.Algebra.GroupWithZero.Nat
import ShapeGrammar.Decimal

/-! Positional text read back. A text spells a whole number and the place of its point; both are found
again, so a decimal of known fineness is determined by its text. -/
namespace ShapeGrammar.Decimal

/-- The number that a positional text spells without its point, and the number of digits behind the point. -/
def parse (cs : List Char) : Nat × Nat :=
  (Nat.ofDigitChars 10 (cs.filter (· != '.')) 0, (cs.dropWhile (· != '.')).length - 1)

theorem ne_point_of_isDigit {c : Char} (h : c.isDigit = true) : (c != '.') = true := by
  rw [bne_iff_ne]
  rintro rfl
  exact absurd h (by decide)

theorem parse_digits {cs : List Char} (h : ∀ c ∈ cs, c.isDigit = true) :
    parse cs = (Nat.ofDigitChars 10 cs 0, 0) := by
  have hp : ∀ c ∈ cs, (c != '.') = true := fun c hc => ne_point_of_isDigit (h c hc)
  have hd : cs.dropWhile (· != '.') = [] := by
    rw [← List.append_nil cs, List.dropWhile_append_of_pos hp, List.dropWhile_nil]
  rw [parse, List.filter_eq_self.2 hp, hd]
  rfl

theorem parse_append_point {cs ds : List Char} (hc : ∀ c ∈ cs, c.isDigit = true)
    (hd : ∀ c ∈ ds, c.isDigit = true) :
    parse (cs ++ '.' :: ds) = (Nat.ofDigitChars 10 (cs ++ ds) 0, ds.length) := by
  have hc' : ∀ c ∈ cs, (c != '.') = true := fun c h => ne_point_of_isDigit (hc c h)
  have hd' : ∀ c ∈ ds, (c != '.') = true := fun c h => ne_point_of_isDigit (hd c h)
  rw [parse, List.filter_append, List.filter_cons_of_neg (by simp), List.filter_eq_self.2 hc',
    List.filter_eq_self.2 hd', List.dropWhile_append_of_pos hc']
  rfl

theorem isDigit_of_mem_digits {n : Nat} {c : Char} (h : c ∈ digits n) : c.isDigit = true :=
  Nat.isDigit_of_mem_toDigits (by decide) (by decide) h

theorem isDigit_of_mem_replicate {n : Nat} {c : Char} (h : c ∈ List.replicate n '0') :
    c.isDigit = true := by
  rw [List.eq_of_mem_replicate h]
  rfl

theorem ofDigitChars_digits (n : Nat) : Nat.ofDigitChars 10 (digits n) 0 = n := Nat.ofDigitChars_ten_toDigits

theorem exists_pointed (n places : Nat) : ∃ ds es, pointed (digits n) places = ds ++ '.' :: es ∧
    ds ≠ [] ∧ es.length = places ∧ (∀ c ∈ ds ++ es, c.isDigit = true) ∧
      Nat.ofDigitChars 10 (ds ++ es) 0 = n := by
  let padded := List.replicate (places + 1 - (digits n).length) '0' ++ digits n
  have hlen : places < padded.length := by
    rw [List.length_append, List.length_replicate]
    omega
  refine ⟨padded.take (padded.length - places), padded.drop (padded.length - places), rfl, ?_, ?_, ?_, ?_⟩
  · rw [ne_eq, ← List.length_eq_zero_iff, List.length_take]
    omega
  · rw [List.length_drop]
    omega
  · rw [List.take_append_drop]
    intro c hc
    rcases List.mem_append.1 hc with h | h
    · exact isDigit_of_mem_replicate h
    · exact isDigit_of_mem_digits h
  · rw [List.take_append_drop, Nat.ofDigitChars_append, Nat.ofDigitChars_replicate_zero, Nat.mul_zero,
      ofDigitChars_digits]

/-- The coefficient with the zeros behind it, and the number of places behind the point. -/
theorem parse_text (d : Decimal) :
    parse d.text.toList = (d.coefficient * 10 ^ d.exponent.toNat, (-d.exponent).toNat) := by
  obtain ⟨n, z | k⟩ := d
  · rw [text, String.toList_ofList, parse_digits, Nat.ofDigitChars_append, Nat.ofDigitChars_replicate_zero,
      ofDigitChars_digits, Nat.mul_comm]
    · simp
    · intro c hc
      rcases List.mem_append.1 hc with h | h
      · exact isDigit_of_mem_digits h
      · exact isDigit_of_mem_replicate h
  · obtain ⟨ds, es, hp, -, hlen, hd, hn⟩ := exists_pointed n (k + 1)
    rw [List.forall_mem_append] at hd
    rw [text, String.toList_ofList, hp, parse_append_point hd.1 hd.2, hn, hlen]
    simp

theorem exists_text (d : Decimal) : ∃ c cs, d.text.toList = c :: cs ∧ c.isDigit = true ∧
    ∀ x ∈ cs, x.isDigit = true ∨ x = '.' := by
  obtain ⟨n, z | k⟩ := d
  · obtain ⟨c, cs, hc⟩ := List.exists_cons_of_ne_nil (Nat.toDigits_ne_nil (n := n) (b := 10))
    have hd : ∀ x ∈ c :: cs, x.isDigit = true := fun x hx =>
      isDigit_of_mem_digits (n := n) (by rw [digits, hc]; exact hx)
    refine ⟨c, cs ++ List.replicate z '0', ?_, hd c List.mem_cons_self, fun x hx => .inl ?_⟩
    · rw [text, String.toList_ofList, digits, hc]
      rfl
    · rcases List.mem_append.1 hx with hx | hx
      · exact hd x (List.mem_cons_of_mem _ hx)
      · exact isDigit_of_mem_replicate hx
  · obtain ⟨ds, es, hp, hds, -, hd, -⟩ := exists_pointed n (k + 1)
    obtain ⟨c, cs, rfl⟩ := List.exists_cons_of_ne_nil hds
    refine ⟨c, cs ++ '.' :: es, ?_, hd c List.mem_cons_self, fun x hx => ?_⟩
    · rw [text, String.toList_ofList, hp]
      rfl
    · rw [List.mem_append, List.mem_cons] at hx
      obtain hx | rfl | hx := hx
      · exact .inl (hd x (by simp [hx]))
      · exact .inr rfl
      · exact .inl (hd x (by simp [hx]))

end ShapeGrammar.Decimal
