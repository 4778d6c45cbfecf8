import Mathlib
import ShapeGrammar.Binary32

/-! Sign, exponent and fraction of a binary32 number. A number is determined by its sign and its count of
units, and negation turns the sign alone. The laws that relate a float to its bits come with Mathlib as a
whole, and with no single file of it. -/
namespace ShapeGrammar.Binary32
open Float.Model (Format UnpackedFloat)
open Float.Model.UnpackedFloat

theorem toNat_packComponents (s : Sign) (e : BitVec 8) (m : BitVec 23) :
    (packComponents Format.binary32 s e m).toNat =
      2 ^ 31 * s.toBitVec.toNat + 2 ^ 23 * e.toNat + m.toNat := by
  have hse : (s.toBitVec ++ e).toNat = 2 ^ 8 * s.toBitVec.toNat + e.toNat := by
    rw [BitVec.toNat_append, Nat.shiftLeft_eq, Nat.mul_comm, Nat.two_pow_add_eq_or_of_lt e.isLt]
  change (s.toBitVec ++ e ++ m).toNat = _
  rw [BitVec.toNat_append, Nat.shiftLeft_eq, Nat.mul_comm, ← Nat.two_pow_add_eq_or_of_lt m.isLt, hse]
  ring

theorem exists_components (x : Float32) : ∃ s e m,
    x.toBits.toBitVec = packComponents Format.binary32 s e m := by
  have h := @packComponents_unpackSign_unpackExponent_unpackMantissa Format.binary32 x.toBits.toBitVec
  exact ⟨_, _, _, h.symm⟩

theorem unpack_neg (s : Sign) (e : BitVec 8) (m : BitVec 23) :
    unpack Format.binary32 (packComponents Format.binary32 (-s) e m) =
      (unpack Format.binary32 (packComponents Format.binary32 s e m)).neg := by
  simp only [unpack, unpackExponent_packComponents, unpackMantissa_packComponents, unpackSign_packComponents,
    Sign.ofBitVec_toBitVec]
  split
  · split <;> rfl
  · split
    · split <;> rfl
    · rfl

theorem isFinite_iff {x : Float32} {s e m} (hx : x.toBits.toBitVec = packComponents Format.binary32 s e m) :
    x.isFinite = true ↔ e ≠ -1#8 := by
  change (unpack Format.binary32 x.toBits.toBitVec).isFinite = true ↔ _
  rw [hx]
  simp only [unpack, unpackExponent_packComponents, unpackMantissa_packComponents]
  split
  · split <;> simp_all [UnpackedFloat.isFinite]
  · split
    · split <;> simp_all [UnpackedFloat.isFinite]
    · simp_all [UnpackedFloat.isFinite]

theorem isNaN_eq_false {x : Float32} (h : x.isFinite = true) : x.isNaN = false := by
  change (unpack Format.binary32 x.toBits.toBitVec).isFinite = true at h
  change (unpack Format.binary32 x.toBits.toBitVec).isNaN = false
  cases hu : unpack Format.binary32 x.toBits.toBitVec <;> rw [hu] at h <;> first | rfl | cases h

theorem isInf_eq_false {x : Float32} (h : x.isFinite = true) : x.isInf = false := by
  change (unpack Format.binary32 x.toBits.toBitVec).isFinite = true at h
  change (unpack Format.binary32 x.toBits.toBitVec).isInf = false
  cases hu : unpack Format.binary32 x.toBits.toBitVec <;> rw [hu] at h <;> first | rfl | cases h

theorem toBitVec_neg {x : Float32} {s e m} (hx : x.toBits.toBitVec = packComponents Format.binary32 s e m)
    (hf : x.isFinite = true) : (-x).toBits.toBitVec = packComponents Format.binary32 (-s) e m := by
  change pack Format.binary32 (unpack Format.binary32 x.toBits.toBitVec).neg = _
  rw [hx, ← unpack_neg, pack_unpack, if_neg]
  simpa [isNaNBits] using fun h => absurd h ((isFinite_iff hx).1 hf)

section
variable {x : Float32} {s : Sign} {e : BitVec 8} {m : BitVec 23}
  (hx : x.toBits.toBitVec = packComponents Format.binary32 s e m)
include hx

theorem toNat_toBits : x.toBits.toNat = 2 ^ 31 * s.toBitVec.toNat + 2 ^ 23 * e.toNat + m.toNat := by
  rw [← UInt32.toNat_toBitVec, hx, toNat_packComponents]

theorem isNegative_eq : isNegative x = (s.toBitVec.toNat == 1) := by
  have he := e.isLt
  have hm := m.isLt
  rw [isNegative, toNat_toBits hx, show Nat.pow 2 31 = 2 ^ 31 from rfl]
  congr 1
  omega

theorem exponentField_eq : exponentField x = e.toNat := by
  have he := e.isLt
  have hm := m.isLt
  rw [exponentField, toNat_toBits hx, show Nat.pow 2 23 = 2 ^ 23 from rfl]
  omega

theorem fraction_eq : fraction x = m.toNat := by
  have hm := m.isLt
  rw [fraction, toNat_toBits hx, show Nat.pow 2 23 = 2 ^ 23 from rfl]
  omega

end

theorem fraction_lt (x : Float32) : fraction x < 2 ^ 23 := Nat.mod_lt _ (by decide)

variable {x y : Float32}

theorem isFinite_neg (h : x.isFinite = true) : (-x).isFinite = true := by
  obtain ⟨s, e, m, hx⟩ := exists_components x
  exact (isFinite_iff (toBitVec_neg hx h)).2 ((isFinite_iff hx).1 h)

theorem isNegative_neg (h : x.isFinite = true) : isNegative (-x) = !isNegative x := by
  obtain ⟨s, e, m, hx⟩ := exists_components x
  rw [isNegative_eq hx, isNegative_eq (toBitVec_neg hx h)]
  cases s <;> rfl

theorem units_neg (h : x.isFinite = true) : units (-x) = units x := by
  obtain ⟨s, e, m, hx⟩ := exists_components x
  have hn := toBitVec_neg hx h
  rw [units, units, exponentField_eq hx, exponentField_eq hn, fraction_eq hx, fraction_eq hn]

theorem units_eq (x : Float32) : units x =
    if exponentField x = 0 then fraction x else (2 ^ 23 + fraction x) * 2 ^ (exponentField x - 1) := by
  rw [units]
  cases exponentField x with
  | zero => rfl
  | succ e => rfl

/-- What the count of units of a number can be: a significand of at most 24 bits times a power of two,
of full length unless the power is one. -/
def IsCount (n m k : Nat) : Prop := n = m * 2 ^ k ∧ m < 2 ^ 24 ∧ (k = 0 ∨ 2 ^ 23 ≤ m)

theorem exists_isCount (x : Float32) : ∃ m k, IsCount (units x) m k := by
  have hf := fraction_lt x
  rw [units_eq]
  split
  · exact ⟨fraction x, 0, by simp, by omega, .inl rfl⟩
  · exact ⟨2 ^ 23 + fraction x, exponentField x - 1, rfl, by omega, .inr (by omega)⟩

theorem log2_mul_two_pow {m : Nat} (hm : 2 ^ 23 ≤ m) (hm' : m < 2 ^ 24) (k : Nat) :
    (m * 2 ^ k).log2 = 23 + k := by
  have hk := Nat.two_pow_pos k
  rw [Nat.log2_eq_iff (Nat.mul_ne_zero (by omega) (by omega)), Nat.pow_add, Nat.add_right_comm, Nat.pow_add]
  exact ⟨Nat.mul_le_mul_right _ hm, Nat.mul_lt_mul_of_pos_right hm' hk⟩

/-- Two significands of full length with powers of two have the same product only if they are equal. -/
theorem eq_of_mul_two_pow {m n k l : Nat} (hm : 2 ^ 23 ≤ m) (hm' : m < 2 ^ 24) (hn : 2 ^ 23 ≤ n)
    (hn' : n < 2 ^ 24) (h : m * 2 ^ k = n * 2 ^ l) : m = n ∧ k = l := by
  have hkl := log2_mul_two_pow hm hm' k
  rw [h, log2_mul_two_pow hn hn'] at hkl
  obtain rfl : l = k := by omega
  exact ⟨Nat.eq_of_mul_eq_mul_right (Nat.two_pow_pos l) h, rfl⟩

theorem eq_of_units (hn : isNegative x = isNegative y) (hu : units x = units y) : x = y := by
  have hf : exponentField x = exponentField y ∧ fraction x = fraction y := by
    have hfx := fraction_lt x
    have hfy := fraction_lt y
    rw [units_eq, units_eq] at hu
    split at hu <;> split at hu
    · exact ⟨by omega, hu⟩
    · have := Nat.le_mul_of_pos_right (2 ^ 23 + fraction y) (Nat.two_pow_pos (exponentField y - 1))
      omega
    · have := Nat.le_mul_of_pos_right (2 ^ 23 + fraction x) (Nat.two_pow_pos (exponentField x - 1))
      omega
    · obtain ⟨hm, hk⟩ := eq_of_mul_two_pow (by omega) (by omega) (by omega) (by omega) hu
      exact ⟨by omega, by omega⟩
  obtain ⟨s, e, m, hx⟩ := exists_components x
  obtain ⟨s', e', m', hy⟩ := exists_components y
  rw [exponentField_eq hx, exponentField_eq hy, fraction_eq hx, fraction_eq hy] at hf
  rw [isNegative_eq hx, isNegative_eq hy] at hn
  have hs : s.toBitVec.toNat = s'.toBitVec.toNat := by
    cases s <;> cases s' <;> first | rfl | cases hn
  rw [← Float32.toBits_inj, ← UInt32.toNat_inj, toNat_toBits hx, toNat_toBits hy, hs, hf.1, hf.2]

theorem neg_neg (h : x.isFinite = true) : - -x = x := by
  have hn := isFinite_neg h
  refine eq_of_units ?_ ?_
  · rw [isNegative_neg hn, isNegative_neg h, Bool.not_not]
  · rw [units_neg hn, units_neg h]

end ShapeGrammar.Binary32
