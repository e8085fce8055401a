import Mathlib.Algebra.Order.Ring.Nat
import PartitionedIndex.Decimal.Rounding

/-! # Rounding is monotone

A whole number is the nearest to a quotient if it is within half a unit of it, and even if it is as
far as that (`Nearest`). These properties settle it, and a greater quotient has no lesser nearest
number (`Nearest.le_of_le`); so rounding keeps the order, and the whole numbers. A number that is
cut to some binary digits stays between the same two powers of two, and these are kept, so cutting
keeps the order, too (`cutToWidth_mono`); and it keeps every number that has no more digits. -/

namespace PartitionedIndex.Decimal

/-- No whole number is nearer to the quotient `num / den` than `n`, and `n` is even if another is as
near. -/
structure Nearest (num den n : Nat) : Prop where
  num_le : 2 * num ≤ 2 * (n * den) + den
  le_num : 2 * (n * den) ≤ 2 * num + den
  even : 2 * num = 2 * (n * den) + den ∨ 2 * (n * den) = 2 * num + den → n % 2 = 0

section nearest

variable {num num' den n n' : Nat} (hden : 0 < den)
include hden

/-- Rounding gives the nearest number. -/
theorem nearest_roundHalfEven (num : Nat) : Nearest num den (roundHalfEven num den) := by
  obtain ⟨hnum, hround⟩ := roundHalfEven_near num den hden
  refine ⟨hnum, hround, fun htie => ?_⟩
  have hdiv := Nat.div_add_mod' num den
  have hlt := Nat.mod_lt num hden
  rcases Nat.lt_trichotomy (2 * (num % den)) den with h | h | h
  · have hdown : roundHalfEven num den = num / den := by
      simp only [roundHalfEven, Nat.compare_eq_lt.mpr h]
    rw [hdown] at htie
    omega
  · exact roundHalfEven_tie num den h
  · have hup : roundHalfEven num den = num / den + 1 := by
      simp only [roundHalfEven, Nat.compare_eq_gt.mpr h]
    rw [hup, Nat.add_mul, Nat.one_mul] at htie
    omega

/-- A greater quotient has no lesser nearest number. -/
theorem Nearest.le_of_le (h : Nearest num den n) (h' : Nearest num' den n') (hle : num ≤ num') :
    n ≤ n' := by
  by_contra hlt
  have hstep : (n' + 1) * den ≤ n * den := Nat.mul_le_mul_right den (by omega)
  rw [Nat.add_mul, Nat.one_mul] at hstep
  have hn := h.le_num
  have hn' := h'.num_le
  -- both are half a unit off, so both are even, though they are neighbours
  have heven := h.even (by omega)
  have heven' := h'.even (by omega)
  have hnext : n * den = (n' + 1) * den := by
    rw [Nat.add_mul, Nat.one_mul]
    omega
  have := Nat.eq_of_mul_eq_mul_right hden hnext
  omega

theorem Nearest.unique (h : Nearest num den n) (h' : Nearest num den n') : n = n' :=
  Nat.le_antisymm (h.le_of_le hden h' (Nat.le_refl _)) (h'.le_of_le hden h (Nat.le_refl _))

theorem nearest_mul (n : Nat) : Nearest (n * den) den n :=
  ⟨by omega, by omega, by omega⟩

theorem roundHalfEven_mono (hle : num ≤ num') : roundHalfEven num den ≤ roundHalfEven num' den :=
  (nearest_roundHalfEven hden num).le_of_le hden (nearest_roundHalfEven hden num') hle

theorem roundHalfEven_mul (n : Nat) : roundHalfEven (n * den) den = n :=
  (nearest_roundHalfEven hden (n * den)).unique hden (nearest_mul hden n)

theorem le_roundHalfEven (h : n * den ≤ num) : n ≤ roundHalfEven num den := by
  have hle := roundHalfEven_mono hden h
  rwa [roundHalfEven_mul hden] at hle

theorem roundHalfEven_le (h : num ≤ n * den) : roundHalfEven num den ≤ n := by
  have hle := roundHalfEven_mono hden h
  rwa [roundHalfEven_mul hden] at hle

end nearest

/-! ### Cutting to some binary digits -/

/-- The power of two of the last digit that a cut leaves. -/
def grain (width n : Nat) : Nat := 2 ^ (Nat.log2 n + 1 - width)

theorem cutToWidth_eq (width n : Nat) :
    cutToWidth width n = roundHalfEven n (grain width n) * grain width n := rfl

theorem grain_pos (width n : Nat) : 0 < grain width n := Nat.two_pow_pos _

variable {width n m k : Nat}

/-- A cut goes past no multiple of the last digit that it leaves. -/
theorem le_cutToWidth (hk : grain width n ∣ k) (h : k ≤ n) : k ≤ cutToWidth width n := by
  obtain ⟨c, rfl⟩ := hk
  rw [Nat.mul_comm] at h ⊢
  exact Nat.mul_le_mul_right _ (le_roundHalfEven (grain_pos width n) h)

theorem cutToWidth_le (hk : grain width n ∣ k) (h : n ≤ k) : cutToWidth width n ≤ k := by
  obtain ⟨c, rfl⟩ := hk
  rw [Nat.mul_comm] at h ⊢
  exact Nat.mul_le_mul_right _ (roundHalfEven_le (grain_pos width n) h)

theorem cutToWidth_of_dvd (h : grain width n ∣ n) : cutToWidth width n = n :=
  Nat.le_antisymm (cutToWidth_le h (Nat.le_refl n)) (le_cutToWidth h (Nat.le_refl n))

section width

variable (hwidth : 0 < width)
include hwidth

theorem cutToWidth_of_le (h : n ≤ 2 ^ width) : cutToWidth width n = n := by
  apply cutToWidth_of_dvd
  rcases Nat.eq_zero_or_pos n with rfl | hpos
  · exact Nat.dvd_zero _
  rcases Nat.lt_or_eq_of_le h with hlt | rfl
  · have hlog := (Nat.log2_lt (by omega)).mpr hlt
    rw [grain, Nat.sub_eq_zero_of_le hlog]
    exact Nat.one_dvd n
  · rw [grain, Nat.log2_two_pow]
    exact Nat.pow_dvd_pow 2 (by omega)

theorem cutToWidth_le_two_pow (n : Nat) : cutToWidth width n ≤ 2 ^ (Nat.log2 n + 1) :=
  cutToWidth_le (Nat.pow_dvd_pow 2 (by omega)) (Nat.le_of_lt Nat.lt_log2_self)

theorem two_pow_le_cutToWidth (hn : n ≠ 0) : 2 ^ Nat.log2 n ≤ cutToWidth width n :=
  le_cutToWidth (Nat.pow_dvd_pow 2 (by omega)) (Nat.log2_self_le hn)

theorem cutToWidth_mono (h : n ≤ m) : cutToWidth width n ≤ cutToWidth width m := by
  rcases Nat.eq_zero_or_pos n with rfl | hpos
  · rw [cutToWidth_of_le hwidth (Nat.zero_le _)]
    exact Nat.zero_le _
  have hlog : Nat.log2 n ≤ Nat.log2 m := by
    rw [Nat.le_log2 (by omega)]
    exact Nat.le_trans (Nat.log2_self_le (by omega)) h
  rcases Nat.lt_or_eq_of_le hlog with hlt | heq
  · calc cutToWidth width n
        ≤ 2 ^ (Nat.log2 n + 1) := cutToWidth_le_two_pow hwidth n
      _ ≤ 2 ^ Nat.log2 m := Nat.pow_le_pow_right (by omega) hlt
      _ ≤ cutToWidth width m := two_pow_le_cutToWidth hwidth (by omega)
  · rw [cutToWidth_eq, cutToWidth_eq, grain, grain, heq]
    exact Nat.mul_le_mul_right _ (roundHalfEven_mono (Nat.two_pow_pos _) h)

end width

end PartitionedIndex.Decimal
