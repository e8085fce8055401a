import Mathlib.Order.Bounds.Basic
import Mathlib.Tactic.Linarith
import Mathlib.Tactic.Positivity
import Mathlib.Tactic.Ring
import PartitionedIndex.Proofs.Decimal.Rounding
import PartitionedIndex.Proofs.Footprint.Reading

/-! # Printed sizes

A count from 1024 on is printed in the largest unit that it reaches, up to the fourth power of 1024,
as the number of tenths nearest to it (`Scales`). So what is read of its text is near to it, and a
greater count reads no less, even if its unit is another (`accurate_and_monotone`).

The number in front of a unit is at least one. It can be 1024, although there is a larger unit: the
unit is settled by the count and not by what rounding makes of it, so a count that is less than half
a tenth below the next unit is printed as 1024.0 of the unit before. These are all such counts
(`normalised_unless_just_below`). -/

namespace PartitionedIndex.MemorySize

/-! ### The power of 1024 -/

theorem unit_pos (power : Nat) : 0 < 1024 ^ power := Nat.pow_pos (by decide)

theorem divisions_le (limit n : Nat) : divisions limit n ≤ limit := by
  fun_induction divisions limit n with
  | case1 => exact Nat.le_refl 0
  | case2 => exact Nat.zero_le _
  | case3 limit n _ ih => exact Nat.succ_le_succ ih

theorem pow_divisions_le (limit : Nat) {n : Nat} (hn : n ≠ 0) : 1024 ^ divisions limit n ≤ n := by
  fun_induction divisions limit n with
  | case1 => rw [pow_zero]; omega
  | case2 => rw [pow_zero]; omega
  | case3 limit n hlt ih =>
      rw [pow_succ, ← Nat.le_div_iff_mul_le (by decide)]
      exact ih (by omega)

theorem lt_pow_divisions {limit n : Nat} (h : divisions limit n < limit) :
    n < 1024 ^ (divisions limit n + 1) := by
  fun_induction divisions limit n with
  | case1 => omega
  | case2 limit n hlt => rwa [Nat.zero_add, pow_one]
  | case3 limit n hlt ih =>
      rw [pow_succ, ← Nat.div_lt_iff_lt_mul (by decide)]
      exact ih (by omega)

/-- A number is printed in the greatest power of 1024 that it reaches, up to the fourth. -/
theorem powerOf_greatest {n : Nat} (hn : n ≠ 0) :
    IsGreatest {i | i ≤ 4 ∧ 1024 ^ i ≤ n} (powerOf n) := by
  refine ⟨⟨divisions_le 4 n, pow_divisions_le 4 hn⟩, ?_⟩
  rintro i ⟨hi, hreach⟩
  by_contra hlt
  have hlimit : divisions 4 n < 4 := Nat.lt_of_not_le fun h => hlt (Nat.le_trans hi h)
  have hnext : n < 1024 ^ (powerOf n + 1) := lt_pow_divisions hlimit
  have hle : 1024 ^ (powerOf n + 1) ≤ 1024 ^ i := Nat.pow_le_pow_right (by decide) (by omega)
  omega

/-- A number that is cut to the digits of a double reaches the same powers of 1024, up to the
fourth. -/
theorem pow_le_cut_iff {i : Nat} (hi : i ≤ 4) (n : Nat) :
    1024 ^ i ≤ Decimal.cutToWidth 53 n ↔ 1024 ^ i ≤ n := by
  have hpow : 1024 ^ i ≤ 1024 ^ 4 := Nat.pow_le_pow_right (by decide) hi
  rcases Nat.le_total n (2 ^ 53) with h | h
  · rw [Decimal.cutToWidth_of_le (by decide) h]
  · have hcut : Decimal.cutToWidth 53 (2 ^ 53) ≤ Decimal.cutToWidth 53 n :=
      Decimal.cutToWidth_mono (by decide) h
    rw [Decimal.cutToWidth_of_le (by decide) (Nat.le_refl _)] at hcut
    omega

/-! ### What is printed -/

/-- A count is printed as so many tenths of a power of 1024. -/
structure Scales (n tenths power : Nat) : Prop where
  greatest : IsGreatest {i | i ≤ 4 ∧ 1024 ^ i ≤ n} power
  pos : 0 < power
  nearest : Decimal.Nearest (10 * Decimal.cutToWidth 53 n) (1024 ^ power) tenths

theorem ofUnits_of_lt {units : UInt64} (h : units.toNat < 1024) : ofUnits units = plain units.toNat :=
  if_pos h

theorem exists_scales {units : UInt64} (h : 1024 ≤ units.toNat) :
    ∃ tenths power, ofUnits units = scaled tenths power ∧ Scales units.toNat tenths power := by
  have hcut : 1024 ^ 1 ≤ Decimal.cutToWidth 53 units.toNat := (pow_le_cut_iff (by decide) _).mpr h
  have hgreatest := powerOf_greatest (n := Decimal.cutToWidth 53 units.toNat) (by omega)
  refine ⟨_, _, if_neg (by omega), ?_, hgreatest.2 ⟨by decide, hcut⟩,
    Decimal.nearest_roundHalfEven (unit_pos _) _⟩
  convert hgreatest using 3 with i
  exact and_congr_right fun hi => (pow_le_cut_iff hi _).symm

namespace Scales

variable {n tenths power : Nat} (h : Scales n tenths power)
include h

theorem le_four : power ≤ 4 := h.greatest.1.1

theorem reaches : 1024 ^ power ≤ n := h.greatest.1.2

theorem lt_next (hp : power < 4) : n < 1024 ^ (power + 1) := by
  by_contra hle
  have := h.greatest.2 ⟨hp, Nat.le_of_not_lt hle⟩
  omega

theorem le_tenths : 10 ≤ tenths := by
  have hcut := (pow_le_cut_iff h.le_four n).mpr h.reaches
  refine (Decimal.nearest_mul (unit_pos power) 10).le_of_le (unit_pos power) h.nearest ?_
  exact Nat.mul_le_mul_left 10 hcut

theorem cut_eq (hp : power < 4) : Decimal.cutToWidth 53 n = n := by
  have hnext := h.lt_next hp
  have hle : 1024 ^ (power + 1) ≤ 1024 ^ 4 := Nat.pow_le_pow_right (by decide) hp
  exact Decimal.cutToWidth_of_le (by decide) (by omega)

theorem tenths_le (hp : power < 4) : tenths ≤ 10240 := by
  refine h.nearest.le_of_le (unit_pos power) (Decimal.nearest_mul (unit_pos power) 10240) ?_
  have hnext := h.lt_next hp
  rw [pow_succ] at hnext
  rw [h.cut_eq hp]
  omega

/-- Fewer than 1024 of a unit are printed unless the count is half a tenth or less below the next
unit. -/
theorem tenths_lt_iff (hp : power < 4) :
    tenths < 10240 ↔ 20 * n + 1024 ^ power < 20 * 1024 ^ (power + 1) := by
  obtain ⟨hnum, hround, heven⟩ := h.nearest
  rw [h.cut_eq hp] at hnum hround heven
  rw [pow_succ]
  have hpos := unit_pos power
  generalize 1024 ^ power = den at *
  constructor
  · intro hlt
    by_contra hge
    have hmul : tenths * den ≤ 10239 * den := Nat.mul_le_mul_right den (by omega)
    -- a count that is half a tenth below the next unit goes there, as the number of tenths is even
    have hodd : tenths = 10239 := Nat.eq_of_mul_eq_mul_right hpos (by omega)
    have := heven (by omega)
    omega
  · intro hlt
    by_contra hge
    have hmul : 10240 * den ≤ tenths * den := Nat.mul_le_mul_right den (by omega)
    omega

end Scales

/-! ### What is read -/

theorem read?_ofUnits (units : UInt64) :
    read? (ofUnits units).text = some (ofUnits units).quantity := by
  apply read?_text
  rcases Nat.lt_or_ge units.toNat 1024 with h | h
  · rw [ofUnits_of_lt h]
    trivial
  · obtain ⟨tenths, power, heq, hs⟩ := exists_scales h
    rw [heq]
    exact ⟨hs.pos, Nat.lt_succ_of_le hs.le_four⟩

/-- A quantity says how many units there are: all of them if they are less than 1024, and otherwise,
in the greatest unit that they reach, as many as they are to half a tenth. Above the fifty-third
power of two the count itself is not known so exactly. -/
structure Approximates (q : Quantity) (n : Nat) : Prop where
  power_eq_zero : n < 1024 → q.power = 0
  exact : n < 1024 → q.units = n
  greatest : 1024 ≤ n → IsGreatest {i | i ≤ 4 ∧ 1024 ^ i ≤ n} q.power
  near : n ≤ 2 ^ 53 → |q.units - n| ≤ 1024 ^ q.power / 20

theorem approximates_plain {n : Nat} (h : n < 1024) : Approximates (plain n).quantity n := by
  have hunits : (plain n).quantity.units = n := by simp [quantity, Quantity.units]
  refine ⟨fun _ => rfl, fun _ => hunits, fun hge => absurd h (Nat.not_lt.mpr hge), fun _ => ?_⟩
  rw [hunits, sub_self, abs_zero]
  positivity

theorem Scales.approximates {n tenths power : Nat} (h : Scales n tenths power) :
    Approximates (scaled tenths power).quantity n := by
  have hreach : 1024 ≤ n := by
    have := Nat.pow_le_pow_right (n := 1024) (by decide) h.pos
    have := h.reaches
    omega
  refine ⟨by omega, by omega, fun _ => h.greatest, fun hle => ?_⟩
  obtain ⟨hnum, hround, _⟩ := h.nearest
  rw [Decimal.cutToWidth_of_le (by decide) hle] at hnum hround
  have hnum : (2 * (10 * n) : ℚ) ≤ 2 * (tenths * 1024 ^ power) + 1024 ^ power := by exact_mod_cast hnum
  have hround : (2 * (tenths * 1024 ^ power) : ℚ) ≤ 2 * (10 * n) + 1024 ^ power := by
    exact_mod_cast hround
  rw [abs_le]
  simp only [quantity, Quantity.units]
  constructor <;> linarith

theorem Scales.le_of_le {n m tenths tenths' power power' : Nat} (h : Scales n tenths power)
    (h' : Scales m tenths' power') (hle : n ≤ m) :
    tenths * 1024 ^ power ≤ tenths' * 1024 ^ power' := by
  have hpower : power ≤ power' := h'.greatest.2 ⟨h.le_four, Nat.le_trans h.reaches hle⟩
  rcases Nat.lt_or_eq_of_le hpower with hlt | rfl
  · have hfour := h'.le_four
    calc tenths * 1024 ^ power
        ≤ 10240 * 1024 ^ power := Nat.mul_le_mul_right _ (h.tenths_le (by omega))
      _ = 10 * 1024 ^ (power + 1) := by rw [pow_succ]; omega
      _ ≤ 10 * 1024 ^ power' := Nat.mul_le_mul_left 10 (Nat.pow_le_pow_right (by decide) hlt)
      _ ≤ tenths' * 1024 ^ power' := Nat.mul_le_mul_right _ h'.le_tenths
  · refine Nat.mul_le_mul_right _ (h.nearest.le_of_le (unit_pos power) h'.nearest ?_)
    exact Nat.mul_le_mul_left 10 (Decimal.cutToWidth_mono (by decide) hle)

/-- What a size says, in tenths of the unit of the power zero. -/
def tenthUnits : MemorySize → Nat
  | plain units => 10 * units
  | scaled tenths power => tenths * 1024 ^ power

theorem units_quantity (size : MemorySize) : size.quantity.units = size.tenthUnits / 10 := by
  cases size with
  | plain n =>
      simp only [quantity, Quantity.units, tenthUnits, Nat.cast_mul, Nat.cast_ofNat, pow_zero]
      ring
  | scaled tenths power =>
      simp only [quantity, Quantity.units, tenthUnits, Nat.cast_mul, Nat.cast_pow, Nat.cast_ofNat]
      ring

theorem tenthUnits_mono {a b : UInt64} (hab : a.toNat ≤ b.toNat) :
    (ofUnits a).tenthUnits ≤ (ofUnits b).tenthUnits := by
  rcases Nat.lt_or_ge b.toNat 1024 with hb | hb
  · rw [ofUnits_of_lt hb, ofUnits_of_lt (by omega)]
    exact Nat.mul_le_mul_left 10 hab
  obtain ⟨tenths', power', heq', hs'⟩ := exists_scales hb
  rw [heq']
  rcases Nat.lt_or_ge a.toNat 1024 with ha | ha
  · rw [ofUnits_of_lt ha]
    have hunit := Nat.pow_le_pow_right (n := 1024) (by decide) hs'.pos
    calc 10 * a.toNat
        ≤ 10 * 1024 ^ power' := Nat.mul_le_mul_left 10 (by omega)
      _ ≤ tenths' * 1024 ^ power' := Nat.mul_le_mul_right _ hs'.le_tenths
  · obtain ⟨tenths, power, heq, hs⟩ := exists_scales ha
    rw [heq]
    exact hs.le_of_le hs' hab

/-- **A printed size is accurate and monotone.** What is read of the text of a count approximates
the count, and of the text of a greater count no less is read. -/
theorem accurate_and_monotone :
    (∀ units : UInt64, ∃ q, read? (ofUnits units).text = some q ∧ Approximates q units.toNat) ∧
      ∀ a b : UInt64, a ≤ b → ∃ p q, read? (ofUnits a).text = some p ∧
        read? (ofUnits b).text = some q ∧ p.units ≤ q.units := by
  constructor
  · intro units
    refine ⟨_, read?_ofUnits units, ?_⟩
    rcases Nat.lt_or_ge units.toNat 1024 with h | h
    · rw [ofUnits_of_lt h]
      exact approximates_plain h
    · obtain ⟨tenths, power, heq, hs⟩ := exists_scales h
      rw [heq]
      exact hs.approximates
  · intro a b hab
    refine ⟨_, _, read?_ofUnits a, read?_ofUnits b, ?_⟩
    rw [units_quantity, units_quantity]
    have hle := tenthUnits_mono (UInt64.le_iff_toNat_le.mp hab)
    gcongr

/-- The count below a megabyte is printed in kilobytes, and reads as much as a megabyte. -/
theorem accurate_and_monotone_megabyte :
    (1048575 : UInt64) ≤ 1048576 ∧
      ∃ p q, read? (ofUnits 1048575).text = some p ∧ read? (ofUnits 1048576).text = some q ∧
        p.units ≤ q.units ∧ p.power = 1 ∧ q.power = 2 := by
  have hle : (1048575 : UInt64) ≤ 1048576 := by decide
  obtain ⟨p, q, hp, hq, hpq⟩ := accurate_and_monotone.2 1048575 1048576 hle
  have hkilo : ofUnits 1048575 = scaled 10240 1 := by decide
  have hmega : ofUnits 1048576 = scaled 10 2 := by decide
  refine ⟨hle, p, q, hp, hq, hpq, ?_, ?_⟩
  · rw [read?_ofUnits, hkilo] at hp
    rw [← Option.some.inj hp]
    rfl
  · rw [read?_ofUnits, hmega] at hq
    rw [← Option.some.inj hq]
    rfl

/-! ### The number in front of the unit -/

/-- The number in front of the unit is at least one, and less than 1024 unless there is no larger
unit. -/
def Normalised (text : String) : Prop :=
  ∃ q, read? text = some q ∧ 1 ≤ q.numeral ∧ (q.power < 4 → q.numeral < 1024)

/-- The count is less than the next power of 1024, by half a tenth of the power before at most. -/
def JustBelow (n : Nat) : Prop :=
  ∃ power, 0 < power ∧ power < 4 ∧ n < 1024 ^ (power + 1) ∧
    20 * 1024 ^ (power + 1) ≤ 20 * n + 1024 ^ power

/-- The number in front of the unit is the quotient of the count and the unit, rounded to the
nearest tenth, and of two to the even one. In the largest unit the count is cut before if a double
cannot hold it. -/
structure Quotes (q : Quantity) (n : Nat) : Prop where
  rounded : ∃ tenths : Nat, q.numeral = tenths / 10 ∧
    Decimal.Nearest (10 * Decimal.cutToWidth 53 n) (1024 ^ q.power) tenths
  cut_eq : q.power < 4 ∨ n ≤ 2 ^ 53 → Decimal.cutToWidth 53 n = n
  one_le : 1 ≤ q.numeral
  le_next : q.power < 4 → q.numeral ≤ 1024

namespace Scales

variable {n tenths power : Nat} (h : Scales n tenths power)
include h

theorem quotes : Quotes (scaled tenths power).quantity n where
  rounded := ⟨tenths, rfl, h.nearest⟩
  cut_eq := by
    rintro (hp | hn)
    · exact h.cut_eq hp
    · exact Decimal.cutToWidth_of_le (by decide) hn
  one_le := by
    have hle : (10 : ℚ) ≤ tenths := by exact_mod_cast h.le_tenths
    show (1 : ℚ) ≤ tenths / 10
    linarith
  le_next hp := by
    have hle : (tenths : ℚ) ≤ 10240 := by exact_mod_cast h.tenths_le hp
    show (tenths / 10 : ℚ) ≤ 1024
    linarith

theorem justBelow_iff :
    JustBelow n ↔ power < 4 ∧ 20 * 1024 ^ (power + 1) ≤ 20 * n + 1024 ^ power := by
  constructor
  · rintro ⟨i, hpos, hi, hlt, hge⟩
    have hreach : 1024 ^ i ≤ n := by
      rw [pow_succ] at hge
      omega
    have hle : i ≤ power := h.greatest.2 ⟨by omega, hreach⟩
    have hge' : power ≤ i := by
      by_contra hnot
      have := Nat.pow_le_pow_right (n := 1024) (by decide) (show i + 1 ≤ power by omega)
      have := h.reaches
      omega
    obtain rfl := Nat.le_antisymm hle hge'
    exact ⟨hi, hge⟩
  · rintro ⟨hp, hge⟩
    exact ⟨power, h.pos, hp, h.lt_next hp, hge⟩

theorem normalised_iff : Normalised (scaled tenths power).text ↔ ¬ JustBelow n := by
  have hread : read? (scaled tenths power).text = some ⟨tenths / 10, power⟩ :=
    read?_text ⟨h.pos, Nat.lt_succ_of_le h.le_four⟩
  have hless : (tenths / 10 : ℚ) < 1024 ↔ tenths < 10240 := by
    rw [div_lt_iff₀ (by norm_num)]
    norm_num
  rw [h.justBelow_iff, not_and, not_le]
  constructor
  · rintro ⟨q, hq, _, hlt⟩ hp
    rw [hread, Option.some.injEq] at hq
    subst hq
    exact (h.tenths_lt_iff hp).mp (hless.mp (hlt hp))
  · intro hlt
    exact ⟨_, hread, h.quotes.one_le, fun hp => hless.mpr ((h.tenths_lt_iff hp).mpr (hlt hp))⟩

end Scales

/-- **A printed size is normalised unless it is just below the next unit.** -/
theorem normalised_unless_just_below (units : UInt64) (h : 1024 ≤ units) :
    (∃ q, read? (ofUnits units).text = some q ∧ Quotes q units.toNat) ∧
      (Normalised (ofUnits units).text ↔ ¬ JustBelow units.toNat) := by
  obtain ⟨tenths, power, heq, hs⟩ := exists_scales (UInt64.le_iff_toNat_le.mp h)
  refine ⟨⟨_, read?_ofUnits units, ?_⟩, ?_⟩
  · rw [heq]
    exact hs.quotes
  · rw [heq]
    exact hs.normalised_iff

/-- A count that is below a megabyte, but not just below it, is printed normalised. -/
theorem normalised_unless_just_below_megabyte :
    (1024 : UInt64) ≤ 1048524 ∧ Normalised (ofUnits 1048524).text := by
  have hle : (1024 : UInt64) ≤ 1048524 := by decide
  refine ⟨hle, (normalised_unless_just_below 1048524 hle).2.mpr ?_⟩
  rintro ⟨power, hpos, hlt, hnext, hge⟩
  have : power < 4 := hlt
  interval_cases power <;> simp at hnext hge

/-- **A size that is not normalised**: 1024 kilobytes. -/
theorem not_normalised_below_megabyte :
    (ofUnits 1048575).text = "1024.0KB" ∧
      ¬ ∀ units : UInt64, 1024 ≤ units → Normalised (ofUnits units).text := by
  have hkilo : ofUnits 1048575 = scaled 10240 1 := by decide
  constructor
  · rw [hkilo]
    decide +kernel
  · intro hall
    obtain ⟨q, hq, _, hlt⟩ := hall 1048575 (by decide)
    rw [read?_ofUnits, hkilo, Option.some.injEq] at hq
    subst hq
    have := hlt (by decide)
    norm_num [quantity] at this

end PartitionedIndex.MemorySize
