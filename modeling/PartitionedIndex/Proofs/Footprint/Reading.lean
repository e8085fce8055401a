import Mathlib.Algebra.Order.Field.Rat
import Mathlib.Tactic.FieldSimp
import Mathlib.Tactic.IntervalCases
import PartitionedIndex.Decimal.Reading
import PartitionedIndex.Footprint

/-! # Reading printed sizes

A printed size is a decimal number and the name of a unit, which is a power of 1024. Reading gives
the number and the power (`Quantity`), and from the text of a size it gives what the size says
(`read?_text`). -/

namespace PartitionedIndex

namespace Decimal

theorem leadingDigits_append (n : Nat) {rest : List Char}
    (h : rest.takeWhile Char.isDigit = []) :
    leadingDigits ((toString n).toList ++ rest) = (n, (Nat.toDigits 10 n).length, rest) := by
  have hdigits : ∀ c ∈ Nat.toDigits 10 n, c.isDigit = true :=
    fun c hc => Nat.isDigit_of_mem_toDigits (by decide) (by decide) hc
  have hrest : rest.dropWhile Char.isDigit = rest := by
    have happend := List.takeWhile_append_dropWhile (p := Char.isDigit) (l := rest)
    rwa [h, List.nil_append] at happend
  have hvalue : Nat.ofDigitChars 10 (Nat.toDigits 10 n) 0 = n := Nat.ofDigitChars_ten_toDigits
  unfold leadingDigits
  rw [Nat.toString_eq_repr, Nat.toList_repr, List.takeWhile_append_of_pos hdigits,
    List.dropWhile_append_of_pos hdigits, h, hrest, List.append_nil]
  exact congrArg (·, _, rest) hvalue

end Decimal

/-- A number of units, the units being a power of 1024. -/
structure Quantity where
  numeral : ℚ
  power : Nat

/-- The quantity in units of the power zero. -/
def Quantity.units (q : Quantity) : ℚ := q.numeral * 1024 ^ q.power

namespace MemorySize

/-- The names of the powers of 1024, from the power zero. -/
def unitNames : List String := "B" :: suffixes

/-- Reads a decimal number and the name of a unit. -/
def read? (text : String) : Option Quantity :=
  let (whole, count, afterWhole) := Decimal.leadingDigits text.toList
  if count = 0 then none
  else
    match afterWhole with
    | '.' :: afterPoint =>
      let (fraction, places, name) := Decimal.leadingDigits afterPoint
      if places = 0 then none
      else (unitNames.idxOf? (String.ofList name)).map (⟨whole + fraction / 10 ^ places, ·⟩)
    | name => (unitNames.idxOf? (String.ofList name)).map (⟨whole, ·⟩)

/-- A size is printed in a unit that has a name. -/
def Named : MemorySize → Prop
  | plain _ => True
  | scaled _ power => 0 < power ∧ power < unitNames.length

/-- The quantity that a printed size says. -/
def quantity : MemorySize → Quantity
  | plain units => ⟨units, 0⟩
  | scaled tenths power => ⟨tenths / 10, power⟩

theorem idxOf?_suffix {power : Nat} (hpos : 0 < power) (hlt : power < unitNames.length) :
    (suffixes.getD (power - 1) "").toList.takeWhile Char.isDigit = [] ∧
      unitNames.idxOf? (suffixes.getD (power - 1) "") = some power := by
  have hlt : power < 5 := hlt
  interval_cases power <;> decide

/-- A size is read from its text. -/
theorem read?_text {size : MemorySize} (h : size.Named) : read? size.text = some size.quantity := by
  cases size with
  | plain n =>
      have htext : (plain n).text.toList = (toString n).toList ++ ['B'] := String.toList_append
      unfold read?
      rw [htext, Decimal.leadingDigits_append n rfl]
      simp only [Nat.length_toDigits_pos.ne', if_false]
      rfl
  | scaled tenths power =>
      obtain ⟨hdigit, hname⟩ := idxOf?_suffix h.1 h.2
      have htext : (scaled tenths power).text.toList = (toString (tenths / 10)).toList ++
          '.' :: ((toString (tenths % 10)).toList ++ (suffixes.getD (power - 1) "").toList) := by
        simp [text, Decimal.tenthsText]
      have hplaces : (Nat.toDigits 10 (tenths % 10)).length = 1 := by
        rw [Nat.toDigits_of_lt_base (Nat.mod_lt tenths (by decide)), List.length_singleton]
      have hvalue : ((tenths / 10 : Nat) + (tenths % 10 : Nat) / 10 ^ 1 : ℚ) = tenths / 10 := by
        have hsplit : (10 * (tenths / 10 : Nat) + (tenths % 10 : Nat) : ℚ) = tenths := by
          exact_mod_cast Nat.div_add_mod tenths 10
        rw [← hsplit]
        field_simp
      unfold read?
      rw [htext, Decimal.leadingDigits_append _ rfl]
      simp only [Nat.length_toDigits_pos.ne', if_false]
      rw [Decimal.leadingDigits_append _ hdigit]
      simp only [hplaces, one_ne_zero, if_false, String.ofList_toList, hname, Option.map_some, hvalue]
      rfl

end MemorySize

end PartitionedIndex
