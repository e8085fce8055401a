/-! # Rounding a quotient

The whole number nearest to an exact quotient, a half going to the even neighbour, and the two
places that need it: a decimal with one digit after the point, and a number cut to a fixed
count of binary digits. Main statements: `roundHalfEven_near`, the result is within half a unit of
the quotient, and `roundHalfEven_tie`, a half gives an even number. -/

namespace PartitionedIndex.Decimal

/-- The whole number nearest to `num / den`; a half goes to the even neighbour. -/
def roundHalfEven (num den : Nat) : Nat :=
  let quotient := num / den
  match compare (2 * (num % den)) den with
  | .lt => quotient
  | .gt => quotient + 1
  | .eq => quotient + quotient % 2

/-- The number with `n / 10` before the point and the last digit of `n` after it. -/
def tenthsText (n : Nat) : String :=
  toString (n / 10) ++ "." ++ toString (n % 10)

/-- The nearest number to `n` with at most `width` significant binary digits. -/
def cutToWidth (width n : Nat) : Nat :=
  let grain := Nat.pow 2 (Nat.log2 n + 1 - width)
  roundHalfEven n grain * grain

/-- The result is within half a unit of the quotient. -/
theorem roundHalfEven_near (num den : Nat) (h : 0 < den) :
    2 * num ≤ 2 * (roundHalfEven num den * den) + den ∧
      2 * (roundHalfEven num den * den) ≤ 2 * num + den := by
  have hdiv := Nat.div_add_mod num den
  have hlt := Nat.mod_lt num h
  have hcomm : den * (num / den) = num / den * den := Nat.mul_comm ..
  unfold roundHalfEven
  simp only
  split
  next hc =>
    rw [Nat.compare_eq_lt] at hc
    omega
  next hc =>
    rw [Nat.compare_eq_gt] at hc
    rw [Nat.add_mul, Nat.one_mul]
    omega
  next hc =>
    rw [Nat.compare_eq_eq] at hc
    rcases Nat.mod_two_eq_zero_or_one (num / den) with h2 | h2 <;> rw [h2]
    · rw [Nat.add_zero]
      omega
    · rw [Nat.add_mul, Nat.one_mul]
      omega

/-- A half gives an even number. -/
theorem roundHalfEven_tie (num den : Nat) (h : 2 * (num % den) = den) :
    roundHalfEven num den % 2 = 0 := by
  have hc : compare (2 * (num % den)) den = .eq := Nat.compare_eq_eq.2 h
  unfold roundHalfEven
  simp only [hc]
  omega

end PartitionedIndex.Decimal
