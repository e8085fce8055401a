/-! # Shortest decimals of binary floating-point numbers

The decimal of fewest digits that reads back as a given double. A finite double is decoded into
a whole number of units of a power of two; the reals that round to it form an interval around it,
whose ends belong to it when that whole number is even. For one, two, ... digits in turn the two
neighbours of the number on that decimal grid are tried, and the first grid with a neighbour
inside the interval wins. All comparisons are exact, on natural numbers. -/

namespace PartitionedIndex.Decimal

/-- The number `digits * 10 ^ exponent`. -/
structure Scaled where
  digits : Nat
  exponent : Int
  deriving DecidableEq, Repr

namespace Scaled

/-- Moves trailing zeros of the digits into the exponent; `fuel` bounds their count. -/
def trim : Nat → Scaled → Scaled
  | 0, d => d
  | fuel + 1, d =>
    if d.digits % 10 = 0 then trim fuel ⟨d.digits / 10, d.exponent + 1⟩ else d

end Scaled

/-- A positive finite double as `significand * 2 ^ exponent`; `narrow` tells that the next smaller
double is only half as far away as the next larger one. -/
structure Binary where
  significand : Nat
  exponent : Int
  narrow : Bool
  deriving DecidableEq, Repr

namespace Binary

/-- Decodes the 63 bits below the sign of a finite double. -/
def ofBits (bits : Nat) : Binary :=
  let fraction := bits % Nat.pow 2 52
  let exponent : Nat := bits / Nat.pow 2 52 % Nat.pow 2 11
  if exponent = 0 then ⟨fraction, -1074, false⟩
  else ⟨fraction + Nat.pow 2 52, (exponent : Int) - 1075, decide (fraction = 0) && exponent != 1⟩

/-- The quotient `n * 2 ^ e` of two natural numbers. -/
def quotient (n : Nat) (e : Int) : Nat × Nat :=
  if 0 ≤ e then (n * Nat.pow 2 e.toNat, 1) else (n, Nat.pow 2 (-e).toNat)

/-- Whether `c * 10 ^ p` rounds to the double. Everything is counted in quarters of its unit, so
that both ends of the interval are whole. -/
def hits (b : Binary) (c : Nat) (p : Int) : Bool :=
  let low := 4 * b.significand - (if b.narrow then 1 else 2)
  let high := 4 * b.significand + 2
  let (unitNum, unitDen) := quotient 1 (b.exponent - 2)
  let (tenNum, tenDen) := if 0 ≤ p then (Nat.pow 10 p.toNat, 1) else (1, Nat.pow 10 (-p).toNat)
  let x := c * tenNum * unitDen
  let scale := tenDen * unitNum
  if b.significand % 2 = 0 then decide (low * scale ≤ x) && decide (x ≤ high * scale)
  else decide (low * scale < x) && decide (x < high * scale)

/-- A power of ten above the number, `10 ^ p` with the least `p` for numbers from one up. -/
def magnitude (b : Binary) : Int :=
  let (num, den) := quotient b.significand b.exponent
  if den ≤ num then (Nat.toDigits 10 (num / den)).length
  else 1 - ((Nat.toDigits 10 (den / num)).length : Int)

/-- The best decimal of `n` digits that rounds to the double: of the two neighbours on the grid the
nearer one, the upper one on a tie. -/
def onGrid? (b : Binary) (n : Nat) : Option Scaled :=
  let p := b.magnitude - n
  let (num, den) := quotient b.significand b.exponent
  let (num, den) :=
    if 0 ≤ p then (num, den * Nat.pow 10 p.toNat) else (num * Nat.pow 10 (-p).toNat, den)
  let below := num / den
  let upperNearer := decide (den ≤ 2 * (num % den))
  match b.hits below p, b.hits (below + 1) p with
  | true, true => some ⟨if upperNearer then below + 1 else below, p⟩
  | true, false => some ⟨below, p⟩
  | false, true => some ⟨below + 1, p⟩
  | false, false => none

/-- The shortest decimal that rounds to the double; seventeen digits always suffice. -/
def shortest (b : Binary) : Scaled :=
  (((List.range 17).findSome? fun n => b.onGrid? (n + 1)).getD ⟨0, 0⟩).trim 20

end Binary

/-- How a floating-point number is laid out: from which to which power of ten positional notation
reaches, and the words for what is no number. -/
structure Format where
  /-- The least power of ten of a leading digit that is written positionally. -/
  least : Int
  /-- The first power of ten that is no longer written positionally. -/
  past : Int
  notNumber : String
  infinite : String

namespace Format

/-- Digits with a point among them, at least one digit on either side of it. -/
def positional (digits : List Char) (exponent : Int) : String :=
  let point := (digits.length : Int) + exponent
  let (whole, rest) :=
    if point ≤ 0 then (['0'], List.replicate (-point).toNat '0' ++ digits)
    else
      let padded := digits ++ List.replicate exponent.toNat '0'
      (padded.take point.toNat, padded.drop point.toNat)
  String.ofList (whole ++ '.' :: if rest.isEmpty then ['0'] else rest)

/-- One digit, a point and the others if there are any, and the power of ten after an `e`. -/
def exponential (digits : List Char) (exponent : Int) : String :=
  let power := exponent + ((digits.length : Int) - 1)
  let mantissa :=
    match digits with
    | [] => []
    | [d] => [d]
    | d :: ds => d :: '.' :: ds
  String.ofList mantissa ++ "e" ++ toString power

/-- The text of a positive decimal. -/
def scaled (l : Format) (d : Scaled) : String :=
  let digits := Nat.toDigits 10 d.digits
  let power := d.exponent + ((digits.length : Int) - 1)
  if decide (l.least ≤ power) && decide (power < l.past) then positional digits d.exponent
  else exponential digits d.exponent

/-- The text of a double: sign, then the shortest decimal that reads back. -/
def text (l : Format) (x : Float) : String :=
  let bits := x.toBits.toNat
  let sign := if bits / Nat.pow 2 63 = 0 then "" else "-"
  let rest := bits % Nat.pow 2 63
  if rest / Nat.pow 2 52 = Nat.pow 2 11 - 1 then
    if rest % Nat.pow 2 52 = 0 then sign ++ l.infinite else l.notNumber
  else if rest = 0 then sign ++ "0.0"
  else sign ++ l.scaled (Binary.ofBits rest).shortest

end Format

end PartitionedIndex.Decimal
