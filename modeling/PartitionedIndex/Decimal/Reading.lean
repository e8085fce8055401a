/-! # Reading a floating-point number

The grammar of a written number: an optional sign, then either a word for infinity or for no
number (in any case), or digits with an optional point and an optional power of ten. At least one
digit stands before or after the point. -/

namespace PartitionedIndex.Decimal

/-- The digits a text begins with, as a number and with their count, and what follows them. -/
def leadingDigits (cs : List Char) : Nat × Nat × List Char :=
  let ds := cs.takeWhile Char.isDigit
  (ds.foldl (fun n c => 10 * n + (c.toNat - '0'.toNat)) 0, ds.length, cs.dropWhile Char.isDigit)

/-- Splits off a sign; `true` stands for minus. -/
def splitSign : List Char → Bool × List Char
  | '-' :: cs => (true, cs)
  | '+' :: cs => (false, cs)
  | cs => (false, cs)

/-- The power of ten a written number ends in: nothing, or `e` with a signed whole number. -/
def readPower? : List Char → Option Int
  | [] => some 0
  | c :: cs =>
    if c.toLower ≠ 'e' then none
    else
      let (negative, rest) := splitSign cs
      let (power, count, left) := leadingDigits rest
      if count = 0 || !left.isEmpty then none
      else some (if negative then -(power : Int) else power)

/-- The number `digits * 10 ^ power`, rounded to a double. Powers beyond four thousand above or
below the length of the digits cannot change the result. -/
def scale (digits count : Nat) (power : Int) : Float :=
  let bound : Int := count + 4000
  let power := max (-bound) (min bound power)
  if power < 0 then Float.ofScientific digits true (-power).toNat
  else Float.ofScientific digits false power.toNat

/-- An unsigned written number. -/
def readMagnitude? (cs : List Char) : Option Float :=
  let word := String.ofList (cs.map Char.toLower)
  if word = "inf" || word = "infinity" then some (1.0 / 0.0)
  else if word = "nan" then some (0.0 / 0.0)
  else
    let (whole, wholeCount, afterWhole) := leadingDigits cs
    let (digits, places, rest) :=
      match afterWhole with
      | '.' :: afterPoint =>
        let (fraction, count, rest) := leadingDigits afterPoint
        (whole * Nat.pow 10 count + fraction, count, rest)
      | rest => (whole, 0, rest)
    if wholeCount + places = 0 then none
    else (readPower? rest).map fun power =>
      scale digits (wholeCount + places) (power - (places : Int))

/-- A written number; nothing if the text is none. -/
def read? (s : String) : Option Float :=
  let (negative, rest) := splitSign s.toList
  (readMagnitude? rest).map fun x => if negative then -x else x

end PartitionedIndex.Decimal
