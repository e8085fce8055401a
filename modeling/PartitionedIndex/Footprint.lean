import PartitionedIndex.Decimal.Rounding

/-! # Memory footprint

How much memory an index takes, in units of about a byte, and how such a count is printed. Every
indexed key is stored twice, with its value and in the key set of its value; every attribute value
once, with the key set; and each of these slots has a fixed cost.

A count from 1024 on is cut to 53 binary digits, as the quotient is one of doubles, divided by 1024
as long as it is not less and there is a larger unit, and printed with one decimal. So it is printed
in the largest of the units KB, MB, GB, TB that it reaches. -/

namespace PartitionedIndex

/-- The size in bytes of the values of a type, bare and nullable. -/
class Stored (α : Type) where
  bytes : Nat
  nullableBytes : Nat

instance : Stored Bool := ⟨1, 1⟩
instance : Stored UInt8 := ⟨1, 2⟩
instance : Stored UInt32 := ⟨4, 8⟩
instance : Stored UInt64 := ⟨8, 16⟩
instance : Stored Int64 := ⟨8, 16⟩
instance : Stored String := ⟨24, 24⟩

namespace Footprint

/-- The fixed cost of a slot. -/
def slotCost : UInt64 := 16

/-- The units of an index of so many keys and distinct values, given the size of a key and of a
nullable value; sixty-four bits wide, like every sum of units. -/
def units (keyBytes valueBytes keys values : UInt64) : UInt64 :=
  keys * (keyBytes + valueBytes + slotCost) +
    (values * (valueBytes + slotCost) + keys * (keyBytes + slotCost))

/-- The units of an index from keys of type `K` to values of type `E`. -/
def estimate (K E : Type) [Stored K] [Stored E] (keys values : UInt64) : UInt64 :=
  units (.ofNat (Stored.bytes K)) (.ofNat (Stored.nullableBytes E)) keys values

end Footprint

/-- A printed count of units: all of them, or tenths of a power of 1024 from the first to the
fourth. -/
inductive MemorySize where
  | plain (units : Nat)
  | scaled (tenths power : Nat)
  deriving DecidableEq, Repr

namespace MemorySize

/-- The names of the powers of 1024, from the first. -/
def suffixes : List String := ["KB", "MB", "GB", "TB"]

/-- How often a number is divided by 1024, as long as it is not less and at most so often as the
limit says. What stands after the point does not matter to that. -/
def divisions : Nat → Nat → Nat
  | 0, _ => 0
  | limit + 1, n => if n < 1024 then 0 else divisions limit (n / 1024) + 1

/-- The power of 1024 that a number is printed in: it is divided until it is less than 1024 or there
is no larger unit. -/
def powerOf (n : Nat) : Nat := divisions suffixes.length n

def ofUnits (units : UInt64) : MemorySize :=
  let n := units.toNat
  if n < 1024 then plain n
  else
    let size := Decimal.cutToWidth 53 n
    let power := powerOf size
    scaled (Decimal.roundHalfEven (10 * size) (Nat.pow 1024 power)) power

def text : MemorySize → String
  | plain units => toString units ++ "B"
  | scaled tenths power => Decimal.tenthsText tenths ++ suffixes.getD (power - 1) ""

end MemorySize

end PartitionedIndex
