import PartitionedIndex.Decimal.Shortest
import PartitionedIndex.Text.Inspect

/-! # Settings of a view

The factor by which a composite index scales the units of its parts, to account for itself, and how
many attribute values a verbose description lists. -/

namespace PartitionedIndex

/-- Settings shared by the indexes of a view. -/
structure Settings where
  unitsOverhead : Float := 1.1
  verboseLimit : UInt64 := 32

namespace Settings

/-- Scales a sum of units by the overhead factor: the nearest whole number, a half away from zero,
and the nearest end of the sixty-four bit range beyond it. -/
def scaleUnits (s : Settings) (units : UInt64) : UInt64 :=
  (units.toFloat * s.unitsOverhead).round.toUInt64

def isDefault (s : Settings) : Bool :=
  s.unitsOverhead == 1.1 && s.verboseLimit == 32

/-- The overhead factor is positional from a ten-thousandth up to below ten to the sixteenth. -/
def overheadFormat : Decimal.Format := ⟨-4, 16, "NaN", "inf"⟩

instance : Inspect Settings where
  inspect s := Inspect.record "CompositeConfig"
    [("units_overhead", overheadFormat.text s.unitsOverhead),
     ("verbose_limit", inspect s.verboseLimit)]

end Settings

end PartitionedIndex
