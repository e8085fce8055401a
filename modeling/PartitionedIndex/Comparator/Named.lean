import PartitionedIndex.Comparator

/-! # Ready-made orders

Orders of attribute values that are not the natural one. Several are *coarse*: they hold values for
equal that differ. -/

namespace PartitionedIndex.Order

def same {E : Type} [Ord E] : E → E → Ordering := compare

def reverse {E : Type} [Ord E] (a b : E) : Ordering := compare b a

/-- All values are equal. -/
def constant {E : Type} (_ _ : E) : Ordering := .eq

/-- Numbers by their tens, counted from zero outwards. -/
def bucket (a b : Int64) : Ordering := compare (a / 10) (b / 10)

/-- Numbers by their distance from zero. -/
def magnitude (a b : Int64) : Ordering := compare a.toInt.natAbs b.toInt.natAbs

/-- Numbers by what division by three leaves. -/
def residue (a b : Int64) : Ordering := compare (a.toInt % 3) (b.toInt % 3)

/-- Texts by their length in bytes. -/
def byteLength (a b : String) : Ordering := compare a.utf8ByteSize b.utf8ByteSize

/-- Texts without regard to the case of the letters from A to Z. -/
def caseless (a b : String) : Ordering := compare (a.map Char.toLower) (b.map Char.toLower)

/-- Texts by their first character, the empty text being first. -/
def initial (a b : String) : Ordering := compare a.toList.head? b.toList.head?

end PartitionedIndex.Order
