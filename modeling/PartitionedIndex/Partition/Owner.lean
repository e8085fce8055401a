import PartitionedIndex.Partition
import PartitionedIndex.SipHash

/-! # Owners

Every key is owned by one partition, which is a function of the key. The owners here work on the
number of a key, which for a text is its length in bytes, or on a hash of its bytes. -/

namespace PartitionedIndex

/-- The partition that owns each key. -/
abbrev Owner (K : Type) : Type := K → PartitionId

/-- Keys that can be numbered and hashed. -/
class Routable (K : Type) where
  /-- The number of a key. -/
  number : K → UInt64
  /-- The bytes of a key, which no other key has as a beginning. -/
  bytes : K → List UInt8

instance : Routable UInt64 := ⟨id, fun n => SipHash.littleEndian 8 n.toNat⟩
instance : Routable UInt32 := ⟨UInt32.toUInt64, fun n => SipHash.littleEndian 4 n.toNat⟩
instance : Routable String :=
  ⟨fun s => .ofNat s.utf8ByteSize, fun s => s.toUTF8.toList ++ [0xff]⟩

namespace Owner

def always {K : Type} (id : PartitionId) : Owner K := fun _ => id

variable {K : Type} [Routable K]

/-- The number of partitions to divide keys among; at least one. -/
def atLeastOne (count : UInt32) : UInt32 := max count 1

/-- Divides keys by the remainder of their number. -/
def modulo (count : UInt32) : Owner K := fun key =>
  ⟨(Routable.number key % (atLeastOne count).toUInt64).toUInt32⟩

/-- Divides keys by the remainder of their hash. -/
def hashed (count : UInt32) : Owner K := fun key =>
  ⟨(SipHash.hash 0 0 (Routable.bytes key) % (atLeastOne count).toUInt64).toUInt32⟩

/-- Gives runs of `width` consecutive numbers to consecutive partitions, modulo 2 to the 32nd. -/
def runs (width : UInt64) : Owner K := fun key =>
  ⟨(Routable.number key / max width 1).toUInt32⟩

end Owner

end PartitionedIndex
