import PartitionedIndex.Layout
import PartitionedIndex.Text.Label

/-! # Scenarios

Small tables on which the behaviour of views is easy to see: one value shared by two partitions, an
ordered index with null among its values, and a partition that could not index a key. -/

namespace PartitionedIndex.Scenario

def city : Extractor := ⟨"city"⟩

/-- Key `k1` belongs to partition zero, every other key to partition one. -/
def cityOwner : Owner Label := fun key => if key.text = "k1" then ⟨0⟩ else ⟨1⟩

def unorderedIndex {K E : Type} [Ord K] [Ord E] [Std.TransOrd K] [Std.TransOrd E]
    (extractor : Extractor) (entries : List (K × Option E)) : Index K E :=
  (Index.unordered { extractor }).rebuild entries

/-- Value `a` has key `k1` in partition zero and `k2` in partition one, which also has `b` for
`k3`. -/
def twoPartitions : Table Label String :=
  ((∅ : Table Label String).putIndex ⟨0⟩ city (unorderedIndex city [(⟨"k1"⟩, some "a")])).putIndex
    ⟨1⟩ city (unorderedIndex city [(⟨"k2"⟩, some "a"), (⟨"k3"⟩, some "b")])

/-- Null, three and one, each in a partition of its own. -/
def nullThreeOne : Layout := .new 3 [(0, none), (1, some 3), (2, some 1)]

/-- The index of one of so many partitions: it has its own number for a key and value, and in the last
partition it is partial. -/
def partialIndex (count id : UInt32) : Index UInt64 Int64 :=
  let index := unorderedIndex Layout.extractor [(id.toUInt64, some (.ofNat id.toNat))]
  if id + 1 = count then index.markUnindexable (id.toUInt64 + count.toUInt64) else index

/-- Partitions, at least one, of which the last is partial. -/
def partialTable (count : UInt32) : Table UInt64 Int64 :=
  (Layout.new count []).ids.foldl
    (fun t id => t.putIndex id Layout.extractor (partialIndex (max count 1) id.number)) ∅

end PartitionedIndex.Scenario
