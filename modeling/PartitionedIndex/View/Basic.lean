import PartitionedIndex.Partition.Owner
import PartitionedIndex.Partition.Sampler
import PartitionedIndex.Settings
import PartitionedIndex.Table

/-! # Views

A view reads the indexes of a table over a scope. It knows which partition owns a key, and how to
pick one partition to stand for an explicit scope; for the scope of all partitions that is the
lowest one. -/

namespace PartitionedIndex

/-- What is needed to read the indexes of a scope. -/
structure View (K E : Type) [Ord K] [Ord E] where
  table : Table K E
  scope : Scope
  owner : Owner K
  sampler : Sampler
  settings : Settings := {}

namespace View

variable {K E : Type} [Ord K] [Ord E]

/-- The partitions in scope, ascending. -/
def partitions (v : View K E) : List PartitionId :=
  match v.scope with
  | .owned => v.table.ids
  | .only ids => ids.toList

def partitionCount (v : View K E) : Nat :=
  match v.scope with
  | .owned => v.table.size
  | .only ids => ids.size

/-- Whether a partition is in scope. -/
def covers (v : View K E) (id : PartitionId) : Bool :=
  match v.scope with
  | .owned => v.table.contains id
  | .only ids => ids.contains id

/-- The partition whose index stands for the scope. -/
def representative? (v : View K E) : Option PartitionId :=
  match v.scope with
  | .owned => v.table.first?
  | .only ids => v.sampler ids

/-- The index of a partition for an extractor, if the partition is in scope and has one. -/
def indexAt? (v : View K E) (id : PartitionId) (x : Extractor) : Option (Index K E) :=
  if v.covers id then v.table.index? id x else none

/-- The indexes in scope for an extractor, each with its partition. -/
def indexes (v : View K E) (x : Extractor) : List (PartitionId × Index K E) :=
  v.partitions.filterMap fun id => (v.table.index? id x).map fun index => (id, index)

/-- The extractors that some partition in scope has an index for. -/
def extractors (v : View K E) : Std.ExtTreeSet Extractor :=
  Std.ExtTreeSet.ofList
    (v.partitions.flatMap fun id => ((v.table.partition? id).map (·.keys)).getD []) compare

end View

end PartitionedIndex
