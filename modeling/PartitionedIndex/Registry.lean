import PartitionedIndex.Index.Write
import PartitionedIndex.View.Served

/-! # Registries

A registry owns the table of all partitions. Entries are written to the partition that owns their
key, and only there; queries read a view of the table as it is. -/

namespace PartitionedIndex

/-- A table of partitions with the way keys are divided among them. -/
structure Registry (K E : Type) [Ord K] [Ord E] where
  table : Table K E := ∅
  owner : Owner K
  sampler : Sampler
  settings : Settings := {}

namespace Registry

variable {K E : Type} [Ord K] [Ord E]

def partitionIds (r : Registry K E) : List PartitionId := r.table.ids

def view (r : Registry K E) (scope : Scope) : View K E where
  table := r.table
  scope
  owner := r.owner
  sampler := r.sampler
  settings := r.settings

def addPartition (r : Registry K E) (id : PartitionId) : Registry K E :=
  { r with table := r.table.addPartition id }

/-- Removes a partition with its indexes and tells whether it was registered. -/
def removePartition (r : Registry K E) (id : PartitionId) : Bool × Registry K E :=
  (r.table.contains id, { r with table := r.table.removePartition id })

/-- Puts an index into a partition, in the place of the one for the extractor. -/
def registerIndex (r : Registry K E) (id : PartitionId) (x : Extractor) (index : Index K E) :
    Registry K E :=
  { r with table := r.table.putIndex id x index }

def createIndex (r : Registry K E) (id : PartitionId) (spec : IndexSpec) (kind : IndexKind) :
    Registry K E :=
  r.registerIndex id spec.extractor (.new spec kind)

/-- Removes the index of a partition for an extractor and tells whether there was one. -/
def dropIndex (r : Registry K E) (id : PartitionId) (x : Extractor) : Bool × Registry K E :=
  ((r.table.index? id x).isSome, { r with table := r.table.removeIndex id x })

/-- The index of a partition for an extractor, or what is missing. -/
def index (r : Registry K E) (id : PartitionId) (x : Extractor) : Except Error (Index K E) :=
  if r.table.contains id then
    match r.table.index? id x with
    | some index => .ok index
    | none => .error (.indexNotFound id.number x.name)
  else .error (.partitionNotFound id.number)

/-- Lets an action work on the index of a partition. What the action did to the index stays, also
when it ends in an error. -/
def withIndex {α : Type} (r : Registry K E) (id : PartitionId) (x : Extractor)
    (action : Index K E → Except Error α × Index K E) : Except Error α × Registry K E :=
  match r.index id x with
  | .error e => (.error e, r)
  | .ok index =>
    let (answer, changed) := action index
    (answer, { r with table := r.table.setIndex id x changed })

variable [Std.TransOrd K] [Std.TransOrd E]

/-- Carries out a write in the partition that owns a key. -/
def write (r : Registry K E) (key : K) (x : Extractor) (w : Write K E) :
    Except Error Outcome × Registry K E :=
  r.withIndex (r.owner key) x fun index => index.apply w

/-- Indexes a key in the partition that owns it. -/
def indexEntry (r : Registry K E) (key : K) (x : Extractor) (value : Option E) :
    Except Error Outcome × Registry K E :=
  r.write key x (.insert key value)

/-- Takes a key out of the index of the partition that owns it and tells whether it was there. -/
def removeEntry (r : Registry K E) (key : K) (x : Extractor) :
    Except Error Outcome × Registry K E :=
  r.write key x (.delete key)

/-- Everything about the registry but how it divides and samples. -/
instance : Inspect (Registry K E) where
  inspect r := Inspect.openRecord "IndexRegistry"
    [("table", inspect r.table), ("config", inspect r.settings)]

end Registry

end PartitionedIndex
