import PartitionedIndex.Registry

/-! # Layouts

A layout spreads numbered keys over some partitions: a key belongs to the partition that its remainder
names. It can be read directly, or turned into a table or a registry whose views answer the same
questions. -/

namespace PartitionedIndex

/-- Keys with their attribute values, over the partitions from zero up to a count. -/
structure Layout where
  partitionCount : UInt32
  entries : List (UInt64 × Option Int64)
  deriving DecidableEq, Repr

namespace Layout

def extractor : Extractor := ⟨"value"⟩

/-- The layout over at least one partition. -/
def new (partitionCount : UInt32) (entries : List (UInt64 × Option Int64)) : Layout where
  partitionCount := max partitionCount 1
  entries

/-- The way keys are divided among the partitions. -/
def divider (l : Layout) : Owner UInt64 := .modulo l.partitionCount

/-- The owner of each key. -/
def owner (l : Layout) : Owner UInt64 := fun key =>
  ⟨(key % l.partitionCount.toUInt64).toUInt32⟩

def ids (l : Layout) : List PartitionId :=
  (List.range l.partitionCount.toNat).map fun n => ⟨.ofNat n⟩

def entriesWith (l : Layout) (value : Option Int64) : List (UInt64 × Option Int64) :=
  l.entries.filter fun e => e.2 == value

def keysWith (l : Layout) (value : Option Int64) : KeySet UInt64 :=
  .ofList ((l.entriesWith value).map (·.1))

def distinctValues (l : Layout) : Std.ExtTreeSet (Option Int64) :=
  Std.ExtTreeSet.ofList (l.entries.map (·.2)) compare

/-- The partitions that own a key with a value. -/
def partitionsWith (l : Layout) (value : Option Int64) : PartitionSet :=
  .ofList ((l.entriesWith value).map fun e => l.owner e.1)

/-- An empty index of the layout. -/
def newIndex (kind : IndexKind) : Index UInt64 Int64 := .new { extractor } kind

/-- Writes one entry into a table; fails where its index is missing or refuses it. -/
def place (l : Layout) (t : Table UInt64 Int64) (entry : UInt64 × Option Int64) :
    Except Error (Table UInt64 Int64) :=
  let id := l.owner entry.1
  match t.index? id extractor with
  | none => .error (.indexNotFound id.number extractor.name)
  | some index => (index.insert entry.1 entry.2).map (t.setIndex id extractor)

/-- The table of the layout, with an index of the given kind in every partition. -/
def table (l : Layout) (kind : IndexKind) : Except Error (Table UInt64 Int64) :=
  l.entries.foldlM l.place (l.ids.foldl (fun t id => t.putIndex id extractor (newIndex kind)) ∅)

def enter (r : Registry UInt64 Int64) (entry : UInt64 × Option Int64) :
    Except Error (Registry UInt64 Int64) :=
  match r.indexEntry entry.1 extractor entry.2 with
  | (.ok _, changed) => .ok changed
  | (.error e, _) => .error e

/-- The registry of the layout, filled entry by entry. -/
def registry (l : Layout) (kind : IndexKind) : Except Error (Registry UInt64 Int64) :=
  l.entries.foldlM enter
    (l.ids.foldl (fun r id => r.createIndex id { extractor } kind)
      { owner := l.divider, sampler := .first })

def view (l : Layout) (kind : IndexKind) (scope : Scope) : Except Error (View UInt64 Int64) :=
  (l.table kind).map fun table => { table, scope, owner := l.divider, sampler := .first }

end Layout

end PartitionedIndex
