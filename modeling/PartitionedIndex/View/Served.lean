import PartitionedIndex.View.Composite

/-! # The indexes of a view

A view is a read-only map from extractors to indexes. Only the partition that stands for the scope is
asked whether there is one. Over a scope that names exactly one partition the index served is that
partition's own; over any other it is a composite, which takes its order from that index. -/

namespace PartitionedIndex

/-- The index that a view serves for an extractor. -/
inductive Served (K E : Type) [Ord K] [Ord E] where
  /-- The index of the only partition in scope. -/
  | own (index : Index K E)
  /-- The indexes of all partitions in scope as one. -/
  | composite (c : Composite K E)

namespace Served

variable {K E : Type} [Ord K] [Ord E]

def own? : Served K E → Option (Index K E)
  | own index => some index
  | composite _ => none

def composite? : Served K E → Option (Composite K E)
  | own _ => none
  | composite c => some c

def isOrdered : Served K E → Bool
  | own index => index.isOrdered
  | composite c => c.isOrdered

def comparator? : Served K E → Option (Comparator E)
  | own index => index.comparator?
  | composite c => c.comparator?

def isPartial : Served K E → Bool
  | own index => index.isPartial
  | composite c => c.isPartial

variable [Std.TransOrd K] [Std.TransOrd E]

def get : Served K E → K → Lookup E
  | own index, key => index.get key
  | composite c, key => c.get key

def units [Stored K] [Stored E] : Served K E → UInt64
  | own index => index.units
  | composite c => c.units

instance : Inspect (Served K E) where
  inspect
    | own _ => "IndexRef::Partition"
    | composite c => Inspect.call "IndexRef::Composite" [inspect c]

end Served

namespace View

variable {K E : Type} [Ord K] [Ord E]

/-- The index for an extractor. -/
def index? (v : View K E) (x : Extractor) : Option (Served K E) := do
  let id ← v.representative?
  let index ← v.table.index? id x
  return if v.scope.isSingle then .own index
    else .composite (.ofView v x index.isOrdered index.comparator?)

def contains (v : View K E) (x : Extractor) : Bool := (v.index? x).isSome

/-- The number of extractors that some partition in scope has an index for. -/
def size (v : View K E) : Nat := v.extractors.size

def isEmpty (v : View K E) : Bool := v.extractors.isEmpty

/-- The error of a change, as a view cannot be changed. -/
def refusal (operation : String) : Error := .readOnly "CompositeIndexMap" operation

def insert (_ : View K E) (_ : Extractor) (_ : Index K E) : Except Error (View K E) :=
  .error (refusal "insert")

def remove (_ : View K E) (_ : Extractor) : Except Error (View K E) := .error (refusal "remove")

def clear (_ : View K E) : Except Error (View K E) := .error (refusal "clear")

/-- One line about the view. -/
def text (v : View K E) : String :=
  "CompositeIndexMap(scope=" ++ v.scope.text ++
    ", partitions=" ++ toString v.partitionCount ++ ")"

instance : Inspect (View K E) where
  inspect v := Inspect.record "CompositeIndexMap"
    [("scope", inspect v.scope), ("table", inspect v.table)]

end View

end PartitionedIndex
