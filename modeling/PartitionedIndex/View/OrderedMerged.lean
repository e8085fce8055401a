import PartitionedIndex.View.Merged
import PartitionedIndex.View.OrderedValues
import PartitionedIndex.View.RangeResult

/-! # Ordered merged contents

Merged contents under a comparator. Lookups of single values are those of the merged contents; a
range query asks every partition in scope for its entries in the range and merges them. It fails when
one of them keeps its index unordered. -/

namespace PartitionedIndex

/-- Merged contents and the comparator that orders them. -/
structure OrderedMerged (K E : Type) [Ord K] [Ord E] where
  base : Merged K E
  comparator : SafeComparator E

namespace OrderedMerged

variable {K E : Type} [Ord K] [Ord E]

/-- The entries that one partition has in a range. -/
def slice (x : Extractor) (lower upper : Bound (Option E)) (part : PartitionId × Index K E) :
    Except Error (List (Option E × KeySet K)) :=
  match part.2.contents.ordered? with
  | some s => .ok ((s.between lower upper).filter fun e => !e.2.isEmpty)
  | none => .error (.unorderedPartition part.1.number x.name)

/-- The entries between two bounds in all partitions in scope. -/
def range (m : OrderedMerged K E) (lower upper : Bound (Option E)) :
    Except Error (RangeResult K E) := do
  let slices ← (m.base.view.indexes m.base.extractor).mapM (slice m.base.extractor lower upper)
  return .merge m.comparator slices.flatten

/-- The entries from one value up to but not at another, which must not be the lesser one. -/
def rangeBetween [Inspect E] (m : OrderedMerged K E) (start stop : Option E) :
    Except Error (RangeResult K E) :=
  if m.comparator.order start stop = .gt then
    .error (.invalidRange
      ("lower bound " ++ inspect start ++ " is greater than upper bound " ++ inspect stop))
  else m.range (.included start) (.excluded stop)

def rangeBelow (m : OrderedMerged K E) (stop : Option E) : Except Error (RangeResult K E) :=
  m.range .unbounded (.excluded stop)

def rangeFrom (m : OrderedMerged K E) (start : Option E) : Except Error (RangeResult K E) :=
  m.range (.included start) .unbounded

variable [Std.TransOrd K] [Std.TransOrd E]

def values (m : OrderedMerged K E) : OrderedValues E := .ofSet m.comparator m.base.values

def first? (m : OrderedMerged K E) : Option (Option E) :=
  leastBy m.comparator.order m.base.values.toList

def last? (m : OrderedMerged K E) : Option (Option E) :=
  greatestBy m.comparator.order m.base.values.toList

def size (m : OrderedMerged K E) : Nat := m.values.size

/-- The keys of each value, by ascending value. -/
def keySets (m : OrderedMerged K E) : List (Chain K) := m.values.values.toList.map m.base.get

def entries (m : OrderedMerged K E) : List (MergedEntry K E) :=
  m.values.values.toList.map fun v => ⟨v, m.base⟩

/-- The error of a change, as merged contents cannot be changed. -/
def refusal (operation : String) : Error := .readOnly "SortedIndexContents" operation

def put (_ : OrderedMerged K E) (_ : Option E) (_ : KeySet K) :
    Except Error (OrderedMerged K E) := .error (refusal "put")

def remove (_ : OrderedMerged K E) (_ : Option E) : Except Error (OrderedMerged K E) :=
  .error (refusal "remove")

def clear (_ : OrderedMerged K E) : Except Error (OrderedMerged K E) :=
  .error (refusal "clear")

instance : Inspect (OrderedMerged K E) where
  inspect m := Inspect.record "SortedIndexContents"
    [("base", inspect m.base), ("comparator", inspect m.comparator)]

end OrderedMerged

/-- The contents of a composite index. -/
inductive MergedContents (K E : Type) [Ord K] [Ord E] where
  | unordered (m : Merged K E)
  | ordered (m : OrderedMerged K E)

namespace MergedContents

variable {K E : Type} [Ord K] [Ord E]

def ordered? : MergedContents K E → Option (OrderedMerged K E)
  | unordered _ => none
  | ordered m => some m

def isOrdered (c : MergedContents K E) : Bool := c.ordered?.isSome

/-- The contents without their order. -/
def base : MergedContents K E → Merged K E
  | unordered m => m
  | ordered m => m.base

variable [Std.TransOrd K] [Std.TransOrd E]

def size : MergedContents K E → Nat
  | unordered m => m.size
  | ordered m => m.size

def isEmpty (c : MergedContents K E) : Bool := c.base.isEmpty

def contains (c : MergedContents K E) (value : Option E) : Bool := c.base.contains value

def get (c : MergedContents K E) (value : Option E) : Chain K := c.base.get value

def containsKeys (c : MergedContents K E) (keys : KeySet K) : Bool := c.base.containsKeys keys

def values : MergedContents K E → List (Option E)
  | unordered m => m.values.toList
  | ordered m => m.values.values.toList

def put : MergedContents K E → Option E → KeySet K → Except Error (MergedContents K E)
  | unordered m, value, keys => (m.put value keys).map unordered
  | ordered m, value, keys => (m.put value keys).map ordered

def remove : MergedContents K E → Option E → Except Error (MergedContents K E)
  | unordered m, value => (m.remove value).map unordered
  | ordered m, value => (m.remove value).map ordered

def clear : MergedContents K E → Except Error (MergedContents K E)
  | unordered m => m.clear.map unordered
  | ordered m => m.clear.map ordered

instance : Inspect (MergedContents K E) where
  inspect
    | unordered m => Inspect.call "Unordered" [inspect m]
    | ordered m => Inspect.call "Sorted" [inspect m]

end MergedContents

end PartitionedIndex
