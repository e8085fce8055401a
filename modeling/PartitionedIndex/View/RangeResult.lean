import PartitionedIndex.Bisection
import PartitionedIndex.Chain
import PartitionedIndex.Comparator

/-! # Results of a range query

The entries that several partitions have in a range, brought together: values that compare equal
become one entry, whose value is the first of them and whose keys are the chain of all their key
sets. The entries are sorted first, and the sort is stable, so a chain keeps the order in which the
partitions were read. -/

namespace PartitionedIndex

/-- The entries of a range, by ascending value. -/
structure RangeResult (K E : Type) [Ord K] where
  comparator : SafeComparator E
  entries : Array (Option E × Chain K)

namespace RangeResult

variable {K E : Type} [Ord K] [Ord E]

/-- Joins an entry to the one gathered last if their values compare equal, else puts it behind. -/
def join (order : Option E → Option E → Ordering) (gathered : Array (Option E × Chain K))
    (entry : Option E × KeySet K) : Array (Option E × Chain K) :=
  match gathered.back? with
  | some (last, chain) =>
    if order last entry.1 = .eq then gathered.pop.push (last, chain.push entry.2)
    else gathered.push (entry.1, .single entry.2)
  | none => gathered.push (entry.1, .single entry.2)

/-- Joins neighbours whose values compare equal, from the first entry on. -/
def gather (order : Option E → Option E → Ordering) (entries : List (Option E × KeySet K)) :
    Array (Option E × Chain K) :=
  entries.foldl (join order) #[]

/-- The result made of entries in any order. -/
def merge (comparator : SafeComparator E) (entries : List (Option E × KeySet K)) :
    RangeResult K E where
  comparator
  entries :=
    gather comparator.order (entries.mergeSort fun a b => (comparator.order a.1 b.1).isLE)

def size (r : RangeResult K E) : Nat := r.entries.size

def isEmpty (r : RangeResult K E) : Bool := r.entries.isEmpty

def values (r : RangeResult K E) : List (Option E) := r.entries.toList.map (·.1)

def first? (r : RangeResult K E) : Option (Option E) := r.values.head?

def last? (r : RangeResult K E) : Option (Option E) := r.values.getLast?

/-- The entry whose value compares equal to a value. -/
def find? (r : RangeResult K E) (value : Option E) : Option (Fin r.entries.size) :=
  Bisection.find? (fun e => r.comparator.order e.1 value) r.entries

def get? (r : RangeResult K E) (value : Option E) : Option (Chain K) :=
  (r.find? value).map fun i => r.entries[i].2

def contains (r : RangeResult K E) (value : Option E) : Bool := (r.find? value).isSome

instance [Std.TransOrd K] [Inspect K] [Inspect E] : Inspect (RangeResult K E) where
  inspect r := Inspect.mapping (r.entries.toList.map fun e => (inspect e.1, inspect e.2))

end RangeResult

end PartitionedIndex
