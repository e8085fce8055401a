import PartitionedIndex.Bisection
import PartitionedIndex.Bound
import PartitionedIndex.Chain
import PartitionedIndex.Comparator

/-! # Ordered contents

The inverse of an ordered index: attribute values in the order of a comparator, each with the set of
the keys that have it. Values that compare equal share one entry, which keeps the value it was made
with; an entry whose last key leaves is dropped. Every access is a bisection, which is right as long
as the entries increase strictly. -/

namespace PartitionedIndex

/-- Entries of an ordered index, and the comparator it was given, if any. -/
structure Sorted (K E : Type) [Ord K] where
  declared : Option (Comparator E) := none
  entries : Array (Option E × KeySet K) := #[]

namespace Sorted

variable {K E : Type} [Ord K] [Ord E]

/-- The null-safe order of the entries. -/
def order (s : Sorted K E) : Option E → Option E → Ordering :=
  (SafeComparator.ensure s.declared).order

/-- The number of entries below a value. -/
def rank (s : Sorted K E) (value : Option E) : Nat :=
  Bisection.partitionPoint (fun e => (s.order e.1 value).isLT) s.entries

theorem rank_le (s : Sorted K E) (value : Option E) : s.rank value ≤ s.entries.size :=
  Bisection.partitionPoint_le _ _

/-- The entry whose value compares equal to a value. -/
def find? (s : Sorted K E) (value : Option E) : Option (Fin s.entries.size) :=
  Bisection.find? (fun e => s.order e.1 value) s.entries

/-- The keys whose value compares equal to a value. -/
def get? (s : Sorted K E) (value : Option E) : Option (KeySet K) :=
  (s.find? value).map fun i => s.entries[i].2

def size (s : Sorted K E) : Nat := s.entries.size

/-- The entries between two bounds. -/
def between (s : Sorted K E) (lower upper : Bound (Option E)) : List (Option E × KeySet K) :=
  let start := Bisection.partitionPoint (fun e => !lower.admitsAbove s.order e.1) s.entries
  let stop := Bisection.partitionPoint (fun e => upper.admitsBelow s.order e.1) s.entries
  (s.entries.extract start stop).toList

def values (s : Sorted K E) : List (Option E) := s.entries.toList.map (·.1)

def least? (s : Sorted K E) : Option (Option E) := s.values.head?

def greatest? (s : Sorted K E) : Option (Option E) := s.values.getLast?

variable [Std.TransOrd K]

/-- Adds a key to the entry of a value; a new entry goes where the order wants it. -/
def link (s : Sorted K E) (value : Option E) (key : K) : Sorted K E :=
  match s.find? value with
  | some i => { s with entries := s.entries.set i (s.entries[i].1, s.entries[i].2.insert key) }
  | none =>
    { s with
      entries := s.entries.insertIdx (s.rank value) (value, KeySet.ofList [key]) (s.rank_le value) }

/-- Takes a key from the entry of a value, and the entry with the last of them. -/
def unlink (s : Sorted K E) (value : Option E) (key : K) : Sorted K E :=
  match s.find? value with
  | some i =>
    let rest := s.entries[i].2.erase key
    if rest.isEmpty then { s with entries := s.entries.eraseIdx i }
    else { s with entries := s.entries.set i (s.entries[i].1, rest) }
  | none => s

/-- The keys whose value lies between two bounds, by ascending value. -/
def keysBetween (s : Sorted K E) (lower upper : Bound (Option E)) : List K :=
  (s.between lower upper).flatMap fun e => e.2.toList

/-- The keys whose value is above a value. -/
def keysAbove (s : Sorted K E) (value : Option E) : List K :=
  s.keysBetween (.excluded value) .unbounded

/-- The keys whose value is a value or above it. -/
def keysFrom (s : Sorted K E) (value : Option E) : List K :=
  s.keysBetween (.included value) .unbounded

/-- The keys whose value is below a value. -/
def keysBelow (s : Sorted K E) (value : Option E) : List K :=
  s.keysBetween .unbounded (.excluded value)

/-- The keys whose value is one of two values or between them. -/
def keysWithin (s : Sorted K E) (least greatest : Option E) : List K :=
  s.keysBetween (.included least) (.included greatest)

end Sorted

end PartitionedIndex
