import PartitionedIndex.Index.Grouped
import PartitionedIndex.Index.Sorted

/-! # Contents of an index

The inverse of an index, from attribute values to the keys that have them. There are two kinds:
unordered contents hold values apart by equality, ordered contents by a comparator, and only the
latter answer range queries. -/

namespace PartitionedIndex

/-- The kinds of index. -/
inductive IndexKind where
  | unordered
  | ordered
  deriving DecidableEq, Repr

/-- From attribute values to the keys that have them. -/
inductive Contents (K E : Type) [Ord K] [Ord E] where
  | unordered (g : Grouped K E)
  | ordered (s : Sorted K E)

namespace Contents

variable {K E : Type} [Ord K] [Ord E]

/-- Contents of a kind without values; ordered ones in natural order. -/
def empty : IndexKind → Contents K E
  | .unordered => unordered {}
  | .ordered => ordered {}

def ordered? : Contents K E → Option (Sorted K E)
  | unordered _ => none
  | ordered s => some s

def isOrdered (c : Contents K E) : Bool := c.ordered?.isSome

def comparator? (c : Contents K E) : Option (Comparator E) := c.ordered?.bind (·.declared)

variable [Std.TransOrd K] [Std.TransOrd E]

/-- The keys that have a value. -/
def get? : Contents K E → Option E → Option (KeySet K)
  | unordered g, value => g.get? value
  | ordered s, value => s.get? value

def contains (c : Contents K E) (value : Option E) : Bool := (c.get? value).isSome

def size : Contents K E → Nat
  | unordered g => g.size
  | ordered s => s.size

def isEmpty (c : Contents K E) : Bool := c.size == 0

/-- The values with their keys: by the comparator in ordered contents, else in natural order. -/
def entries : Contents K E → List (Option E × KeySet K)
  | unordered g => g.entries
  | ordered s => s.entries.toList

def values (c : Contents K E) : List (Option E) := c.entries.map (·.1)

/-- Adds a key to the keys of a value. -/
def link : Contents K E → Option E → K → Contents K E
  | unordered g, value, key => unordered (g.link value key)
  | ordered s, value, key => ordered (s.link value key)

/-- Takes a key from the keys of a value. -/
def unlink : Contents K E → Option E → K → Contents K E
  | unordered g, value, key => unordered (g.unlink value key)
  | ordered s, value, key => ordered (s.unlink value key)

/-- The same kind and comparator, without values. -/
def clear : Contents K E → Contents K E
  | unordered _ => unordered {}
  | ordered s => ordered { s with entries := #[] }

end Contents

end PartitionedIndex
