import PartitionedIndex.View.Basic

/-! # Merged contents

The contents of all indexes in scope for one extractor, as one inverse mapping. Nothing is copied: a
value leads to the chain of the key sets that the partitions have for it. Merged contents cannot be
changed. -/

namespace PartitionedIndex

/-- The contents of the indexes in scope for an extractor. -/
structure Merged (K E : Type) [Ord K] [Ord E] where
  view : View K E
  extractor : Extractor

/-- A value of merged contents; its keys are looked up when asked for. -/
structure MergedEntry (K E : Type) [Ord K] [Ord E] where
  value : Option E
  contents : Merged K E

namespace Merged

variable {K E : Type} [Ord K] [Ord E]

/-- The contents of the partitions in scope that have an index. -/
def parts (m : Merged K E) : List (Contents K E) :=
  (m.view.indexes m.extractor).map fun p => p.2.contents

variable [Std.TransOrd K] [Std.TransOrd E]

/-- The distinct values of all parts. -/
def values (m : Merged K E) : Std.ExtTreeSet (Option E) :=
  Std.ExtTreeSet.ofList (m.parts.flatMap Contents.values) compare

def size (m : Merged K E) : Nat := m.values.size

def isEmpty (m : Merged K E) : Bool := m.parts.all Contents.isEmpty

/-- Whether some part has the value. -/
def contains (m : Merged K E) (value : Option E) : Bool := m.parts.any (·.contains value)

/-- The keys that have a value, partition by partition. -/
def get (m : Merged K E) (value : Option E) : Chain K where
  members := m.parts.filterMap fun c => (c.get? value).filter fun keys => !keys.isEmpty

def keySets (m : Merged K E) : List (Chain K) := m.values.toList.map m.get

def entries (m : Merged K E) : List (MergedEntry K E) := m.values.toList.map fun v => ⟨v, m⟩

/-- Whether some value has exactly the given keys. -/
def containsKeys (m : Merged K E) (keys : KeySet K) : Bool :=
  m.keySets.any fun chain => chain.holdsExactly keys

/-- The error of a change, as merged contents cannot be changed. -/
def refusal (operation : String) : Error := .readOnly "IndexContents" operation

def put (_ : Merged K E) (_ : Option E) (_ : KeySet K) : Except Error (Merged K E) :=
  .error (refusal "put")

def remove (_ : Merged K E) (_ : Option E) : Except Error (Merged K E) :=
  .error (refusal "remove")

def clear (_ : Merged K E) : Except Error (Merged K E) := .error (refusal "clear")

instance : Inspect (Merged K E) where
  inspect m := Inspect.openRecord "IndexContents" [("extractor", inspect m.extractor)]

end Merged

namespace MergedEntry

variable {K E : Type} [Ord K] [Ord E] [Std.TransOrd K] [Std.TransOrd E]

def keys (e : MergedEntry K E) : Chain K := e.contents.get e.value

def setKeys (_ : MergedEntry K E) (_ : KeySet K) : Except Error (MergedEntry K E) :=
  .error (.readOnly "ContentEntry" "set_value")

instance [Inspect E] : Inspect (MergedEntry K E) where
  inspect e := Inspect.record "ContentEntry" [("key", inspect e.value)]

end MergedEntry

end PartitionedIndex
