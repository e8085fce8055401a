import PartitionedIndex.Error
import PartitionedIndex.Extractor
import PartitionedIndex.Footprint
import PartitionedIndex.Index.Contents
import PartitionedIndex.Lookup

/-! # Partition indexes

An index of one partition for one extractor: a forward map from each key to its attribute value, and
the inverse of it, the contents. Writes keep the two in step. A unique index refuses a value that
another key has already, and then nothing changes. An index becomes *partial* once the value of a key
could not be extracted. -/

namespace PartitionedIndex

/-- What an index is for, and whether a value may belong to one key only. -/
structure IndexSpec where
  extractor : Extractor
  unique : Bool := false
  deriving DecidableEq, Repr

/-- An index of one partition. -/
structure Index (K E : Type) [Ord K] [Ord E] where
  spec : IndexSpec
  forward : Std.ExtTreeMap K (Option E) := ∅
  contents : Contents K E
  isPartial : Bool := false

namespace Index

variable {K E : Type} [Ord K] [Ord E]

/-- An empty index with the given contents kind and comparator. -/
def ofContents (spec : IndexSpec) (contents : Contents K E) : Index K E := { spec, contents }

def unordered (spec : IndexSpec) : Index K E := ofContents spec (.unordered {})

/-- An empty ordered index; without a comparator its values are in natural order. -/
def ordered (spec : IndexSpec) (comparator : Option (Comparator E)) : Index K E :=
  ofContents spec (.ordered { declared := comparator })

/-- An empty index of a kind, in natural order if it is ordered. -/
def new (spec : IndexSpec) (kind : IndexKind) : Index K E := ofContents spec (.empty kind)

def isOrdered (i : Index K E) : Bool := i.contents.isOrdered

def comparator? (i : Index K E) : Option (Comparator E) := i.contents.comparator?

variable [Std.TransOrd K] [Std.TransOrd E]

/-- What the index knows about a key. -/
def get (i : Index K E) (key : K) : Lookup E := .ofOption i.forward[key]?

def keyCount (i : Index K E) : Nat := i.forward.size

def units [Stored K] [Stored E] (i : Index K E) : UInt64 :=
  Footprint.estimate K E (.ofNat i.keyCount) (.ofNat i.contents.size)

/-! ### Writes -/

/-- Whether giving a value to a key breaks uniqueness: another key has the value. -/
def conflicts (i : Index K E) (key : K) (value : Option E) : Bool :=
  i.spec.unique && (i.contents.get? value).any fun keys => !keys.isEmpty && !keys.contains key

/-- Takes a key out, if it is indexed. -/
def drop (i : Index K E) (key : K) : Index K E :=
  match i.forward[key]? with
  | none => i
  | some value =>
    { i with forward := i.forward.erase key, contents := i.contents.unlink value key }

/-- Gives a value to a key, whatever value it had. -/
def put (i : Index K E) (key : K) (value : Option E) : Index K E :=
  let rest := i.drop key
  { rest with
    forward := rest.forward.insert key value
    contents := rest.contents.link value key }

def insert (i : Index K E) (key : K) (value : Option E) : Except Error (Index K E) :=
  if i.conflicts key value then .error (.uniqueViolation i.spec.extractor.name)
  else .ok (i.put key value)

/-- Indexes a key anew whose value has changed. -/
def update (i : Index K E) (key : K) (value : Option E) : Except Error (Index K E) :=
  i.insert key value

/-- Takes a key out and tells whether it was indexed. -/
def delete (i : Index K E) (key : K) : Bool × Index K E :=
  (i.forward.contains key, i.drop key)

/-- Notes that the value of a key could not be extracted. -/
def markUnindexable (i : Index K E) (key : K) : Index K E :=
  { i.drop key with isPartial := true }

/-- Indexes a key, or marks it when that is refused. -/
def insertOrMark (i : Index K E) (entry : K × Option E) : Index K E :=
  match i.insert entry.1 entry.2 with
  | .ok done => done
  | .error _ => i.markUnindexable entry.1

/-- Forgets everything and indexes the given entries in turn; a refused one makes the index
partial. -/
def rebuild (i : Index K E) (entries : List (K × Option E)) : Index K E :=
  entries.foldl insertOrMark (ofContents i.spec i.contents.clear)

/-! ### What a write does to lookups -/

@[simp] theorem spec_drop (i : Index K E) (key : K) : (i.drop key).spec = i.spec := by
  unfold drop
  split <;> rfl

@[simp] theorem isPartial_drop (i : Index K E) (key : K) :
    (i.drop key).isPartial = i.isPartial := by
  unfold drop
  split <;> rfl

/-- A key taken out is not indexed; the others keep their values. -/
theorem get_drop (i : Index K E) (key other : K) :
    (i.drop key).get other = if compare key other = .eq then .absent else i.get other := by
  unfold drop
  split
  next h =>
    split
    next heq => rw [get, ← Std.ExtTreeMap.getElem?_congr heq, h, Lookup.ofOption]
    next => rfl
  next h =>
    simp only [get, Std.ExtTreeMap.getElem?_erase]
    split <;> rfl

@[simp] theorem spec_put (i : Index K E) (key : K) (value : Option E) :
    (i.put key value).spec = i.spec := i.spec_drop key

@[simp] theorem isPartial_put (i : Index K E) (key : K) (value : Option E) :
    (i.put key value).isPartial = i.isPartial := i.isPartial_drop key

/-- A key has the value it was given; the others keep theirs. -/
theorem get_put (i : Index K E) (key other : K) (value : Option E) :
    (i.put key value).get other =
      if compare key other = .eq then .indexed value else i.get other := by
  have hd := i.get_drop key other
  simp only [get, put, Std.ExtTreeMap.getElem?_insert] at hd ⊢
  split
  next => rfl
  next h => rw [hd, if_neg h]

end Index

end PartitionedIndex
