import PartitionedIndex.Index.Basic
import PartitionedIndex.Partition

/-! # Partition tables

The indexes of every partition, by partition and extractor. A partition may have no index; an index
is found under the extractor it was put under, which need not be the one it was made for. -/

namespace PartitionedIndex

/-- The indexes of one partition, by extractor. -/
abbrev PartitionIndexes (K E : Type) [Ord K] [Ord E] : Type :=
  Std.ExtTreeMap Extractor (Index K E)

/-- The indexes of every partition. -/
structure Table (K E : Type) [Ord K] [Ord E] where
  partitions : Std.ExtTreeMap PartitionId (PartitionIndexes K E) := ∅

namespace Table

variable {K E : Type} [Ord K] [Ord E]

def empty : Table K E := {}

instance : EmptyCollection (Table K E) := ⟨empty⟩

def partition? (t : Table K E) (id : PartitionId) : Option (PartitionIndexes K E) :=
  t.partitions[id]?

def contains (t : Table K E) (id : PartitionId) : Bool := t.partitions.contains id

/-- The index of a partition for an extractor. -/
def index? (t : Table K E) (id : PartitionId) (x : Extractor) : Option (Index K E) :=
  (t.partition? id).bind fun indexes => indexes[x]?

def ids (t : Table K E) : List PartitionId := t.partitions.keys

def first? (t : Table K E) : Option PartitionId := t.partitions.minKey?

def size (t : Table K E) : Nat := t.partitions.size

def isEmpty (t : Table K E) : Bool := t.partitions.isEmpty

/-- Adds a partition without indexes; a partition that exists is kept. -/
def addPartition (t : Table K E) (id : PartitionId) : Table K E where
  partitions := t.partitions.alter id fun indexes => some (indexes.getD ∅)

def removePartition (t : Table K E) (id : PartitionId) : Table K E where
  partitions := t.partitions.erase id

/-- Puts an index into a partition, in the place of the one for the extractor; the partition is
added if need be. -/
def putIndex (t : Table K E) (id : PartitionId) (x : Extractor) (index : Index K E) :
    Table K E where
  partitions := t.partitions.alter id fun indexes => some ((indexes.getD ∅).insert x index)

/-- Removes the index of a partition for an extractor; the partition stays. -/
def removeIndex (t : Table K E) (id : PartitionId) (x : Extractor) : Table K E where
  partitions := t.partitions.modify id fun indexes => indexes.erase x

/-- Replaces the index of a partition for an extractor, if there is one. -/
def setIndex (t : Table K E) (id : PartitionId) (x : Extractor) (index : Index K E) :
    Table K E where
  partitions := t.partitions.modify id fun indexes => indexes.modify x fun _ => index

instance : Inspect (Table K E) where
  inspect t := Inspect.mapping
    (t.partitions.toList.map fun p => (inspect p.1.number, inspect p.2.keys))

/-! ### What a change does to the indexes found -/

theorem index?_empty (p : PartitionId) (x : Extractor) :
    (∅ : Table K E).index? p x = none := by
  have h : (∅ : Table K E).partition? p = none := Std.ExtTreeMap.getElem?_empty
  rw [index?, h, Option.bind_none]

theorem contains_empty (p : PartitionId) : (∅ : Table K E).contains p = false :=
  Std.ExtTreeMap.contains_empty

theorem index?_addPartition (t : Table K E) (id p : PartitionId) (x : Extractor) :
    (t.addPartition id).index? p x = t.index? p x := by
  simp only [index?, partition?, addPartition, Std.ExtTreeMap.getElem?_alter,
    Std.LawfulEqOrd.compare_eq_iff_eq]
  split
  next h =>
    subst h
    cases t.partitions[id]? <;> simp
  next => rfl

theorem index?_removePartition (t : Table K E) (id p : PartitionId) (x : Extractor) :
    (t.removePartition id).index? p x = if id = p then none else t.index? p x := by
  simp only [index?, partition?, removePartition, Std.ExtTreeMap.getElem?_erase,
    Std.LawfulEqOrd.compare_eq_iff_eq]
  split <;> rfl

theorem index?_putIndex (t : Table K E) (id p : PartitionId) (x y : Extractor)
    (index : Index K E) :
    (t.putIndex id x index).index? p y =
      if id = p ∧ x = y then some index else t.index? p y := by
  simp only [index?, partition?, putIndex, Std.ExtTreeMap.getElem?_alter,
    Std.LawfulEqOrd.compare_eq_iff_eq]
  by_cases h : id = p
  · subst h
    cases t.partitions[id]? <;> simp [Std.ExtTreeMap.getElem?_insert]
  · simp [h]

theorem index?_removeIndex (t : Table K E) (id p : PartitionId) (x y : Extractor) :
    (t.removeIndex id x).index? p y = if id = p ∧ x = y then none else t.index? p y := by
  simp only [index?, partition?, removeIndex, Std.ExtTreeMap.getElem?_modify,
    Std.LawfulEqOrd.compare_eq_iff_eq]
  by_cases h : id = p
  · subst h
    cases t.partitions[id]? <;> simp [Std.ExtTreeMap.getElem?_erase]
  · simp [h]

theorem index?_setIndex (t : Table K E) (id p : PartitionId) (x y : Extractor)
    (index : Index K E) :
    (t.setIndex id x index).index? p y =
      if id = p ∧ x = y then (t.index? p y).map fun _ => index else t.index? p y := by
  simp only [index?, partition?, setIndex, Std.ExtTreeMap.getElem?_modify,
    Std.LawfulEqOrd.compare_eq_iff_eq]
  by_cases h : id = p
  · subst h
    by_cases hx : x = y
    · subst hx
      cases t.partitions[id]? <;> simp
    · cases t.partitions[id]? <;> simp [Std.ExtTreeMap.getElem?_modify, hx]
  · simp [h]

theorem contains_addPartition (t : Table K E) (id p : PartitionId) :
    (t.addPartition id).contains p = (decide (id = p) || t.contains p) := by
  simp only [contains, addPartition, Std.ExtTreeMap.contains_alter,
    Std.LawfulEqOrd.compare_eq_iff_eq]
  by_cases h : id = p <;> simp [h]

theorem contains_removePartition (t : Table K E) (id p : PartitionId) :
    (t.removePartition id).contains p = (!decide (id = p) && t.contains p) := by
  simp only [contains, removePartition, Std.ExtTreeMap.contains_erase]
  by_cases h : id = p <;> simp [h]

theorem contains_putIndex (t : Table K E) (id p : PartitionId) (x : Extractor)
    (index : Index K E) :
    (t.putIndex id x index).contains p = (decide (id = p) || t.contains p) := by
  simp only [contains, putIndex, Std.ExtTreeMap.contains_alter,
    Std.LawfulEqOrd.compare_eq_iff_eq]
  by_cases h : id = p <;> simp [h]

@[simp] theorem contains_removeIndex (t : Table K E) (id p : PartitionId) (x : Extractor) :
    (t.removeIndex id x).contains p = t.contains p :=
  Std.ExtTreeMap.contains_modify

@[simp] theorem contains_setIndex (t : Table K E) (id p : PartitionId) (x : Extractor)
    (index : Index K E) : (t.setIndex id x index).contains p = t.contains p :=
  Std.ExtTreeMap.contains_modify

/-! ### Tables with the same indexes -/

theorem contains_of_index? {t : Table K E} {id : PartitionId} {x : Extractor} {i : Index K E}
    (h : t.index? id x = some i) : t.contains id = true := by
  obtain ⟨indexes, hindexes, _⟩ := Option.bind_eq_some_iff.mp h
  have hsome : t.partitions[id]?.isSome = true := Option.isSome_of_eq_some hindexes
  rw [contains, Std.ExtTreeMap.contains_eq_isSome_getElem?, hsome]

/-- A table is settled by its partitions and by the indexes found in them. -/
theorem ext_index? {t u : Table K E} (hc : ∀ p, t.contains p = u.contains p)
    (hi : ∀ p x, t.index? p x = u.index? p x) : t = u := by
  obtain ⟨ps⟩ := t
  obtain ⟨qs⟩ := u
  refine congrArg Table.mk (Std.ExtTreeMap.ext_getElem? fun p => ?_)
  have hp : ps[p]?.isSome = qs[p]?.isSome := by
    have := hc p
    rwa [contains, contains, Std.ExtTreeMap.contains_eq_isSome_getElem?,
      Std.ExtTreeMap.contains_eq_isSome_getElem?] at this
  cases ha : ps[p]? with
  | none =>
      rw [ha] at hp
      exact (Option.isNone_iff_eq_none.mp (Option.isSome_eq_false_iff.mp hp.symm)).symm
  | some a =>
      cases hb : qs[p]? with
      | none =>
          rw [ha, hb] at hp
          cases hp
      | some b =>
          refine congrArg some (Std.ExtTreeMap.ext_getElem? fun x => ?_)
          have hx := hi p x
          rwa [index?, index?, partition?, partition?, ha, hb] at hx

theorem setIndex_self {t : Table K E} {id : PartitionId} {x : Extractor} {i : Index K E}
    (h : t.index? id x = some i) : t.setIndex id x i = t := by
  refine ext_index? (fun p => t.contains_setIndex id p x i) fun p y => ?_
  rw [index?_setIndex]
  split
  next heq => rw [← heq.1, ← heq.2, h, Option.map_some]
  next => rfl

end Table

end PartitionedIndex
