import PartitionedIndex.Partition

/-! # Samplers

A sampler picks the partition of a set whose index stands for all of them. Which one it picks is not
settled by the set alone: a random sampler is one that has been given its draw. A sampler is *fair*
to a set when it picks a member of it, and nothing only from the empty set. -/

namespace PartitionedIndex

/-- A way to pick a partition from a set. -/
abbrev Sampler : Type := PartitionSet → Option PartitionId

namespace Sampler

/-- Picks the lowest partition. -/
def first : Sampler := fun s => s.min?

/-- Picks the highest partition. -/
def last : Sampler := fun s => s.max?

def nothing : Sampler := fun _ => none

/-- Picks one and the same partition, a member or not. -/
def always (id : PartitionId) : Sampler := fun _ => some id

/-- Picks the member that a drawn number falls on. -/
def drawn (draw : Nat) : Sampler := fun s => s.toList[draw % s.size]?

/-- Picks a member of every set that has one. -/
def Fair (pick : Sampler) : Prop :=
  ∀ s, match pick s with
    | some id => id ∈ s
    | none => s = ∅

end Sampler

end PartitionedIndex
