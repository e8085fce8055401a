import Std.Data.ExtTreeMap
import PartitionedIndex.Chain

/-! # Unordered contents

The inverse of an unordered index: each attribute value with the set of the keys that have it. Values
are held apart by equality. A value whose last key leaves is dropped with it. -/

namespace PartitionedIndex

/-- Attribute values, each with the keys that have it. -/
structure Grouped (K E : Type) [Ord K] [Ord E] where
  groups : Std.ExtTreeMap (Option E) (KeySet K) := ∅

namespace Grouped

variable {K E : Type} [Ord K] [Ord E] [Std.TransOrd K] [Std.TransOrd E]

/-- The keys that have a value. -/
def get? (g : Grouped K E) (value : Option E) : Option (KeySet K) := g.groups[value]?

def size (g : Grouped K E) : Nat := g.groups.size

/-- The values with their keys, in the natural order of the values. -/
def entries (g : Grouped K E) : List (Option E × KeySet K) := g.groups.toList

/-- Adds a key to the keys of a value. -/
def link (g : Grouped K E) (value : Option E) (key : K) : Grouped K E where
  groups := g.groups.alter value fun keys => some ((keys.getD ∅).insert key)

/-- Takes a key from the keys of a value, and the value with the last of them. -/
def unlink (g : Grouped K E) (value : Option E) (key : K) : Grouped K E where
  groups := g.groups.alter value fun keys =>
    (keys.map (·.erase key)).filter fun rest => !rest.isEmpty

/-- Linking a key changes the keys of its value only. -/
theorem get?_link (g : Grouped K E) (value other : Option E) (key : K) :
    (g.link value key).get? other =
      if compare value other = .eq then some (((g.get? value).getD ∅).insert key)
      else g.get? other :=
  Std.ExtTreeMap.getElem?_alter

/-- Unlinking a key changes the keys of its value only, and leaves no value without keys. -/
theorem get?_unlink (g : Grouped K E) (value other : Option E) (key : K) :
    (g.unlink value key).get? other =
      if compare value other = .eq then
        ((g.get? value).map (·.erase key)).filter fun rest => !rest.isEmpty
      else g.get? other :=
  Std.ExtTreeMap.getElem?_alter

end Grouped

end PartitionedIndex
