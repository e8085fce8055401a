import PartitionedIndex.Text.Inspect

/-! # Lookups

What an index knows about a key: an attribute value, which may be null, or nothing at all. -/

namespace PartitionedIndex

/-- The answer to looking up a key in an index. -/
inductive Lookup (E : Type) where
  /-- The key is indexed under the value, `none` being the null value. -/
  | indexed (value : Option E)
  /-- The key is not indexed. -/
  | absent
  deriving DecidableEq, Repr

namespace Lookup

variable {E : Type}

/-- The lookup that finds what an association gives. -/
def ofOption : Option (Option E) → Lookup E
  | some value => indexed value
  | none => absent

def value? : Lookup E → Option (Option E)
  | indexed value => some value
  | absent => none

def isAbsent (l : Lookup E) : Bool :=
  l.value?.isNone

@[simp] theorem value?_ofOption (o : Option (Option E)) : (ofOption o).value? = o := by
  cases o <;> rfl

instance [Inspect E] : Inspect (Lookup E) where
  inspect
    | indexed value => Inspect.call "Value" [inspect value]
    | absent => "NoValue"

end Lookup

end PartitionedIndex
