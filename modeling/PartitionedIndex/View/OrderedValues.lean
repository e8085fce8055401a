import Std.Data.ExtTreeSet
import PartitionedIndex.Bisection
import PartitionedIndex.Comparator

/-! # Values in the order of a comparator

The distinct attribute values of a view under a comparator that may hold different values for
equal. Of values that compare equal only the naturally least is listed: the values come in
natural order, and sorting them is stable. -/

namespace PartitionedIndex

/-- What is left when the item kept so far and the next one are put to a choice, from the first on. -/
def reduce? {α : Type} (choose : α → α → α) : List α → Option α
  | [] => none
  | a :: rest => some (rest.foldl choose a)

/-- The first of the items that none is less than. -/
def leastBy {α : Type} (order : α → α → Ordering) : List α → Option α :=
  reduce? fun kept a => if order kept a = .gt then a else kept

/-- The last of the items that none is greater than. -/
def greatestBy {α : Type} (order : α → α → Ordering) : List α → Option α :=
  reduce? fun kept a => if order kept a = .gt then kept else a

/-- Drops the items that compare equal to the last one kept; `kept` is in front of them. -/
def dropEqual {α : Type} (order : α → α → Ordering) (kept : α) : List α → List α
  | [] => []
  | a :: rest =>
    if order a kept = .eq then dropEqual order kept rest else a :: dropEqual order a rest

/-- Keeps the first of each run of items that compare equal to it. -/
def dropRepeats {α : Type} (order : α → α → Ordering) : List α → List α
  | [] => []
  | a :: rest => a :: dropEqual order a rest

/-- Attribute values, ascending under a comparator. -/
structure OrderedValues (E : Type) where
  comparator : SafeComparator E
  values : Array (Option E)

namespace OrderedValues

variable {E : Type} [Ord E]

/-- The values of a set in the order of a comparator. -/
def ofSet [Std.TransOrd E] (comparator : SafeComparator E) (set : Std.ExtTreeSet (Option E)) :
    OrderedValues E where
  comparator
  values :=
    (dropRepeats comparator.order
      (set.toList.mergeSort fun a b => (comparator.order a b).isLE)).toArray

def size (o : OrderedValues E) : Nat := o.values.size

def isEmpty (o : OrderedValues E) : Bool := o.values.isEmpty

def first? (o : OrderedValues E) : Option (Option E) := o.values.toList.head?

def last? (o : OrderedValues E) : Option (Option E) := o.values.toList.getLast?

/-- Whether a listed value compares equal to a value. -/
def contains (o : OrderedValues E) (value : Option E) : Bool :=
  (Bisection.find? (fun v => o.comparator.order v value) o.values).isSome

instance [Inspect E] : Inspect (OrderedValues E) := ⟨fun o => inspect o.values.toList⟩

end OrderedValues

end PartitionedIndex
