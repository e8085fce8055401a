import PartitionedIndex.Text.Inspect

/-! # Comparators

How an ordered index compares its attribute values. A comparison function knows values only; a
*safe* comparator extends it, or the natural order of the values, to nullable ones by putting null
before every value. A comparator of an index is either a bare function or a safe one already, and
`SafeComparator.ensure` makes it safe without wrapping twice.

Functions cannot be told apart by what they do, so each carries a serial number: two comparators
share a function when the serial numbers agree. -/

namespace PartitionedIndex

/-- A comparison of attribute values and the serial number it is known by. -/
structure Comparison (E : Type) where
  serial : Nat
  order : E → E → Ordering

/-- A comparator of nullable attribute values, null being before every value. -/
inductive SafeComparator (E : Type) where
  /-- Values are in their natural order. -/
  | natural
  /-- Values are in the order of a function. -/
  | wrapped (f : Comparison E)

/-- The comparator an ordered index reports. -/
inductive Comparator (E : Type) where
  /-- A function that knows no null. -/
  | custom (f : Comparison E)
  /-- A comparator that is safe already. -/
  | safe (s : SafeComparator E)

namespace SafeComparator

variable {E : Type}

/-- The safe comparator for an index: natural order when it has none, the comparator itself when it
is safe already, the wrapped function otherwise. -/
def ensure : Option (Comparator E) → SafeComparator E
  | none => natural
  | some (.safe s) => s
  | some (.custom f) => wrapped f

def isNatural : SafeComparator E → Bool
  | natural => true
  | wrapped _ => false

/-- Whether two comparators compare values by the same function. -/
def sharesFunction : SafeComparator E → SafeComparator E → Bool
  | natural, natural => true
  | wrapped f, wrapped g => f.serial == g.serial
  | _, _ => false

def compareValues [Ord E] : SafeComparator E → E → E → Ordering
  | natural, a, b => compare a b
  | wrapped f, a, b => f.order a b

/-- Compares two nullable values. -/
def order [Ord E] (s : SafeComparator E) : Option E → Option E → Ordering
  | none, none => .eq
  | none, some _ => .lt
  | some _, none => .gt
  | some a, some b => s.compareValues a b

@[simp] theorem sharesFunction_self (s : SafeComparator E) : s.sharesFunction s = true := by
  cases s with
  | natural => rfl
  | wrapped f => exact beq_self_eq_true f.serial

/-- The natural order of nullable values is the one they have as optional values. -/
theorem order_natural [Ord E] (a b : Option E) : (natural : SafeComparator E).order a b = compare a b := by
  cases a <;> cases b <;> rfl

@[simp] theorem ensure_safe (s : SafeComparator E) : ensure (some (.safe s)) = s := rfl

/-- Values in ascending order; those that compare equal stay in the order in which they come. -/
def sort [Ord E] (s : SafeComparator E) (values : List (Option E)) : List (Option E) :=
  values.mergeSort fun v w => (s.order v w).isLE

instance : Inspect (SafeComparator E) where
  inspect s := if s.isNatural then "SafeComparator(natural)" else "SafeComparator(custom)"

end SafeComparator

namespace Comparator

instance {E : Type} : Inspect (Comparator E) where
  inspect
    | custom _ => "Comparator::Custom"
    | safe s => Inspect.call "Comparator::Safe" [inspect s]

end Comparator

end PartitionedIndex
