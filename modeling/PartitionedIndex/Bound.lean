/-! # Bounds of a range

One end of a range under an ordering: open to everything, or at a value that belongs to the range
or does not. -/

namespace PartitionedIndex

/-- One end of a range. -/
inductive Bound (α : Type) where
  /-- No restriction. -/
  | unbounded
  /-- At the value, which is in the range. -/
  | included (value : α)
  /-- At the value, which is not in the range. -/
  | excluded (value : α)
  deriving DecidableEq, Repr

namespace Bound

variable {α : Type}

/-- Whether a value is on the right side of the bound as the lower end of a range. -/
def admitsAbove (order : α → α → Ordering) : Bound α → α → Bool
  | unbounded, _ => true
  | included b, v => (order v b).isGE
  | excluded b, v => (order v b).isGT

/-- Whether a value is on the right side of the bound as the upper end of a range. -/
def admitsBelow (order : α → α → Ordering) : Bound α → α → Bool
  | unbounded, _ => true
  | included b, v => (order v b).isLE
  | excluded b, v => (order v b).isLT

/-- Whether a value lies between two bounds. -/
def between (order : α → α → Ordering) (lower upper : Bound α) (v : α) : Bool :=
  lower.admitsAbove order v && upper.admitsBelow order v

end Bound

end PartitionedIndex
