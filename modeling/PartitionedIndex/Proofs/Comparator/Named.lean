import PartitionedIndex.Comparator.Named
import PartitionedIndex.Proofs.Comparator

/-! # Comparators of numbers

Numbers by their tens: an order that compares what a function makes of the values is a total preorder,
also when the function makes the same of different values. Numbers backwards: a total preorder turned
around is one, and still separates values. Numbers forwards: the natural order, given as a function. -/

namespace PartitionedIndex

instance : Std.TransCmp Order.bucket :=
  inferInstanceAs (Std.TransCmp (compareOn fun a : Int64 => a / 10))

def Comparator.tens : Comparator Int64 := .custom ⟨0, Order.bucket⟩

theorem Comparator.tens_lawful : (SafeComparator.ensure (some tens)).Lawful :=
  inferInstanceAs (Std.TransCmp Order.bucket)

instance {E : Type} [Ord E] [Std.TransOrd E] : Std.TransCmp (Order.reverse : E → E → Ordering) :=
  inferInstanceAs (Std.TransCmp fun a b : E => compare b a)

def Comparator.backwards : Comparator Int64 := .custom ⟨1, Order.reverse⟩

theorem Comparator.backwards_lawful : (SafeComparator.ensure (some backwards)).Lawful :=
  inferInstanceAs (Std.TransCmp (Order.reverse : Int64 → Int64 → Ordering))

theorem Comparator.backwards_separates : (SafeComparator.ensure (some backwards)).Separates :=
  fun _ _ h => (Std.LawfulEqOrd.eq_of_compare h).symm

def Comparator.forwards : Comparator Int64 := .custom ⟨2, Order.same⟩

theorem Comparator.forwards_lawful : (SafeComparator.ensure (some forwards)).Lawful :=
  inferInstanceAs (Std.TransCmp (compare : Int64 → Int64 → Ordering))

end PartitionedIndex
