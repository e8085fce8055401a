import Std.Data.ExtTreeMap
import PartitionedIndex.Footprint
import PartitionedIndex.Text.Inspect

/-! # Labels

A label is a text that its holder only refers to: it reads and sorts as the text does, but takes no
more room than an address and a length. -/

namespace PartitionedIndex

/-- A text held by reference. -/
structure Label where
  text : String
  deriving DecidableEq, Repr

namespace Label

instance : Ord Label := ⟨compareOn Label.text⟩

instance : Std.TransOrd Label := inferInstanceAs (Std.TransCmp (compareOn Label.text))

instance : Std.LawfulEqOrd Label where
  eq_of_compare {a b} h := by
    cases a
    cases b
    exact congrArg _ (Std.LawfulEqOrd.eq_of_compare (α := String) h)

instance : Inspect Label := ⟨fun l => inspect l.text⟩

instance : Stored Label := ⟨16, 16⟩

end Label

end PartitionedIndex
