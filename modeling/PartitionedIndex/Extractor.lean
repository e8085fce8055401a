import Std.Data.ExtTreeMap
import PartitionedIndex.Text.Inspect

/-! # Extractors

An extractor takes an attribute out of a value; an index only needs to know which one it is, and
that is settled by its name. Extractors are ordered by name. -/

namespace PartitionedIndex

/-- An attribute extractor, known by its name. -/
structure Extractor where
  name : String
  deriving DecidableEq, Repr

namespace Extractor

instance : Ord Extractor := ⟨fun a b => compare a.name b.name⟩

instance : Std.TransOrd Extractor where
  eq_swap {a b} := @Std.OrientedCmp.eq_swap String compare _ a.name b.name
  isLE_trans {a b c} := @Std.TransCmp.isLE_trans String compare _ a.name b.name c.name

instance : Std.LawfulEqOrd Extractor where
  eq_of_compare {a b} h := by
    cases a
    cases b
    exact congrArg _ (Std.LawfulEqOrd.eq_of_compare (α := String) h)

instance : Inspect Extractor := ⟨fun x => "Extractor(" ++ x.name ++ ")"⟩

end Extractor

end PartitionedIndex
