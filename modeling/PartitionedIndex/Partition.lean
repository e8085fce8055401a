import Std.Data.ExtTreeSet
import PartitionedIndex.Text.Inspect

/-! # Partitions and scopes

Keys are divided among numbered partitions. A scope says which of them a view covers: all that
there are, or an explicit set, whether or not its members exist. -/

namespace PartitionedIndex

/-- The number of a partition. -/
structure PartitionId where
  number : UInt32
  deriving DecidableEq, Repr

namespace PartitionId

instance : Ord PartitionId := ⟨fun a b => compare a.number b.number⟩

theorem compare_def (a b : PartitionId) : compare a b = compare a.number b.number := rfl

instance : Std.TransOrd PartitionId where
  eq_swap {a b} := @Std.OrientedCmp.eq_swap UInt32 compare _ a.number b.number
  isLE_trans {a b c} := @Std.TransCmp.isLE_trans UInt32 compare _ a.number b.number c.number

instance : Std.LawfulEqOrd PartitionId where
  eq_of_compare {a b} h := by
    cases a
    cases b
    exact congrArg _ (Std.LawfulEqOrd.eq_of_compare (α := UInt32) h)

def text (p : PartitionId) : String := "part:" ++ inspect p.number

instance : Inspect PartitionId := ⟨fun p => Inspect.call "PartitionId" [inspect p.number]⟩

end PartitionId

/-- A set of partitions. -/
abbrev PartitionSet : Type := Std.ExtTreeSet PartitionId

namespace PartitionSet

def ofList (ids : List PartitionId) : PartitionSet := Std.ExtTreeSet.ofList ids compare

def single (id : PartitionId) : PartitionSet := ofList [id]

def text (s : PartitionSet) : String :=
  Inspect.collection (s.toList.map fun id => inspect id.number)

def inspection (s : PartitionSet) : String :=
  Inspect.record "PartitionSet" [("ids", Inspect.collection (s.toList.map inspect))]

end PartitionSet

/-- The partitions a view covers. -/
inductive Scope where
  /-- All partitions of the table. -/
  | owned
  /-- An explicit set of partitions. -/
  | only (ids : PartitionSet)

namespace Scope

instance : Inhabited Scope := ⟨owned⟩

def single (id : PartitionId) : Scope := only (.single id)

/-- The explicit set of the scope, if it has one. -/
def explicit? : Scope → Option PartitionSet
  | owned => none
  | only ids => some ids

/-- Whether the scope names exactly one partition. -/
def isSingle (s : Scope) : Bool :=
  s.explicit?.any fun ids => ids.size == 1

def text : Scope → String
  | owned => "owned"
  | only ids => ids.text

instance : Inspect Scope where
  inspect
    | owned => "Owned"
    | only ids => Inspect.call "Only" [ids.inspection]

end Scope

end PartitionedIndex
