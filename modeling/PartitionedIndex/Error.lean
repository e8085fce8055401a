import PartitionedIndex.Text.Inspect

/-! # Errors

Why an operation was refused. Each cause has one wording. -/

namespace PartitionedIndex

/-- Why an operation was refused. -/
inductive Error where
  /-- A derived structure was asked to change. -/
  | readOnly (owner operation : String)
  /-- The bounds of a range are in the wrong order, or are refused for the given reason. -/
  | invalidRange (reason : String)
  /-- A range was asked of a partition that keeps its index unordered. -/
  | unorderedPartition (partition : UInt32) (extractor : String)
  /-- The partition is not registered. -/
  | partitionNotFound (partition : UInt32)
  /-- The partition has no index for the extractor. -/
  | indexNotFound (partition : UInt32) (extractor : String)
  /-- Another key of a unique index has the value already. -/
  | uniqueViolation (extractor : String)
  deriving DecidableEq, Repr

namespace Error

/-- Whether a derived structure was asked to change. -/
def isReadOnly : Error → Bool
  | readOnly .. => true
  | _ => false

def message : Error → String
  | readOnly owner operation => owner ++ " is read-only: " ++ operation ++ " is not supported"
  | invalidRange reason => "invalid range: " ++ reason
  | unorderedPartition partition extractor =>
    "partition " ++ inspect partition ++ " holds an unordered index for " ++ extractor
  | partitionNotFound partition => "partition not found: " ++ inspect partition
  | indexNotFound partition extractor =>
    "no index for " ++ extractor ++ " in partition " ++ inspect partition
  | uniqueViolation extractor =>
    "unique index violation on " ++ extractor ++ ": value already indexed"

/-- The name of the cause. -/
def cause : Error → String
  | readOnly .. => "ReadOnly"
  | invalidRange .. => "InvalidRange"
  | unorderedPartition .. => "UnorderedPartition"
  | partitionNotFound .. => "PartitionNotFound"
  | indexNotFound .. => "IndexNotFound"
  | uniqueViolation .. => "UniqueViolation"

def fields : Error → List (String × String)
  | readOnly owner operation => [("structure", inspect owner), ("operation", inspect operation)]
  | invalidRange reason => [("message", inspect reason)]
  | unorderedPartition partition extractor | indexNotFound partition extractor =>
    [("partition", inspect partition), ("extractor", inspect extractor)]
  | partitionNotFound partition => [("partition", inspect partition)]
  | uniqueViolation extractor => [("extractor", inspect extractor)]

instance : Inspect Error := ⟨fun e => Inspect.record e.cause e.fields⟩

end Error

end PartitionedIndex
