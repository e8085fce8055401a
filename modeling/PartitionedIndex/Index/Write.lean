import PartitionedIndex.Index.Basic

/-! # Writes as values

The operations that change an index, each with its outcome, so that a run of them is a list. -/

namespace PartitionedIndex

/-- An operation that changes an index. -/
inductive Write (K E : Type) where
  | insert (key : K) (value : Option E)
  | update (key : K) (value : Option E)
  | delete (key : K)
  | markUnindexable (key : K)
  deriving DecidableEq, Repr

/-- What a write answers: nothing, or whether the key was indexed. -/
inductive Outcome where
  | done
  | found (wasIndexed : Bool)
  deriving DecidableEq, Repr

namespace Index

variable {K E : Type} [Ord K] [Ord E] [Std.TransOrd K] [Std.TransOrd E]

/-- Carries out an insertion; a refused one changes nothing. -/
def settle (before : Index K E) : Except Error (Index K E) → Except Error Outcome × Index K E
  | .ok after => (.ok .done, after)
  | .error e => (.error e, before)

def apply (i : Index K E) : Write K E → Except Error Outcome × Index K E
  | .insert key value => i.settle (i.insert key value)
  | .update key value => i.settle (i.update key value)
  | .delete key => ((i.delete key).map (fun found => .ok (.found found)) id)
  | .markUnindexable key => (.ok .done, i.markUnindexable key)

/-- Carries out writes in turn. -/
def run (i : Index K E) (writes : List (Write K E)) : Index K E :=
  writes.foldl (fun i w => (i.apply w).2) i

end Index

end PartitionedIndex
