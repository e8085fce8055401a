/-! # Trials

How hard a property of layouts is tested: on how many random cases, and with how many steps to make a
failing one smaller. -/

namespace PartitionedIndex

/-- The effort put into testing a property. -/
structure Trials where
  cases : UInt32
  shrinkSteps : UInt32
  deriving DecidableEq, Repr

namespace Trials

def standard : Trials := ⟨256, 1000⟩

def quick : Trials := ⟨32, 100⟩

def thorough : Trials := ⟨1024, 10000⟩

end Trials

end PartitionedIndex
