import PartitionedIndex.Text.Inspect
import PartitionedIndex.Text.Label
import PartitionedIndex.Decimal.Rounding
import PartitionedIndex.Decimal.Shortest
import PartitionedIndex.Decimal.Reading
import PartitionedIndex.SipHash
import PartitionedIndex.Extractor
import PartitionedIndex.Lookup
import PartitionedIndex.Error
import PartitionedIndex.Bound
import PartitionedIndex.Bisection
import PartitionedIndex.Comparator
import PartitionedIndex.Comparator.Named
import PartitionedIndex.Chain
import PartitionedIndex.Footprint
import PartitionedIndex.Settings
import PartitionedIndex.Partition
import PartitionedIndex.Partition.Sampler
import PartitionedIndex.Partition.Owner
import PartitionedIndex.Index.Write
import PartitionedIndex.Table
import PartitionedIndex.View.Merged
import PartitionedIndex.View.Served
import PartitionedIndex.Registry
import PartitionedIndex.Layout.Scenario
import PartitionedIndex.Layout.Trials
import PartitionedIndex.Proofs.Index.Representation
import PartitionedIndex.Proofs.View.RangeResult
import PartitionedIndex.Proofs.View.OrderedValues
import PartitionedIndex.Proofs.View.OrderedMerged
import PartitionedIndex.Proofs.View.AccessPaths
import PartitionedIndex.Proofs.View.SingleIndex
import PartitionedIndex.Proofs.Registry.Reading
import PartitionedIndex.Proofs.Index.Reachable
import PartitionedIndex.Proofs.View.Lookup
import PartitionedIndex.Proofs.View.SinglePartition
import PartitionedIndex.Proofs.Registry.Ownership
import PartitionedIndex.Proofs.Index.Footprint
import PartitionedIndex.Proofs.Index.Insertion
import PartitionedIndex.Proofs.Registry.Writes
import PartitionedIndex.Proofs.Registry.Entries
import PartitionedIndex.Proofs.Index.Interchange
import PartitionedIndex.Proofs.View.Alike
import PartitionedIndex.Proofs.View.Independence
import PartitionedIndex.Proofs.View.Scopes
import PartitionedIndex.Proofs.Registry.Commutation
import PartitionedIndex.Proofs.Layout.Composite
import PartitionedIndex.Proofs.Index.MarkedSheet
import PartitionedIndex.Proofs.Index.Rebuilding
import PartitionedIndex.Proofs.Index.Ranges
import PartitionedIndex.Proofs.View.Ranges
import PartitionedIndex.Proofs.View.Uniqueness
import PartitionedIndex.Proofs.View.KeySets
import PartitionedIndex.Proofs.Chain.Union
import PartitionedIndex.Proofs.View.Extractors
import PartitionedIndex.Proofs.View.ListedValues
import PartitionedIndex.Proofs.Index.Reported
import PartitionedIndex.Proofs.View.Reported
import PartitionedIndex.Proofs.Decimal.Rounding
import PartitionedIndex.Proofs.Footprint.Reading
import PartitionedIndex.Proofs.Footprint.Printed
import PartitionedIndex.Proofs.View.Grouping
import PartitionedIndex.Proofs.Comparator.NullSafety
