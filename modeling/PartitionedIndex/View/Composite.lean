import PartitionedIndex.View.OrderedMerged

/-! # Composite indexes

The indexes in scope for one extractor, read as a single one. A key is looked up in the partition that
owns it; contents and footprint are those of all partitions. Whether a composite is ordered, and by
which comparator, is taken from one partition that stands for all. A composite cannot be changed. -/

namespace PartitionedIndex

/-- The indexes in scope for an extractor as one; it is ordered if it has a comparator. -/
structure Composite (K E : Type) [Ord K] [Ord E] where
  view : View K E
  extractor : Extractor
  comparator : Option (SafeComparator E)

namespace Composite

variable {K E : Type} [Ord K] [Ord E]

/-- The composite with the given kind and comparator; the comparator counts only if it is ordered, and
is made safe. -/
def ofView (view : View K E) (extractor : Extractor) (isOrdered : Bool)
    (comparator : Option (Comparator E)) : Composite K E where
  view
  extractor
  comparator := if isOrdered then some (.ensure comparator) else none

def parts (c : Composite K E) : List (Index K E) :=
  (c.view.indexes c.extractor).map (·.2)

def isOrdered (c : Composite K E) : Bool := c.comparator.isSome

def comparator? (c : Composite K E) : Option (Comparator E) := c.comparator.map .safe

/-- Whether some part could not index a key. -/
def isPartial (c : Composite K E) : Bool := c.parts.any (·.isPartial)

def contents (c : Composite K E) : MergedContents K E :=
  match c.comparator with
  | none => .unordered ⟨c.view, c.extractor⟩
  | some comparator => .ordered ⟨⟨c.view, c.extractor⟩, comparator⟩

variable [Std.TransOrd K] [Std.TransOrd E]

/-- What the owner of a key knows about it; nothing if the owner is out of scope. -/
def get (c : Composite K E) (key : K) : Lookup E :=
  match c.view.indexAt? (c.view.owner key) c.extractor with
  | some index => index.get key
  | none => .absent

/-- The footprint of the parts, scaled by the overhead of the view. -/
def units [Stored K] [Stored E] (c : Composite K E) : UInt64 :=
  c.view.settings.scaleUnits (c.parts.foldr (fun part n => part.units + n) 0)

/-- The error of a change, as a composite cannot be changed. -/
def refusal (operation : String) : Error := .readOnly "CompositeIndex" operation

def insert (_ : Composite K E) (_ : K) (_ : Option E) : Except Error (Composite K E) :=
  .error (refusal "insert")

def update (_ : Composite K E) (_ : K) (_ : Option E) : Except Error (Composite K E) :=
  .error (refusal "update")

def delete (_ : Composite K E) (_ : K) : Except Error (Bool × Composite K E) :=
  .error (refusal "delete")

/-- A listed value; null has a word of its own. -/
def valueText [Inspect E] : Option E → String
  | none => "null"
  | some value => inspect value

/-- The values of the contents in a description: their number, and as many of them as the settings
allow. -/
def contentText [Inspect E] (c : Composite K E) : String :=
  let values := c.contents.values
  let limit := c.view.settings.verboseLimit.toNat
  let listed := (values.take limit).map valueText
  let items := if limit < values.length then listed ++ ["..."] else listed
  ", Content[" ++ toString values.length ++ "]=" ++ Inspect.sequence items

/-- One line about the index; a verbose one lists the values, too. -/
def describe [Stored K] [Stored E] [Inspect E] (c : Composite K E) (verbose : Bool) : String :=
  "CompositeIndex: Extractor=" ++ c.extractor.name ++
    ", Ordered=" ++ inspect c.isOrdered ++
    ", Footprint=" ++ (MemorySize.ofUnits c.units).text ++
    (if verbose then c.contentText else "")

instance : Inspect (Composite K E) where
  inspect c := Inspect.openRecord "CompositeIndex"
    [("extractor", inspect c.extractor), ("comparator", inspect c.comparator)]

end Composite

end PartitionedIndex
