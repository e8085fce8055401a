import PartitionedIndex.View.Served
import PartitionedIndex.Proofs.View.Lookup

/-! # Composites that answer alike

A composite reads its view through the indexes found in scope for its extractor, the owners of keys and
the settings (`View.SeesAlike`). What it answers without an order depends on nothing else
(`Composite.AnswersAlike`), whatever table, scope and sampler the view has; what it answers in order
depends on how its comparator orders values, too (`Composite.OrdersAlike`). Two views serve an
extractor alike (`Served.Alike`) when both serve nothing, the same index, or composites that answer
alike in both respects. -/

namespace PartitionedIndex

variable {K E : Type} [Ord K] [Ord E]

/-! ### Ordering in the same way -/

theorem SafeComparator.order_congr {s t : SafeComparator E}
    (h : ∀ a b, s.compareValues a b = t.compareValues a b) : s.order = t.order := by
  funext v w
  cases v with
  | none => cases w <;> rfl
  | some a =>
      cases w with
      | none => rfl
      | some b => exact h a b

theorem Contents.order_eq (c : Contents K E) :
    c.order = (SafeComparator.ensure c.comparator?).order := by
  cases c with
  | unordered g =>
      funext v w
      exact (SafeComparator.order_natural v w).symm
  | ordered s => rfl

/-- Two indexes are of one kind and compare every pair of values in the same way. -/
structure Index.SortsLike (i j : Index K E) : Prop where
  isOrdered_eq : i.isOrdered = j.isOrdered
  compares_eq : ∀ a b, (SafeComparator.ensure i.comparator?).compareValues a b =
    (SafeComparator.ensure j.comparator?).compareValues a b

theorem Index.SortsLike.refl (i : Index K E) : i.SortsLike i := ⟨rfl, fun _ _ => rfl⟩

theorem Index.SortsLike.symm {i j : Index K E} (h : i.SortsLike j) : j.SortsLike i :=
  ⟨h.isOrdered_eq.symm, fun a b => (h.compares_eq a b).symm⟩

theorem Contents.isOrdered_eq (c : Contents K E) : c.isOrdered = c.ordering.isSome := by
  cases c <;> rfl

theorem Contents.comparator?_eq (c : Contents K E) : c.comparator? = c.ordering.join := by
  cases c <;> rfl

theorem Index.SortsLike.run [Std.TransOrd K] [Std.TransOrd E] {i j : Index K E} (h : i.SortsLike j)
    (writes writes' : List (Write K E)) : (i.run writes).SortsLike (j.run writes') := by
  have hkind : ∀ (i : Index K E) writes, (i.run writes).isOrdered = i.isOrdered := by
    intro i writes
    rw [isOrdered, Contents.isOrdered_eq, (i.run_frame writes).2, ← Contents.isOrdered_eq, isOrdered]
  have hcomparator : ∀ (i : Index K E) writes, (i.run writes).comparator? = i.comparator? := by
    intro i writes
    rw [comparator?, Contents.comparator?_eq, (i.run_frame writes).2, ← Contents.comparator?_eq,
      comparator?]
  constructor
  · rw [hkind, hkind, h.isOrdered_eq]
  · rw [hcomparator, hcomparator]
    exact h.compares_eq

/-! ### Views that see the same indexes -/

namespace View

/-- Two views find the same indexes for an extractor, and have the same owners and settings. -/
structure SeesAlike (v w : View K E) (x : Extractor) : Prop where
  indexAt?_eq : ∀ id, v.indexAt? id x = w.indexAt? id x
  owner_eq : v.owner = w.owner
  settings_eq : v.settings = w.settings

namespace SeesAlike

variable {v w : View K E} {x : Extractor} (h : v.SeesAlike w x)
include h

theorem indexes_eq : v.indexes x = w.indexes x := by
  refine (v.indexes_ascending x).eq_of_mem_iff (w.indexes_ascending x) ?_
  intro ⟨id, i⟩
  rw [mem_indexes_iff, mem_indexes_iff, h.indexAt?_eq]

theorem parts_eq : Merged.parts ⟨v, x⟩ = Merged.parts ⟨w, x⟩ := by
  simp [Merged.parts, h.indexes_eq]

theorem entries_range_eq {s t : SafeComparator E} (hst : s.order = t.order)
    (lower upper : Bound (Option E)) :
    (OrderedMerged.range ⟨⟨v, x⟩, s⟩ lower upper).map (·.entries) =
      (OrderedMerged.range ⟨⟨w, x⟩, t⟩ lower upper).map (·.entries) := by
  simp only [OrderedMerged.range, RangeResult.merge, h.indexes_eq, hst]
  cases (w.indexes x).mapM (OrderedMerged.slice x lower upper) <;> rfl

variable [Std.TransOrd E]

theorem values_eq : Merged.values ⟨v, x⟩ = Merged.values ⟨w, x⟩ := by
  simp [Merged.values, h.parts_eq]

theorem chain_eq (value : Option E) : Merged.get ⟨v, x⟩ value = Merged.get ⟨w, x⟩ value := by
  simp [Merged.get, h.parts_eq]

theorem keySets_eq : Merged.keySets ⟨v, x⟩ = Merged.keySets ⟨w, x⟩ := by
  simp [Merged.keySets, h.values_eq, funext h.chain_eq]

theorem ordered_values_eq {s t : SafeComparator E} (hst : s.order = t.order) :
    (OrderedMerged.values ⟨⟨v, x⟩, s⟩).values = (OrderedMerged.values ⟨⟨w, x⟩, t⟩).values := by
  simp [OrderedMerged.values, OrderedValues.ofSet, h.values_eq, hst]

end SeesAlike

/-! ### What a view serves -/

def withTable (v : View K E) (t : Table K E) : View K E := { v with table := t }

def overAll (v : View K E) : View K E := { v with scope := .owned }

def overSet (v : View K E) (s : PartitionSet) : View K E := { v with scope := .only s }

def withSampler (v : View K E) (pick : Sampler) : View K E := { v with sampler := pick }

@[simp] theorem withTable_table (v : View K E) (t : Table K E) : (v.withTable t).table = t := rfl
@[simp] theorem withTable_sampler (v : View K E) (t : Table K E) :
    (v.withTable t).sampler = v.sampler := rfl

/-- The index that stands for the scope. -/
def representativeIndex? (v : View K E) (x : Extractor) : Option (Index K E) :=
  v.representative?.bind fun id => v.table.index? id x

/-- What a view serves depends on the index that stands for the scope and on whether the scope names
one partition. -/
theorem index?_eq (v : View K E) (x : Extractor) :
    v.index? x = (v.representativeIndex? x).map fun i =>
      if v.scope.isSingle then .own i else .composite (.ofView v x i.isOrdered i.comparator?) := by
  unfold index? representativeIndex?
  cases v.representative? with
  | none => rfl
  | some id => cases h : v.table.index? id x <;> simp [h]

variable {v : View K E} {x : Extractor}

theorem index?_of_many {i : Index K E} (hi : v.representativeIndex? x = some i)
    (hs : v.scope.isSingle = false) :
    v.index? x = some (.composite (.ofView v x i.isOrdered i.comparator?)) := by
  rw [index?_eq, hi, hs]
  rfl

theorem exists_ofView_of_index? {c : Composite K E}
    (h : v.index? x = some (.composite c)) : ∃ o k, c = .ofView v x o k := by
  rw [index?_eq] at h
  obtain ⟨i, _, hi⟩ := Option.map_eq_some_iff.mp h
  split at hi
  · cases hi
  · cases hi
    exact ⟨_, _, rfl⟩

end View

variable [Std.TransOrd K] [Std.TransOrd E]

namespace MergedContents

/-- What a range query finds: an error, or values with their chains; nothing if the contents are not
ordered. -/
def rangeEntries? (c : MergedContents K E) (lower upper : Bound (Option E)) :
    Option (Except Error (Array (Option E × Chain K))) :=
  c.ordered?.map fun m => (m.range lower upper).map (·.entries)

end MergedContents

namespace Composite

/-- Two composites give the same answers to all queries that need no order. -/
structure AnswersAlike (c d : Composite K E) : Prop where
  get_eq : ∀ key, c.get key = d.get key
  isPartial_eq : c.isPartial = d.isPartial
  units_eq : ∀ [Stored K] [Stored E], c.units = d.units
  isEmpty_eq : c.contents.isEmpty = d.contents.isEmpty
  contains_eq : ∀ v, c.contents.contains v = d.contents.contains v
  chain_eq : ∀ v, c.contents.get v = d.contents.get v
  containsKeys_eq : ∀ keys, c.contents.containsKeys keys = d.contents.containsKeys keys
  keySet_eq : c.contents.base.values = d.contents.base.values

/-- Two composites are both ordered or both not, have as many values, and give the same answers to
range queries. The values they list are the same up to those that compare equal. -/
structure OrdersAlike (c d : Composite K E) : Prop where
  isOrdered_eq : c.isOrdered = d.isOrdered
  size_eq : c.contents.size = d.contents.size
  range_eq : ∀ lower upper,
    c.contents.rangeEntries? lower upper = d.contents.rangeEntries? lower upper
  values_forall₂ : ∀ s, c.comparator = some s →
    List.Forall₂ (fun v w => s.order v w = .eq) c.contents.values d.contents.values

variable {v w : View K E} {x : Extractor} (h : v.SeesAlike w x)
include h

/-- Composites over views that see the same indexes answer alike, of whatever kinds they are. -/
theorem answersAlike (o o' : Bool) (k k' : Option (Comparator E)) :
    (ofView v x o k).AnswersAlike (ofView w x o' k') := by
  have hbase : (ofView v x o k).contents.base = ⟨v, x⟩ := base_contents _
  have hbase' : (ofView w x o' k').contents.base = ⟨w, x⟩ := base_contents _
  refine ⟨?_, ?_, ?_, ?_, ?_, ?_, ?_, ?_⟩
  · intro key
    simp [get, ofView, h.indexAt?_eq, h.owner_eq]
  · simp [isPartial, parts, ofView, h.indexes_eq]
  · intro _ _
    simp [units, parts, ofView, h.indexes_eq, h.settings_eq]
  · simp [MergedContents.isEmpty, hbase, hbase', Merged.isEmpty, h.parts_eq]
  · simp [MergedContents.contains, hbase, hbase', Merged.contains, h.parts_eq]
  · simp [MergedContents.get, hbase, hbase', h.chain_eq]
  · simp [MergedContents.containsKeys, hbase, hbase', Merged.containsKeys, h.keySets_eq]
  · simp [hbase, hbase', h.values_eq]

omit [Std.TransOrd K] in
/-- Composites over views that see the same indexes order alike if they are of one kind and order
values in the same way. -/
theorem ordersAlike (o : Bool) {k k' : Option (Comparator E)}
    (htrans : Std.TransCmp (SafeComparator.ensure k).order)
    (hk : (SafeComparator.ensure k).order = (SafeComparator.ensure k').order) :
    (ofView v x o k).OrdersAlike (ofView w x o k') := by
  have hvalues : (ofView v x o k).contents.values = (ofView w x o k').contents.values := by
    cases o with
    | false => exact congrArg Std.ExtTreeSet.toList h.values_eq
    | true => exact congrArg Array.toList (h.ordered_values_eq hk)
  refine ⟨?_, ?_, ?_, ?_⟩
  · cases o <;> rfl
  · rw [MergedContents.size_eq_length, hvalues, MergedContents.size_eq_length]
  · intro lower upper
    cases o with
    | false => rfl
    | true => exact congrArg some (h.entries_range_eq hk lower upper)
  · intro s hs
    cases o with
    | false => cases hs
    | true =>
        obtain rfl : SafeComparator.ensure k = s := Option.some.inj hs
        rw [hvalues]
        exact List.forall₂_same.mpr fun _ _ => Std.ReflCmp.compare_self

end Composite

/-! ### Views that serve alike -/

/-- What two views serve for an extractor: nothing, the same index, or composites that answer and
order alike. -/
inductive Served.Alike : Option (Served K E) → Option (Served K E) → Prop
  | nothing : Alike none none
  | own (i : Index K E) : Alike (some (.own i)) (some (.own i))
  | composite {c d : Composite K E} (answers : c.AnswersAlike d) (orders : c.OrdersAlike d) :
      Alike (some (.composite c)) (some (.composite d))

namespace View

/-- Views that see the same indexes serve alike, if the indexes that stand for their scopes sort
alike, and are one index if the scopes are of one partition. -/
theorem SeesAlike.served_alike {v w : View K E} {x : Extractor} (h : v.SeesAlike w x)
    (hsingle : v.scope.isSingle = w.scope.isSingle)
    (htrans : ∀ i, v.representativeIndex? x = some i → Std.TransCmp i.contents.order)
    (hrel : Option.Rel (fun i j => i.SortsLike j ∧ (v.scope.isSingle = true → i = j))
      (v.representativeIndex? x) (w.representativeIndex? x)) :
    Served.Alike (v.index? x) (w.index? x) := by
  rw [index?_eq, index?_eq, ← hsingle]
  generalize v.representativeIndex? x = stands at htrans hrel
  generalize w.representativeIndex? x = stands' at hrel
  cases hrel with
  | none => exact .nothing
  | @some i j hij =>
      obtain ⟨hsorts, hone⟩ := hij
      cases hs : v.scope.isSingle with
      | true =>
          obtain rfl := hone hs
          exact .own i
      | false =>
          have htrans := htrans i rfl
          rw [Contents.order_eq] at htrans
          have horder := SafeComparator.order_congr hsorts.compares_eq
          rw [Option.map_some, Option.map_some, ← hsorts.isOrdered_eq]
          exact .composite (Composite.answersAlike h _ _ _ _)
            (Composite.ordersAlike h _ htrans horder)

theorem SeesAlike.served_alike_of_eq {v w : View K E} {x : Extractor} (h : v.SeesAlike w x)
    (hsingle : v.scope.isSingle = w.scope.isSingle)
    (htrans : ∀ i, v.representativeIndex? x = some i → Std.TransCmp i.contents.order)
    (heq : v.representativeIndex? x = w.representativeIndex? x) :
    Served.Alike (v.index? x) (w.index? x) := by
  refine h.served_alike hsingle htrans ?_
  rw [← heq]
  cases v.representativeIndex? x with
  | none => exact .none
  | some i => exact .some ⟨.refl i, fun _ => rfl⟩

end View

end PartitionedIndex
