import PartitionedIndex.Proofs.Layout.Filling
import PartitionedIndex.Proofs.Registry.Reading
import PartitionedIndex.Proofs.View.AccessPaths
import PartitionedIndex.Proofs.View.Scopes

/-! # Views of layouts show what the layouts say

A layout says which values there are, which keys have a value and in how many partitions they are, by
going through the list of its entries. If no key is repeated, the composite that a view of the layout
serves over all partitions says the same (`Shows`), by asking the index of each partition.
Main statement: `fixtures_realise`. -/

namespace PartitionedIndex

variable {K E : Type} [Ord K] [Ord E] [Std.TransOrd K] [Std.TransOrd E]

omit [Std.TransOrd K] [Std.TransOrd E] in
theorem Table.exists_first {t : Table K E} {id : PartitionId} (h : t.contains id = true) :
    ∃ first, t.first? = some first ∧ t.contains first = true := by
  have hmem : ∀ p, p ∈ t.ids ↔ t.contains p = true :=
    fun _ => Std.ExtTreeMap.mem_keys.trans Std.ExtTreeMap.contains_iff_mem.symm
  rw [first?_eq_head?]
  cases hids : t.ids with
  | nil =>
      rw [← hmem, hids] at h
      cases h
  | cons first rest =>
      refine ⟨first, rfl, (hmem first).mp ?_⟩
      rw [hids]
      exact List.mem_cons_self

omit [Std.TransOrd E] in
theorem Registry.get_of_lookup {r : Registry K E} {key : K} {x : Extractor} {known : Lookup E}
    (h : r.lookup key x = .ok known) (isOrdered : Bool) (c : Option (Comparator E)) :
    (Composite.ofView (r.view .owned) x isOrdered c).get key = known := by
  obtain ⟨i, hi, rfl⟩ := exists_index?_of_lookup h
  refine Composite.get_of_some ?_
  exact ((r.view .owned).indexAt?_eq_some_iff _ x i).mpr ⟨Table.contains_of_index? hi, hi⟩

omit [Std.TransOrd K] [Std.TransOrd E] in
theorem SafeComparator.natural_order : (natural : SafeComparator E).order = compare :=
  funext fun v => funext fun w => order_natural v w

omit [Std.TransOrd K] in
theorem Composite.values_natural_ascending (view : View K E) (x : Extractor) (isOrdered : Bool) :
    Ascending compare id (ofView view x isOrdered none).contents.values := by
  cases isOrdered with
  | false => exact Std.ExtTreeSet.ordered_toList (t := Merged.values ⟨view, x⟩)
  | true =>
      have := (SafeComparator.lawful_natural (E := E)).transCmp
      have hasc := OrderedValues.ofSet_ascending (c := .natural) (Merged.values ⟨view, x⟩)
      rw [SafeComparator.natural_order] at hasc
      exact hasc

namespace Layout

/-! ### What a layout says -/

theorem mem_distinctValues_iff (l : Layout) (v : Option Int64) :
    v ∈ l.distinctValues ↔ ∃ key, (key, v) ∈ l.entries := by
  rw [distinctValues, Std.ExtTreeSet.mem_ofList, List.contains_iff_mem, List.mem_map]
  simp

theorem mem_entriesWith_iff (l : Layout) (v : Option Int64) (entry : UInt64 × Option Int64) :
    entry ∈ l.entriesWith v ↔ entry ∈ l.entries ∧ entry.2 = v := by
  rw [entriesWith, List.mem_filter, beq_iff_eq]

theorem mem_keysWith_iff (l : Layout) (v : Option Int64) (key : UInt64) :
    key ∈ l.keysWith v ↔ (key, v) ∈ l.entries := by
  rw [keysWith, KeySet.ofList, Std.ExtTreeSet.mem_ofList, List.contains_iff_mem, List.mem_map]
  simp [mem_entriesWith_iff]

theorem mem_partitionsWith_iff (l : Layout) (v : Option Int64) (id : PartitionId) :
    id ∈ l.partitionsWith v ↔ ∃ key, (key, v) ∈ l.entries ∧ l.owner key = id := by
  rw [partitionsWith, PartitionSet.mem_ofList_iff, List.mem_map]
  simp [mem_entriesWith_iff]

/-- A composite says what a layout says. -/
structure Shows (l : Layout) (kind : IndexKind) (c : Composite UInt64 Int64) : Prop where
  isOrdered_eq : c.contents.isOrdered = decide (kind = .ordered)
  values_eq : c.contents.base.values = l.distinctValues
  listed_eq : c.contents.values = l.distinctValues.toList
  keys_eq : ∀ v, (c.contents.get v).toKeySet = l.keysWith v
  size_eq : ∀ v, (c.contents.get v).size = (l.keysWith v).size
  memberCount_eq : ∀ v, (c.contents.get v).memberCount = (l.partitionsWith v).size
  get_eq_indexed_iff : ∀ key v, c.get key = .indexed v ↔ (key, v) ∈ l.entries
  get_eq_absent_iff : ∀ key, c.get key = .absent ↔ ∀ v, (key, v) ∉ l.entries
  range_eq : ∀ m, c.contents.ordered? = some m → ∀ lower upper, ∃ range,
    m.range lower upper = .ok range ∧
    range.values = l.distinctValues.toList.filter (Bound.between compare lower upper) ∧
    ∀ e ∈ range.entries,
      e.2.memberCount = (l.partitionsWith e.1).size ∧ e.2.toKeySet = l.keysWith e.1

/-! ### Registries that hold the entries of a layout -/

/-- Every index of a registry is in its place, and the entries of a layout are what is in them. -/
structure Holds (l : Layout) (r : Registry UInt64 Int64) : Prop where
  sound : r.Sound
  owner_eq : r.owner = l.owner
  value?_iff : ∀ key v,
    r.ledger.value? r.owner .owned extractor key = some v ↔ (key, v) ∈ l.entries

namespace Holds

variable {l : Layout} {r : Registry UInt64 Int64} (h : l.Holds r) (isOrdered : Bool)
include h

theorem listed_eq : (Composite.ofView (r.view .owned) extractor isOrdered none).contents.values =
    l.distinctValues.toList := by
  refine (Composite.values_natural_ascending _ _ _).eq_of_mem_iff
    (Std.ExtTreeSet.ordered_toList (t := l.distinctValues)) fun v => ?_
  rw [(h.sound.reads .owned extractor isOrdered).values_iff, Std.ExtTreeSet.mem_toList,
    mem_distinctValues_iff]
  exact exists_congr fun key => h.value?_iff key v

theorem values_eq : Merged.values ⟨r.view .owned, extractor⟩ = l.distinctValues := by
  refine Std.ExtTreeSet.ext_mem fun v => ?_
  rw [← Std.ExtTreeSet.mem_toList, ← Std.ExtTreeSet.mem_toList, ← h.listed_eq false]
  rfl

theorem keys_eq (v : Option Int64) :
    (Merged.get ⟨r.view .owned, extractor⟩ v).toKeySet = l.keysWith v := by
  refine Std.ExtTreeSet.ext_mem fun key => ?_
  refine ((h.sound.reads .owned extractor false).keys_iff v key).trans ?_
  rw [h.value?_iff, mem_keysWith_iff]

theorem memberCount_eq (v : Option Int64) :
    (Merged.get ⟨r.view .owned, extractor⟩ v).memberCount = (l.partitionsWith v).size := by
  have huniform := h.sound.uniform .owned extractor
  obtain ⟨ids, hasc, hids, hmembers⟩ := Merged.collects_get (m := ⟨_, _⟩) huniform v
  have hasc : Ascending compare id ids := hasc
  have hlisted : Ascending compare id (l.partitionsWith v).toList :=
    Std.ExtTreeSet.ordered_toList (t := l.partitionsWith v)
  have hsame : ids = (l.partitionsWith v).toList := by
    refine hasc.eq_of_mem_iff hlisted fun id => ?_
    rw [hids, Std.ExtTreeSet.mem_toList, mem_partitionsWith_iff]
    constructor
    · rintro ⟨i, hi, key, w, hw, heq⟩
      obtain rfl := Std.LawfulEqOrd.eq_of_compare heq
      have howner : r.owner key = id := h.sound.routed .owned extractor id i key w hi hw
      rw [h.owner_eq] at howner
      refine ⟨key, (h.value?_iff key w).mp ?_, howner⟩
      exact (h.sound.value?_eq_some_iff .owned extractor key w).mpr ⟨id, i, hi, hw⟩
    · rintro ⟨key, hmem, hkey⟩
      obtain ⟨p, i, hi, hv⟩ := (h.sound.value?_eq_some_iff .owned extractor key v).mp
        ((h.value?_iff key v).mpr hmem)
      have howner : r.owner key = p := h.sound.routed .owned extractor p i key v hi hv
      rw [h.owner_eq, hkey] at howner
      subst howner
      exact ⟨i, hi, key, v, hv, Std.ReflCmp.compare_self⟩
  have hlength := hmembers.length_eq
  rw [hsame, Std.ExtTreeSet.length_toList] at hlength
  exact hlength.symm

/-- If all indexes are ordered, a range has the distinct values within its bounds, each with the chain
that is found for it. -/
theorem range_eq (hordered : ∀ id i, r.table.index? id extractor = some i →
      i.contents.isOrdered = true) (lower upper : Bound (Option Int64)) :
    ∃ range, OrderedMerged.range ⟨⟨r.view .owned, extractor⟩, .natural⟩ lower upper = .ok range ∧
      range.values = l.distinctValues.toList.filter (Bound.between compare lower upper) ∧
      ∀ e ∈ range.entries,
        e.2.memberCount = (l.partitionsWith e.1).size ∧ e.2.toKeySet = l.keysWith e.1 := by
  have hnatural := SafeComparator.natural_order (E := Int64)
  have hm : OrderedMerged.Ordered ⟨⟨r.view .owned, extractor⟩, .natural⟩ :=
    { uniform := hnatural.symm ▸ h.sound.uniform .owned extractor
      isOrdered := fun id i hi =>
        hordered id i (((r.view .owned).indexAt?_eq_some_iff id extractor i).mp hi).2 }
  have hvalues : (OrderedMerged.whole ⟨⟨r.view .owned, extractor⟩, .natural⟩).values =
      l.distinctValues.toList := by
    refine Eq.trans ?_ (h.listed_eq true)
    refine List.forall₂_eq_eq_eq ▸ hm.agrees.values_eq.imp fun v w hvw => ?_
    rw [hnatural] at hvw
    exact Std.LawfulEqOrd.eq_of_compare hvw
  refine ⟨_, hm.range_eq_filter lower upper, ?_, fun e he => ?_⟩
  · rw [← hvalues, RangeResult.values, RangeResult.values, List.filter_map, Array.toList_filter,
      hnatural]
    rfl
  · have he := (Array.mem_filter.mp he).1
    rw [hm.chain_eq_get (Array.mem_toList_iff.mpr he)]
    exact ⟨h.memberCount_eq e.1, h.keys_eq e.1⟩

/-- A composite over all partitions that is as ordered as the indexes says what the layout says. -/
theorem shows {kind : IndexKind} (hkind : ∀ id i, r.table.index? id extractor = some i →
      i.contents.isOrdered = decide (kind = .ordered)) :
    l.Shows kind
      (Composite.ofView (r.view .owned) extractor (decide (kind = .ordered)) none) := by
  generalize hordered : decide (kind = .ordered) = isOrdered at hkind
  have hreads := h.sound.reads .owned extractor isOrdered
  have hget : ∀ v, (Composite.ofView (r.view .owned) extractor isOrdered none).contents.get v =
      Merged.get ⟨r.view .owned, extractor⟩ v := by
    intro v
    rw [MergedContents.get, Composite.base_contents]
    rfl
  refine ⟨?_, ?_, h.listed_eq isOrdered, ?_, ?_, ?_, ?_, ?_, ?_⟩
  · rw [hordered]
    cases isOrdered <;> rfl
  · rw [Composite.base_contents]
    exact h.values_eq
  · intro v
    rw [hget, h.keys_eq]
  · intro v
    rw [hreads.keys_size, hget, h.keys_eq]
  · intro v
    rw [hget, h.memberCount_eq]
  · intro key v
    rw [hreads.get_eq, ← h.value?_iff]
    cases r.ledger.value? r.owner .owned extractor key <;> simp [Lookup.ofOption]
  · intro key
    simp only [hreads.get_eq, ← h.value?_iff]
    cases r.ledger.value? r.owner .owned extractor key <;> simp [Lookup.ofOption]
  · intro m hm lower upper
    cases isOrdered with
    | false => cases hm
    | true =>
        cases hm
        exact h.range_eq hkind lower upper

end Holds

/-! ### Views of layouts -/

theorem sorts_as_new {i : Index UInt64 Int64} {kind : IndexKind}
    (h : i.shape = (newIndex kind).shape) :
    i.isOrdered = decide (kind = .ordered) ∧ i.comparator? = none := by
  have hordering : i.contents.ordering = (newIndex kind).contents.ordering := congrArg (·.2.1) h
  rw [Index.isOrdered, Index.comparator?, Contents.isOrdered_eq, Contents.comparator?_eq, hordering]
  cases kind <;> exact ⟨rfl, rfl⟩

namespace Inhabited

variable {l : Layout} (h : l.Inhabited) (kind : IndexKind)
include h

theorem holds_filled (hnodup : (l.entries.map Prod.fst).Nodup) : l.Holds (l.filled kind) := by
  refine ⟨l.sound_filled kind, (l.shape_filled kind).owner_eq.trans (h.owner_vacant kind), ?_⟩
  intro key v
  have hget := Registry.get_of_lookup (h.lookup_filled kind key) false none
  rw [Registry.Sound.get_eq] at hget
  rw [← knownAfter_eq_indexed_iff hnodup, ← hget]
  cases (l.filled kind).ledger.value? (l.filled kind).owner .owned extractor key <;>
    simp [Lookup.ofOption]

theorem index?_filled : ((l.filled kind).view .owned).index? extractor = some (.composite
    (Composite.ofView ((l.filled kind).view .owned) extractor (decide (kind = .ordered)) none)) := by
  have howned : (l.filled kind).table.contains (l.owner 0) = true := by
    rw [(l.shape_filled kind).contains_eq, contains_vacant, decide_eq_true_iff]
    exact h.owner_mem 0
  obtain ⟨first, hfirst, hcontains⟩ := Table.exists_first howned
  obtain ⟨i, hi, hshape⟩ := (l.exists_index?_filled kind first).mp hcontains
  obtain ⟨hordered, hcomparator⟩ := sorts_as_new hshape
  have hrepresentative :
      ((l.filled kind).view .owned).representativeIndex? extractor = some i :=
    (congrArg (Option.bind · _) hfirst).trans hi
  rw [View.index?_of_many hrepresentative rfl, hordered, hcomparator]

theorem view_eq_ok (scope : Scope) : l.view kind scope = .ok ((l.filled kind).view scope) := by
  have hshape := l.shape_filled kind
  have hvacant : l.vacant kind =
      { table := furnish kind l.ids ∅, owner := l.divider, sampler := .first } := by
    rw [vacant, foldl_createIndex]
  rw [view, (h.filled_eq_ok kind).2, Registry.view, hshape.owner_eq, hshape.sampler_eq,
    hshape.settings_eq, hvacant]
  rfl

end Inhabited

/-- **Layouts are realised by tables and registries.** However many partitions and entries there are,
a table and a registry of either kind are filled without failing, and their views are the same. If no
key is repeated, what a view serves over all partitions says what the layout says. -/
theorem fixtures_realise (count : UInt32) (entries : List (UInt64 × Option Int64))
    (kind : IndexKind) :
    ∃ r, (new count entries).registry kind = .ok r ∧ (new count entries).table kind = .ok r.table ∧
      (∀ scope, (new count entries).view kind scope = .ok (r.view scope)) ∧
      ((entries.map Prod.fst).Nodup → ∃ c,
        (r.view .owned).index? extractor = some (.composite c) ∧ (new count entries).Shows kind c) := by
  have h := inhabited_new count entries
  refine ⟨_, (h.filled_eq_ok kind).1, (h.filled_eq_ok kind).2, h.view_eq_ok kind, fun hnodup => ?_⟩
  refine ⟨_, h.index?_filled kind, (h.holds_filled kind hnodup).shows fun id i hi => ?_⟩
  obtain ⟨j, hj, hshape⟩ :=
    (exists_index?_filled _ kind id).mp (Table.contains_of_index? hi)
  obtain rfl := Option.some.inj (hi.symm.trans hj)
  exact (sorts_as_new hshape).1

/-- Three keys have one value, two of them in one partition, and one key is null. -/
def shared : Layout := .new 3 [(0, none), (1, some 3), (2, some 3), (4, some 3)]

theorem fixtures_realise_shared :
    (shared.entries.map Prod.fst).Nodup ∧ ∃ r c, shared.registry .ordered = .ok r ∧
      (r.view .owned).index? extractor = some (.composite c) ∧ shared.Shows .ordered c := by
  have hnodup : (shared.entries.map Prod.fst).Nodup := by decide
  obtain ⟨r, hr, _, _, hshows⟩ := fixtures_realise 3 shared.entries .ordered
  obtain ⟨c, hc, hcontents⟩ := hshows hnodup
  exact ⟨hnodup, r, c, hr, hc, hcontents⟩

end Layout

end PartitionedIndex
