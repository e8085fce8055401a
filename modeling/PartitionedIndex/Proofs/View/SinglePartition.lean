import PartitionedIndex.View.Served
import PartitionedIndex.Proofs.View.Lookup
import PartitionedIndex.Proofs.View.OrderedMerged

/-! # A scope of one partition

Over a scope that names one partition a view serves the index of that partition itself. A composite
over the same scope would have answered alike (`Composite.AnswersAs`), as collecting, sorting, dropping
repeats and merging change nothing when there is one part, whose values ascend already. A key that the
index does not have is not found by the composite either, whoever owns it. Main statement:
`single_serves_alike`. -/

namespace PartitionedIndex

variable {K E : Type} [Ord K] [Ord E]

/-! ### The one index in scope -/

theorem PartitionSet.mem_single_iff (p q : PartitionId) : q ∈ single p ↔ q = p := by
  rw [single, ofList, Std.ExtTreeSet.mem_ofList, List.contains_iff_mem, List.mem_singleton]

theorem PartitionSet.size_single (p : PartitionId) : (single p).size = 1 := by
  simp [single, ofList, Std.ExtTreeSet.size_insert]

theorem Sampler.first_single (p : PartitionId) : first (.single p) = some p := by
  simp [first, PartitionSet.single, PartitionSet.ofList, Std.ExtTreeSet.min?_insert]

namespace View

section single

variable {v : View K E} {p : PartitionId} (h : v.scope = .single p)
include h

theorem covers_single_iff (id : PartitionId) : v.covers id = true ↔ id = p := by
  rw [covers, h]
  exact PartitionSet.mem_single_iff p id

theorem partitions_single : v.partitions = [p] := by
  refine v.partitions_ascending.eq_of_mem_iff (List.pairwise_singleton _ _) fun id => ?_
  rw [mem_partitions_iff, covers_single_iff h, List.mem_singleton]

theorem isSingle_single : v.scope.isSingle = true := by
  simp [h, Scope.single, Scope.isSingle, Scope.explicit?, PartitionSet.size_single]

variable {x : Extractor} {i : Index K E} (hi : v.table.index? p x = some i)
include hi

theorem indexes_single : v.indexes x = [(p, i)] := by
  rw [indexes, partitions_single h]
  simp [hi]

theorem indexAt?_single_iff (id : PartitionId) (j : Index K E) :
    v.indexAt? id x = some j ↔ id = p ∧ j = i := by
  rw [← mem_indexes_iff, indexes_single h hi, List.mem_singleton, Prod.mk.injEq]

end single

end View

/-! ### Contents of one part -/

namespace Merged

variable {m : Merged K E} {p : PartitionId} {i : Index K E}
variable (hone : m.view.indexes m.extractor = [(p, i)])
include hone

theorem parts_of_one : m.parts = [i.contents] := by
  rw [parts, hone]
  rfl

theorem isEmpty_of_one : m.isEmpty = i.contents.isEmpty := by
  simp [isEmpty, parts_of_one hone]

variable [Std.TransOrd E]

theorem contains_of_one (v : Option E) : m.contains v = i.contents.contains v := by
  simp [contains, parts_of_one hone]

theorem members_of_one (h : i.contents.WellFormed) (v : Option E) :
    (m.get v).members = (i.contents.get? v).toList := by
  rw [get, parts_of_one hone, List.filterMap_cons, h.filter_get?]
  cases i.contents.get? v <;> rfl

theorem pooled_of_one : m.pooled = i.contents.entries := by
  simp [pooled, parts_of_one hone]

theorem mem_values_of_one [Std.LawfulEqOrd E] (v : Option E) :
    v ∈ m.values.toList ↔ v ∈ i.contents.values := by
  rw [mem_values_iff, pooled_of_one hone, Contents.values, List.mem_map]

end Merged

namespace Composite

/-! ### A composite that takes its order from an index -/

variable {i : Index K E} (view : View K E) (x : Extractor)

theorem contents_of_unordered {g : Grouped K E} (hg : i.contents = .unordered g) :
    (ofView view x i.isOrdered i.comparator?).contents = .unordered ⟨view, x⟩ := by
  rw [Index.isOrdered, Index.comparator?, hg]
  rfl

theorem contents_of_ordered {s : Sorted K E} (hs : i.contents = .ordered s) :
    (ofView view x i.isOrdered i.comparator?).contents =
      .ordered ⟨⟨view, x⟩, .ensure s.declared⟩ := by
  rw [Index.isOrdered, Index.comparator?, hs]
  rfl

theorem isOrdered_of_index : (ofView view x i.isOrdered i.comparator?).isOrdered = i.isOrdered := by
  unfold ofView isOrdered
  cases i.isOrdered <;> rfl

end Composite

variable [Std.TransOrd K] [Std.TransOrd E]

namespace Composite

/-! ### A composite over one partition -/

/-- A composite answers what an index answers. Its chains have one member at most, and its ranges are
those of the index, each key set in a chain of its own. -/
structure AnswersAs (c : Composite K E) (i : Index K E) : Prop where
  get_eq : ∀ key, c.get key = i.get key
  isOrdered_eq : c.isOrdered = i.isOrdered
  isPartial_eq : c.isPartial = i.isPartial
  isEmpty_eq : c.contents.isEmpty = i.contents.isEmpty
  size_eq : c.contents.size = i.contents.size
  contains_eq : ∀ v, c.contents.contains v = i.contents.contains v
  members_eq : ∀ v, (c.contents.get v).members = (i.contents.get? v).toList
  values_eq : c.contents.values = i.contents.values
  order_eq : i.isOrdered = true → ∃ s, c.comparator? = some (.safe s) ∧
    ∀ v w, s.order v w = (SafeComparator.ensure i.comparator?).order v w
  range_eq : ∀ s, i.contents = .ordered s → ∃ m, c.contents = .ordered m ∧
    ∀ lower upper, ∃ r, m.range lower upper = .ok r ∧
      r.entries.toList = (s.between lower upper).map fun e => (e.1, .single e.2)

section single

variable {view : View K E} {p : PartitionId} (h : view.scope = .single p)
variable {x : Extractor} {i : Index K E} (hi : view.table.index? p x = some i)
include h hi

omit [Std.TransOrd E] in
/-- A key is found as in the index, if the partition owns all keys of the index. -/
theorem get_single (isOrdered : Bool) (c : Option (Comparator E))
    (howner : ∀ key v, i.get key = .indexed v → view.owner key = p) (key : K) :
    (ofView view x isOrdered c).get key = i.get key := by
  by_cases hk : view.owner key = p
  · exact get_of_some ((View.indexAt?_single_iff h hi _ _).mpr ⟨hk, rfl⟩)
  · have hnone : view.indexAt? (view.owner key) x = none := by
      rw [Option.eq_none_iff_forall_ne_some]
      intro j hj
      exact hk ((View.indexAt?_single_iff h hi _ _).mp hj).1
    rw [get_of_none (c := ofView view x isOrdered c) hnone]
    cases hget : i.get key with
    | absent => rfl
    | indexed v => exact absurd (howner key v hget) hk

omit [Std.TransOrd K] in
theorem values_single [Std.LawfulEqOrd E] (hwf : i.contents.WellFormed) :
    (ofView view x i.isOrdered i.comparator?).contents.values = i.contents.values := by
  have hmem := Merged.mem_values_of_one (m := ⟨view, x⟩) (View.indexes_single h hi)
  have hasc := hwf.values
  have htrans := hwf.transCmp
  cases hc : i.contents with
  | unordered g =>
      rw [hc] at hmem hasc
      rw [contents_of_unordered view x hc]
      have hnatural : Ascending compare id (Merged.values ⟨view, x⟩).toList :=
        Std.ExtTreeSet.ordered_toList (t := Merged.values ⟨view, x⟩)
      exact hnatural.eq_of_mem_iff hasc hmem
  | ordered s =>
      rw [hc] at hmem hasc htrans
      rw [contents_of_ordered view x hc]
      have : Std.TransCmp (SafeComparator.ensure s.declared).order := htrans
      exact OrderedValues.ofSet_eq_of_ascending _ hasc hmem

theorem ordered_single (hcoherent : i.Coherent) {s : Sorted K E}
    (hs : i.contents = .ordered s) :
    OrderedMerged.Ordered ⟨⟨view, x⟩, .ensure s.declared⟩ := by
  have hcontents : ∀ id j, view.indexAt? id x = some j → j = i :=
    fun id j hj => ((View.indexAt?_single_iff h hi id j).mp hj).2
  refine ⟨⟨hcoherent.transCmp_of_ordered hs, ?_, ?_⟩, ?_⟩
  · intro id j hj
    rw [hcontents id j hj]
    exact hcoherent
  · intro id j hj
    rw [hcontents id j hj, hs]
    rfl
  · intro id j hj
    rw [hcontents id j hj, hs]
    rfl

/-- A range succeeds with the entries that the index has within the bounds. -/
theorem range_single (hcoherent : i.Coherent) {s : Sorted K E} (hs : i.contents = .ordered s)
    (lower upper : Bound (Option E)) :
    ∃ r, OrderedMerged.range ⟨⟨view, x⟩, .ensure s.declared⟩ lower upper = .ok r ∧
      r.entries.toList = (s.between lower upper).map fun e => (e.1, .single e.2) := by
  have hordered := ordered_single h hi hcoherent hs
  have hstrict := hcoherent.strict_of_ordered hs
  have : Std.TransCmp s.order := hcoherent.transCmp_of_ordered hs
  have : Std.TransCmp (SafeComparator.ensure s.declared).order := hcoherent.transCmp_of_ordered hs
  have hpooled := Merged.pooled_of_one (m := ⟨view, x⟩) (View.indexes_single h hi)
  rw [hs] at hpooled
  refine ⟨_, hordered.range_eq_ok lower upper, ?_⟩
  rw [hpooled, Sorted.between_eq_filter hstrict]
  exact RangeResult.merge_of_ascending (hstrict.sublist List.filter_sublist)

/-- A composite over the scope of one partition answers as the index of the partition. -/
theorem answersAs_single [Std.LawfulEqOrd E] (hcoherent : i.Coherent)
    (howner : ∀ key v, i.get key = .indexed v → view.owner key = p) :
    (ofView view x i.isOrdered i.comparator?).AnswersAs i := by
  have hone := View.indexes_single h hi
  have hwf := hcoherent.wellFormed
  have hbase : (ofView view x i.isOrdered i.comparator?).contents.base = ⟨view, x⟩ :=
    base_contents _
  have hvalues := values_single h hi hwf
  refine ⟨get_single h hi _ _ howner, isOrdered_of_index view x, ?_, ?_, ?_, ?_, ?_, hvalues, ?_, ?_⟩
  · rw [isPartial, parts]
    simp [ofView, hone]
  · rw [MergedContents.isEmpty, hbase, Merged.isEmpty_of_one hone]
  · rw [MergedContents.size_eq_length, hvalues, Contents.size_eq_length, Contents.values,
      List.length_map]
  · intro v
    rw [MergedContents.contains, hbase, Merged.contains_of_one hone]
  · intro v
    rw [MergedContents.get, hbase, Merged.members_of_one hone hwf]
  · intro hi
    refine ⟨.ensure i.comparator?, ?_, fun _ _ => rfl⟩
    rw [comparator?, ofView, hi]
    rfl
  · intro s hs
    exact ⟨_, contents_of_ordered view x hs, range_single h hi hcoherent hs⟩

end single

end Composite

namespace View

variable [Std.LawfulEqOrd K] [Std.LawfulEqOrd E]

/-- **A scope of one partition serves its index, and the composite would answer alike.** Let the
partition have a reachable index for an extractor and own the keys of it, and let the sampler pick a
partition of the scope. Then the view serves the index itself, and a composite over the scope, of the
kind and with the comparator of the index, answers what the index answers. -/
theorem single_serves_alike (view : View K E) (p : PartitionId) (x : Extractor) (i : Index K E)
    (hscope : view.scope = .single p) (hi : view.table.index? p x = some i) (hr : i.Reachable)
    (howner : ∀ key v, i.get key = .indexed v → view.owner key = p)
    (hsampler : ∃ q ∈ PartitionSet.single p, view.sampler (.single p) = some q) :
    view.index? x = some (.own i) ∧
      (Composite.ofView view x i.isOrdered i.comparator?).AnswersAs i := by
  refine ⟨?_, Composite.answersAs_single hscope hi hr.coherent howner⟩
  obtain ⟨q, hq, hpick⟩ := hsampler
  obtain rfl := (PartitionSet.mem_single_iff p q).mp hq
  have hrepresentative : view.representative? = some q := by
    rw [representative?, hscope]
    exact hpick
  simp [index?, hrepresentative, hi, isSingle_single hscope]

theorem single_serves_alike_odds :
    Mixed.view.table.index? ⟨1⟩ ⟨"age"⟩ = some Mixed.odds ∧ Mixed.odds.Reachable ∧
      (∀ key v, Mixed.odds.get key = .indexed v → Mixed.view.owner key = ⟨1⟩) ∧
      (∃ q ∈ PartitionSet.single ⟨1⟩, Sampler.first (.single ⟨1⟩) = some q) ∧
      ({ Mixed.view with scope := .single ⟨1⟩ } : View UInt64 Int64).index? ⟨"age"⟩ =
        some (.own Mixed.odds) ∧
      (Composite.ofView { Mixed.view with scope := .single ⟨1⟩ } ⟨"age"⟩ Mixed.odds.isOrdered
        Mixed.odds.comparator?).AnswersAs Mixed.odds := by
  have hin : Mixed.view.indexAt? ⟨1⟩ ⟨"age"⟩ = some Mixed.odds :=
    Mixed.indexAt?_view.mpr (Or.inr ⟨rfl, rfl⟩)
  have hindex := ((indexAt?_eq_some_iff _ _ _ _).mp hin).2
  have hreachable := Mixed.reachable ⟨1⟩ Mixed.odds hin
  have howner := fun key v => Mixed.routed ⟨1⟩ Mixed.odds key v hin
  have hsampler : ∃ q ∈ PartitionSet.single ⟨1⟩, Sampler.first (.single ⟨1⟩) = some q :=
    ⟨⟨1⟩, (PartitionSet.mem_single_iff _ _).mpr rfl, Sampler.first_single _⟩
  exact ⟨hindex, hreachable, howner, hsampler,
    single_serves_alike _ ⟨1⟩ ⟨"age"⟩ Mixed.odds rfl hindex hreachable howner hsampler⟩

end View

end PartitionedIndex
