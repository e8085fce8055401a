import PartitionedIndex.View.OrderedMerged
import PartitionedIndex.Proofs.Index.Reachable
import PartitionedIndex.Proofs.View.Merged
import PartitionedIndex.Proofs.View.OrderedValues

/-! # Ranges over all partitions

If all parts are ordered and compare values as the merged contents do, a range asks every partition
for its entries within the bounds, which succeeds, and merges them (`range_eq_ok`). What it leaves out
are whole classes, so a range is the part within its bounds of the range without bounds
(`range_eq_filter`). -/

namespace PartitionedIndex

theorem mapM_eq_ok {α β ε : Type} {f : α → Except ε β} {g : α → β} {items : List α}
    (h : ∀ a ∈ items, f a = .ok (g a)) : items.mapM f = .ok (items.map g) := by
  induction items with
  | nil => rfl
  | cons a rest ih =>
      obtain ⟨ha, hrest⟩ := List.forall_mem_cons.mp h
      rw [List.mapM_cons, ha, ih hrest]
      rfl

namespace OrderedMerged

variable {K E : Type} [Ord K] [Ord E] [Std.TransOrd K] [Std.TransOrd E]

/-- The entries of all parts, merged: the range without bounds. -/
def whole (m : OrderedMerged K E) : RangeResult K E := .merge m.comparator m.base.pooled

/-- The parts are ordered, and compare values as the comparator does. -/
structure Ordered (m : OrderedMerged K E) : Prop where
  uniform : m.base.view.Uniform m.base.extractor m.comparator.order
  isOrdered : ∀ id i, m.base.view.indexAt? id m.base.extractor = some i →
    i.contents.isOrdered = true

theorem Ordered.of_reachable [Std.LawfulEqOrd K] {m : OrderedMerged K E} (hc : m.comparator.Lawful)
    (h : ∀ id i, m.base.view.indexAt? id m.base.extractor = some i →
      i.Reachable ∧ i.isOrdered = true ∧ i.contents.order = m.comparator.order) : m.Ordered :=
  ⟨⟨hc.transCmp, fun id i hi => (h id i hi).1.coherent, fun id i hi => (h id i hi).2.2⟩,
    fun id i hi => (h id i hi).2.1⟩

theorem Ordered.of_run [Std.LawfulEqOrd K] {view : View K E} {x : Extractor} {c : Option (Comparator E)}
    (hc : (SafeComparator.ensure c).Lawful)
    (h : ∀ id i, view.indexAt? id x = some i →
      ∃ spec writes, i = (Index.ordered spec c).run writes) :
    Ordered ⟨⟨view, x⟩, .ensure c⟩ := by
  refine .of_reachable hc fun id i hi => ?_
  obtain ⟨spec, writes, rfl⟩ := h id i hi
  exact Index.run_ordered_alike spec hc writes

namespace Ordered

variable {m : OrderedMerged K E} (h : m.Ordered)
include h

theorem slice_eq_ok (lower upper : Bound (Option E)) {part : PartitionId × Index K E}
    (hp : part ∈ m.base.view.indexes m.base.extractor) :
    slice m.base.extractor lower upper part = .ok (part.2.contents.entries.filter fun e =>
      Bound.between m.comparator.order lower upper e.1) := by
  obtain ⟨id, i⟩ := part
  have hi := (m.base.view.mem_indexes_iff _ _ _).mp hp
  have hwf := (h.uniform.coherent id i hi).wellFormed
  have horder := h.uniform.order_eq id i hi
  have hordered := h.isOrdered id i hi
  unfold slice
  cases hc : i.contents with
  | unordered g =>
      rw [hc] at hordered
      cases hordered
  | ordered s =>
      rw [hc] at hwf horder
      have : Std.TransCmp s.order := hwf.transCmp
      dsimp only [Contents.ordered?, Contents.entries]
      rw [Sorted.between_eq_filter hwf.ascending, ← horder]
      congr 1
      refine List.filter_eq_self.mpr ?_
      intro e he
      rw [hwf.inhabited e (List.mem_filter.mp he).1]
      rfl

/-- **A range succeeds**, and merges what the pool has within the bounds. -/
theorem range_eq_ok (lower upper : Bound (Option E)) :
    m.range lower upper = .ok (.merge m.comparator
      (m.base.pooled.filter fun e => Bound.between m.comparator.order lower upper e.1)) := by
  unfold range
  rw [mapM_eq_ok fun part hp => h.slice_eq_ok lower upper hp]
  unfold Merged.pooled Merged.parts
  rw [List.flatMap_map, List.filter_flatMap]
  rfl

theorem range_unbounded : m.range .unbounded .unbounded = .ok m.whole := by
  rw [h.range_eq_ok, Bound.filter_between_unbounded, whole]

/-- The range without bounds has one entry for each class of the pool. -/
theorem whole_gathered : Gathered m.comparator.order m.base.pooled m.whole.entries.toList :=
  have := h.uniform.transCmp
  RangeResult.merge_gathered m.comparator m.base.pooled

/-- A range is the part within its bounds of the range without bounds. -/
theorem range_eq_filter (lower upper : Bound (Option E)) :
    m.range lower upper = .ok ⟨m.comparator, m.whole.entries.filter fun e =>
      Bound.between m.comparator.order lower upper e.1⟩ := by
  have := h.uniform.transCmp
  have hall := h.whole_gathered
  have hkeep := hall.filter (Bound.between m.comparator.order lower upper)
    fun v w hvw => Bound.between_congr lower upper hvw
  have hpart := RangeResult.merge_gathered m.comparator
    (m.base.pooled.filter fun e => Bound.between m.comparator.order lower upper e.1)
  rw [h.range_eq_ok]
  refine congrArg (fun entries => Except.ok (RangeResult.mk m.comparator entries)) ?_
  apply Array.toList_inj.mp
  rw [Array.toList_filter]
  exact hpart.unique hkeep

/-- The chain of a gathered entry is the one that is looked up. -/
theorem chain_eq_get {e : Option E × Chain K} (he : e ∈ m.whole.entries.toList) :
    e.2 = m.base.get e.1 := by
  have hmembers := h.whole_gathered.members e he
  rw [← Merged.get_members h.uniform] at hmembers
  exact congrArg Chain.mk hmembers

theorem exists_gathered_iff (v : Option E) :
    (∃ e ∈ m.whole.entries.toList, m.comparator.order e.1 v = .eq) ↔
      ∃ p ∈ m.base.pooled, m.comparator.order p.1 v = .eq :=
  have := h.uniform.transCmp
  h.whole_gathered.exists_iff v

end Ordered

end OrderedMerged

end PartitionedIndex
