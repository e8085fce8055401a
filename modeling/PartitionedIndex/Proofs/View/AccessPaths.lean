import PartitionedIndex.View.Composite
import PartitionedIndex.Proofs.Comparator.Named
import PartitionedIndex.Proofs.View.OrderedMerged

/-! # All ways to read ordered merged contents agree

The same information can be read off a composite index as the range without bounds, as the ascending
values with a lookup of each, as key sets, as entries, and as ranges and lookups of single values. The
first merges the entries of all partitions, the others sort the set of all values and ask each partition
anew. They agree on the values class by class and on the chains member by member (`Agrees`), also when
the partitions keep different values for one class. Main statement: `access_paths_agree`. -/

namespace PartitionedIndex

namespace OrderedMerged

variable {K E : Type} [Ord K] [Ord E] [Std.TransOrd K] [Std.TransOrd E]

/-- The result `r` of the range without bounds agrees with every other way to read the contents. -/
structure Agrees (m : OrderedMerged K E) (r : RangeResult K E) : Prop where
  ascending : r.values.Pairwise fun v w => m.comparator.order v w = .lt
  size_eq : (MergedContents.ordered m).size = r.size
  sizes_eq : m.values.size = r.size ∧ m.keySets.length = r.size ∧ m.entries.length = r.size
  values_eq : List.Forall₂ (fun v w => m.comparator.order v w = .eq) r.values
    m.values.values.toList
  entries_values_eq : m.entries.map (·.value) = m.values.values.toList
  keySets_eq : m.keySets = r.entries.toList.map (·.2)
  entries_keys_eq : m.entries.map (·.keys) = r.entries.toList.map (·.2)
  collects : ∀ e ∈ r.entries,
    m.base.view.Collects m.base.extractor m.comparator.order e.1 e.2
  range_eq : ∀ lower upper, m.range lower upper = .ok ⟨m.comparator,
    r.entries.filter fun e => Bound.between m.comparator.order lower upper e.1⟩
  get_eq : ∀ v, m.base.get v = (r.get? v).getD ∅
  contains_eq : ∀ v, m.base.contains v = r.contains v
  values_contains_eq : ∀ v, m.values.contains v = r.contains v

variable [Std.LawfulEqOrd E] {m : OrderedMerged K E}

/-- The values listed are those of the range without bounds, class by class, and the chains looked up
for them are the same. -/
theorem Ordered.entries_forall₂ (h : m.Ordered) :
    List.Forall₂ (fun e v => m.comparator.order e.1 v = .eq ∧ e.2 = m.base.get v)
      m.whole.entries.toList m.values.values.toList := by
  have := h.uniform.transCmp
  have hall := h.whole_gathered
  have hrel : ∀ e ∈ m.whole.entries.toList, ∀ v,
      m.comparator.order e.1 v = .eq → m.comparator.order e.1 v = .eq ∧ e.2 = m.base.get v :=
    fun e he v hev => ⟨hev, (h.chain_eq_get he).trans (Merged.get_congr h.uniform hev)⟩
  refine Ascending.forall₂ hall.ascending (OrderedValues.ofSet_ascending m.base.values)
    (fun _ _ hev => hev.1) ?_ ?_
  · intro e he
    obtain ⟨p, hp, hpe⟩ := hall.exists_given he
    have hvalue := (m.base.mem_values_iff e.1).mpr ⟨p, hp, hpe⟩
    obtain ⟨v, hv, hve⟩ := OrderedValues.exists_mem_ofSet (c := m.comparator) m.base.values hvalue
    exact ⟨v, hv, hrel e he v (Std.OrientedCmp.eq_symm hve)⟩
  · intro v hv
    have hvalue := OrderedValues.mem_of_mem_ofSet m.base.values hv
    obtain ⟨p, hp, rfl⟩ := (m.base.mem_values_iff v).mp hvalue
    obtain ⟨e, he, hep⟩ := (h.exists_gathered_iff p.1).mpr ⟨p, hp, Std.ReflCmp.compare_self⟩
    exact ⟨e, he, hrel e he p.1 hep⟩

omit [Std.LawfulEqOrd E] in
theorem Ordered.get_eq (h : m.Ordered) (v : Option E) :
    m.base.get v = (m.whole.get? v).getD ∅ := by
  have := h.uniform.transCmp
  have : Std.TransCmp m.whole.comparator.order := this
  have hall := h.whole_gathered
  cases hg : m.whole.get? v with
  | some chain =>
      obtain ⟨e, he, hev, rfl⟩ := (RangeResult.get?_eq_some_iff hall.ascending v chain).mp hg
      exact ((h.chain_eq_get he).trans (Merged.get_congr h.uniform hev)).symm
  | none =>
      have hnone : classOf m.comparator.order v m.base.pooled = [] := by
        rw [List.eq_nil_iff_forall_not_mem]
        intro p hp
        obtain ⟨e, he, hev⟩ := (h.exists_gathered_iff v).mpr ⟨p, mem_classOf.mp hp⟩
        have := (RangeResult.get?_eq_some_iff hall.ascending v e.2).mpr ⟨e, he, hev, rfl⟩
        rw [hg] at this
        cases this
      have hmembers := Merged.get_members h.uniform v
      rw [hnone] at hmembers
      exact congrArg Chain.mk hmembers

/-- If the parts of a composite are ordered alike, the range without bounds agrees with every other
way to read the contents. -/
theorem Ordered.agrees (h : m.Ordered) : m.Agrees m.whole := by
  have := h.uniform.transCmp
  have : Std.TransCmp m.whole.comparator.order := this
  have hall := h.whole_gathered
  have hlength := h.entries_forall₂.length_eq
  have hkeySets : m.keySets = m.whole.entries.toList.map (·.2) := by
    unfold keySets
    rw [← List.forall₂_eq_eq_eq, List.forall₂_map_left_iff, List.forall₂_map_right_iff]
    exact (h.entries_forall₂.imp fun _ _ hev => hev.2.symm).flip
  have hsize : m.values.size = m.whole.size := hlength.symm
  refine ⟨?_, hsize, ⟨hsize, ?_, ?_⟩, ?_, ?_, hkeySets, ?_, ?_, h.range_eq_filter, h.get_eq, ?_, ?_⟩
  · exact List.pairwise_map.mpr hall.ascending
  · rw [hkeySets, List.length_map, RangeResult.size, Array.length_toList]
  · rw [entries, List.length_map, ← hlength, RangeResult.size, Array.length_toList]
  · unfold RangeResult.values
    rw [List.forall₂_map_left_iff]
    exact h.entries_forall₂.imp fun _ _ hev => hev.1
  · unfold entries
    rw [List.map_map, Function.comp_def, List.map_id']
  · rw [← hkeySets, entries, keySets, List.map_map]
    rfl
  · intro e he
    rw [h.chain_eq_get (Array.mem_toList_iff.mpr he)]
    exact Merged.collects_get h.uniform e.1
  · intro v
    rw [Bool.eq_iff_iff, Merged.contains_iff h.uniform, RangeResult.contains_iff hall.ascending]
    exact (h.exists_gathered_iff v).symm
  · intro v
    rw [Bool.eq_iff_iff, RangeResult.contains_iff hall.ascending]
    refine Iff.trans ?_ (h.exists_gathered_iff v).symm
    refine (OrderedValues.contains_ofSet_iff (c := m.comparator) m.base.values v).trans ?_
    constructor
    · rintro ⟨w, hw, hwv⟩
      obtain ⟨p, hp, rfl⟩ := (m.base.mem_values_iff w).mp hw
      exact ⟨p, hp, hwv⟩
    · rintro ⟨p, hp, hpv⟩
      exact ⟨p.1, (m.base.mem_values_iff p.1).mpr ⟨p, hp, rfl⟩, hpv⟩

end OrderedMerged

/-! ### Ages by their tens -/

namespace Tens

/-- An index of ages that compares them by their tens, with the given entries. -/
def index (entries : List (UInt64 × Option Int64)) : Index UInt64 Int64 :=
  (Index.ordered ⟨⟨"age"⟩, false⟩ (some .tens)).run (entries.map fun p => .insert p.1 p.2)

/-- Twelve and null are in one partition, seventeen, which is of the class of twelve, in another. -/
def view : View UInt64 Int64 where
  table := ((∅ : Table UInt64 Int64).putIndex ⟨0⟩ ⟨"age"⟩ (index [(0, some 12), (2, none)])).putIndex
    ⟨1⟩ ⟨"age"⟩ (index [(1, some 17)])
  scope := .owned
  owner := .modulo 2
  sampler := .first

theorem indexAt?_view {id : PartitionId} {i : Index UInt64 Int64} :
    view.indexAt? id ⟨"age"⟩ = some i ↔
      (id = ⟨1⟩ ∧ i = index [(1, some 17)]) ∨ (id = ⟨0⟩ ∧ i = index [(0, some 12), (2, none)]) :=
  (View.indexAt?_pair rfl rfl (by decide)).trans or_comm

theorem exists_run (id : PartitionId) (i : Index UInt64 Int64)
    (hi : view.indexAt? id ⟨"age"⟩ = some i) :
    ∃ spec writes, i = (Index.ordered spec (some .tens)).run writes := by
  rcases indexAt?_view.mp hi with ⟨_, rfl⟩ | ⟨_, rfl⟩
  · exact ⟨_, _, rfl⟩
  · exact ⟨_, _, rfl⟩

theorem ordered_alike (id : PartitionId) (i : Index UInt64 Int64)
    (hi : view.indexAt? id ⟨"age"⟩ = some i) : i.Reachable ∧ i.isOrdered = true ∧
      i.contents.order = (SafeComparator.ensure (some Comparator.tens)).order := by
  obtain ⟨spec, writes, rfl⟩ := exists_run id i hi
  exact Index.run_ordered_alike spec Comparator.tens_lawful writes

end Tens

namespace Composite

/-- **All ways to read an ordered composite agree.** If each index in scope is what writes made of an
empty index with the comparator of the composite, the range without bounds succeeds, and its result
agrees with the values, key sets, entries, ranges and lookups of the contents. -/
theorem access_paths_agree {K E : Type} [Ord K] [Ord E] [Std.TransOrd K] [Std.TransOrd E]
    [Std.LawfulEqOrd K] [Std.LawfulEqOrd E] (view : View K E) (x : Extractor)
    (c : Option (Comparator E)) (hc : (SafeComparator.ensure c).Lawful)
    (h : ∀ id i, view.indexAt? id x = some i →
      ∃ spec writes, i = (Index.ordered spec c).run writes) :
    ∃ m r, (ofView view x true c).contents = .ordered m ∧
      m.base = ⟨view, x⟩ ∧ m.comparator = .ensure c ∧
      m.range .unbounded .unbounded = .ok r ∧ m.Agrees r := by
  have hordered := OrderedMerged.Ordered.of_run hc h
  exact ⟨_, _, rfl, rfl, rfl, hordered.range_unbounded, hordered.agrees⟩

theorem access_paths_agree_tens :
    (SafeComparator.ensure (some Comparator.tens)).Lawful ∧
      (∀ id i, Tens.view.indexAt? id ⟨"age"⟩ = some i →
        ∃ spec writes, i = (Index.ordered spec (some .tens)).run writes) ∧
      ∃ m r, (ofView Tens.view ⟨"age"⟩ true (some .tens)).contents = .ordered m ∧
        m.base = ⟨Tens.view, ⟨"age"⟩⟩ ∧ m.comparator = .ensure (some .tens) ∧
        m.range .unbounded .unbounded = .ok r ∧ m.Agrees r :=
  ⟨Comparator.tens_lawful, Tens.exists_run,
    access_paths_agree Tens.view ⟨"age"⟩ (some .tens) Comparator.tens_lawful Tens.exists_run⟩

end Composite

end PartitionedIndex
