import PartitionedIndex.Proofs.View.AccessPaths

/-! # An ordered composite is one index

The indexes of several partitions that share no key, read as one, answer as a single index would that
was given all their keys with their values, in whatever order. The composite sorts and merges slices
anew for every range, the single index keeps one sequence of entries up to date; both have one entry
for each class of the values, ascending, and so the entries correspond position by position
(`ReadsAs`). Main statement: `reads_as_single`. -/

namespace PartitionedIndex

namespace OrderedMerged

variable {K E : Type} [Ord K] [Ord E] [Std.TransOrd K] [Std.TransOrd E]

/-- Merged contents answer as the contents of one index do, whose entries are `s`: the ranges have
equal values at the same positions, and their chains have the same keys, each once. -/
structure ReadsAs (m : OrderedMerged K E) (s : Sorted K E) : Prop where
  range : ∀ lower upper, ∃ r, m.range lower upper = .ok r ∧
    List.Forall₂ (fun e f => m.comparator.order e.1 f.1 = .eq ∧ e.2.toList.Nodup ∧
      ∀ key, key ∈ e.2.toList ↔ key ∈ f.2) r.entries.toList (s.between lower upper)
  size_eq : (MergedContents.ordered m).size = (Contents.ordered s).size
  isEmpty_eq : (MergedContents.ordered m).isEmpty = (Contents.ordered s).isEmpty
  contains_eq : ∀ v, (MergedContents.ordered m).contains v = (Contents.ordered s).contains v
  get_eq : ∀ v, ((MergedContents.ordered m).get v).toKeySet = ((Contents.ordered s).get? v).getD ∅

variable [Std.LawfulEqOrd K] {m : OrderedMerged K E}

section single

variable {j : Index K E} {s : Sorted K E} (h : m.Ordered)
  (hs : j.contents = .ordered s) (ho : s.order = m.comparator.order)
  (hget : ∀ key value, j.get key = .indexed value ↔
    ∃ id i, m.base.view.indexAt? id m.base.extractor = some i ∧ i.get key = .indexed value)
include h hs ho hget

theorem Ordered.mem_get_iff (v : Option E) (key : K) :
    key ∈ (m.base.get v).toList ↔ j.HasValue key v := by
  have horder : j.contents.order = m.comparator.order := by rw [hs]; exact ho
  rw [Chain.mem_toList_iff, Merged.exists_member_iff h.uniform, Index.HasValue, horder]
  constructor
  · rintro ⟨id, i, hi, w, hw, heq⟩
    exact ⟨w, (hget key w).mpr ⟨id, i, hi, hw⟩, heq⟩
  · rintro ⟨w, hw, heq⟩
    obtain ⟨id, i, hi, hw⟩ := (hget key w).mp hw
    exact ⟨id, i, hi, w, hw, heq⟩

variable (hj : j.Coherent)
include hj

omit [Std.LawfulEqOrd K] in
theorem Ordered.exists_entry_iff (v : Option E) :
    (∃ f ∈ s.entries.toList, m.comparator.order f.1 v = .eq) ↔
      ∃ p ∈ m.base.pooled, m.comparator.order p.1 v = .eq := by
  have horder : j.contents.order = m.comparator.order := by rw [hs]; exact ho
  have hentries : j.contents.entries = s.entries.toList := by rw [hs]; rfl
  have hclass := hj.exists_class_iff v
  rw [hentries, horder] at hclass
  rw [hclass, Merged.exists_pooled_iff h.uniform]
  constructor
  · rintro ⟨key, w, hw, hwv⟩
    obtain ⟨id, i, hi, hw⟩ := (hget key w).mp hw
    exact ⟨id, i, hi, key, w, hw, horder ▸ hwv⟩
  · rintro ⟨id, i, hi, key, w, hw, hwv⟩
    exact ⟨key, w, (hget key w).mpr ⟨id, i, hi, hw⟩, horder.symm ▸ hwv⟩

theorem Ordered.keys_agree (hd : m.base.view.Disjoint m.base.extractor) {e : Option E × Chain K}
    {f : Option E × KeySet K} (he : e ∈ m.whole.entries.toList) (hf : f ∈ s.entries.toList)
    (hef : m.comparator.order e.1 f.1 = .eq) :
    e.2.toList.Nodup ∧ ∀ key, key ∈ e.2.toList ↔ key ∈ f.2 := by
  have hwf := hj.wellFormed_of_ordered hs
  rw [(h.chain_eq_get he).trans (Merged.get_congr h.uniform hef)]
  refine ⟨Chain.nodup_toList _ (Merged.get_disjoint h.uniform.coherent hd f.1), fun key => ?_⟩
  have hfound : j.contents.get? f.1 = some f.2 := hs ▸ hwf.get?_of_mem hf
  rw [h.mem_get_iff hs ho hget, hj.mem_iff hfound]

/-- A range over disjoint partitions corresponds, position by position, to that of one index which has
all their keys. -/
theorem Ordered.range_forall₂ (hd : m.base.view.Disjoint m.base.extractor)
    (lower upper : Bound (Option E)) :
    ∃ r, m.range lower upper = .ok r ∧
      List.Forall₂ (fun e f => m.comparator.order e.1 f.1 = .eq ∧ e.2.toList.Nodup ∧
        ∀ key, key ∈ e.2.toList ↔ key ∈ f.2) r.entries.toList (s.between lower upper) := by
  have := h.uniform.transCmp
  have : Std.TransCmp s.order := ho ▸ this
  have hall := h.whole_gathered
  have hwf := hj.wellFormed_of_ordered hs
  have hasc : Ascending m.comparator.order Prod.fst s.entries.toList := ho ▸ hwf.ascending
  refine ⟨_, h.range_eq_filter lower upper, ?_⟩
  rw [Array.toList_filter, Sorted.between_eq_filter hwf.ascending, ho]
  refine Ascending.forall₂ (hall.ascending.sublist List.filter_sublist)
    (hasc.sublist List.filter_sublist) (fun _ _ hef => hef.1) ?_ ?_
  · intro e he
    obtain ⟨he, hin⟩ := List.mem_filter.mp he
    obtain ⟨p, hp, hpe⟩ := hall.exists_given he
    have hclass : m.comparator.order p.1 e.1 = .eq := hpe ▸ Std.ReflCmp.compare_self
    obtain ⟨f, hf, hfe⟩ := (h.exists_entry_iff hs ho hget hj e.1).mpr ⟨p, hp, hclass⟩
    have hef := Std.OrientedCmp.eq_symm hfe
    have hfin := (Bound.between_congr lower upper hfe).trans hin
    exact ⟨f, List.mem_filter.mpr ⟨hf, hfin⟩, hef, h.keys_agree hs ho hget hj hd he hf hef⟩
  · intro f hf
    obtain ⟨hf, hin⟩ := List.mem_filter.mp hf
    have hclass := (h.exists_entry_iff hs ho hget hj f.1).mp ⟨f, hf, Std.ReflCmp.compare_self⟩
    obtain ⟨e, he, hef⟩ := (h.exists_gathered_iff f.1).mpr hclass
    have hein := (Bound.between_congr lower upper hef).trans hin
    exact ⟨e, List.mem_filter.mpr ⟨he, hein⟩, hef, h.keys_agree hs ho hget hj hd he hf hef⟩

variable [Std.LawfulEqOrd E]

/-- Merged contents over disjoint partitions answer as one index that has all their keys. -/
theorem Ordered.readsAs (hd : m.base.view.Disjoint m.base.extractor) : m.ReadsAs s := by
  have := h.uniform.transCmp
  have : Std.TransCmp s.order := ho ▸ this
  have hwf := hj.wellFormed_of_ordered hs
  have hrange := h.range_forall₂ hs ho hget hj hd
  refine ⟨hrange, ?_, ?_, ?_, ?_⟩
  · obtain ⟨r, hr, hforall⟩ := hrange .unbounded .unbounded
    obtain rfl := Except.ok.inj (h.range_unbounded.symm.trans hr)
    have hlength := hforall.length_eq
    rw [Sorted.between_eq_filter hwf.ascending, Bound.filter_between_unbounded] at hlength
    exact h.agrees.size_eq.trans hlength
  · rw [Bool.eq_iff_iff]
    refine (Merged.isEmpty_iff m.base).trans ?_
    rw [Contents.isEmpty, beq_iff_eq, Contents.size_eq_length, List.length_eq_zero_iff,
      List.eq_nil_iff_forall_not_mem, List.eq_nil_iff_forall_not_mem]
    constructor
    · intro hnone f hf
      obtain ⟨p, hp, _⟩ :=
        (h.exists_entry_iff hs ho hget hj f.1).mp ⟨f, hf, Std.ReflCmp.compare_self⟩
      exact hnone p hp
    · intro hnone p hp
      obtain ⟨f, hf, _⟩ :=
        (h.exists_entry_iff hs ho hget hj p.1).mpr ⟨p, hp, Std.ReflCmp.compare_self⟩
      exact hnone f hf
  · intro v
    rw [Bool.eq_iff_iff, hwf.contains_iff]
    refine (Merged.contains_iff h.uniform v).trans ?_
    rw [← h.exists_entry_iff hs ho hget hj, ← ho]
    rfl
  · intro v
    apply Std.ExtTreeSet.ext_mem
    intro key
    rw [Chain.mem_toKeySet_iff, ← Chain.mem_toList_iff]
    refine (h.mem_get_iff hs ho hget v key).trans ?_
    rw [← hj.lists_iff, hs, Contents.Lists]
    cases (Contents.ordered s).get? v <;> simp

end single

end OrderedMerged

theorem Tens.get_index {entries : List (UInt64 × Option Int64)}
    (h : (entries.map Prod.fst).Nodup) (key : UInt64) (value : Option Int64) :
    (index entries).get key = .indexed value ↔ (key, value) ∈ entries := by
  have hf : ∀ p ∈ entries, ∀ q ∈ entries, p.1 = q.1 → p.2 = q.2 :=
    fun p hp q hq hpq => congrArg Prod.snd (List.inj_on_of_nodup_map h hp hq hpq)
  refine (Index.get_run_insert rfl entries hf key value).trans (or_iff_left ?_)
  rintro ⟨habsent, _⟩
  rw [Index.ordered, Index.get_ofContents] at habsent
  cases habsent

theorem Tens.get_low_of_get_high {key : UInt64} {u : Option Int64}
    (h : (index [(1, some 17)]).get key = .indexed u) (w : Option Int64) :
    (index [(0, some 12), (2, none)]).get key ≠ .indexed w := by
  rw [get_index (by decide)] at h
  rw [ne_eq, get_index (by decide)]
  obtain ⟨rfl, _⟩ := Prod.mk.inj (List.mem_singleton.mp h)
  simp

theorem Tens.disjoint : view.Disjoint ⟨"age"⟩ := by
  intro p q i j u w key hi hj hu hw
  rcases indexAt?_view.mp hi with ⟨rfl, rfl⟩ | ⟨rfl, rfl⟩
  · rcases indexAt?_view.mp hj with ⟨rfl, rfl⟩ | ⟨rfl, rfl⟩
    · rfl
    · exact absurd hw (get_low_of_get_high hu w)
  · rcases indexAt?_view.mp hj with ⟨rfl, rfl⟩ | ⟨rfl, rfl⟩
    · exact absurd hu (get_low_of_get_high hw u)
    · rfl

namespace Composite

/-- **An ordered composite is one index.** Let each index in scope be what writes made of an empty
one that is not unique and has the comparator of the composite, and let no two of them share a key. Then
the composite answers as a single index does into which the keys of all of them were inserted with
their values, in any order. -/
theorem reads_as_single {K E : Type} [Ord K] [Ord E] [Std.TransOrd K] [Std.TransOrd E]
    [Std.LawfulEqOrd K] [Std.LawfulEqOrd E] (view : View K E) (x : Extractor)
    (c : Option (Comparator E)) (hc : (SafeComparator.ensure c).Lawful)
    (h : ∀ id i, view.indexAt? id x = some i →
      ∃ spec writes, spec.unique = false ∧ i = (Index.ordered spec c).run writes)
    (hd : view.Disjoint x) (spec : IndexSpec) (hspec : spec.unique = false)
    (pairs : List (K × Option E))
    (hpairs : ∀ key value, (key, value) ∈ pairs ↔
      ∃ id i, view.indexAt? id x = some i ∧ i.get key = .indexed value) :
    ∃ m s, (ofView view x true c).contents = .ordered m ∧
      m.base = ⟨view, x⟩ ∧ m.comparator = .ensure c ∧
      ((Index.ordered spec c).run (pairs.map fun p => .insert p.1 p.2)).contents = .ordered s ∧
      m.ReadsAs s := by
  have hordered := OrderedMerged.Ordered.of_run hc fun id i hi => by
    obtain ⟨spec, writes, _, hrun⟩ := h id i hi
    exact ⟨spec, writes, hrun⟩
  have hempty := Index.Coherent.ordered (K := K) spec hc
  obtain ⟨s, hs, hdeclared⟩ :=
    Index.exists_run_ordered spec c (pairs.map fun p => .insert p.1 p.2)
  refine ⟨_, s, rfl, rfl, rfl, hs, ?_⟩
  refine hordered.readsAs hs (by rw [Sorted.order, hdeclared]) ?_ (hempty.run _) hd
  intro key value
  have hfunctional : ∀ p ∈ pairs, ∀ q ∈ pairs, p.1 = q.1 → p.2 = q.2 := by
    rintro ⟨k, u⟩ hp ⟨l, w⟩ hq rfl
    obtain ⟨a, i, hi, hu⟩ := (hpairs k u).mp hp
    obtain ⟨b, j, hj, hw⟩ := (hpairs k w).mp hq
    obtain rfl := hd k hi hj hu hw
    rw [hi] at hj
    cases hj
    rw [hu] at hw
    exact Lookup.indexed.inj hw
  refine (Index.get_run_insert hspec pairs hfunctional key value).trans ?_
  rw [hpairs, or_iff_left]
  rintro ⟨habsent, _⟩
  rw [Index.ordered, Index.get_ofContents] at habsent
  cases habsent

theorem reads_as_single_tens :
    (SafeComparator.ensure (some Comparator.tens)).Lawful ∧
      (∀ id i, Tens.view.indexAt? id ⟨"age"⟩ = some i →
        ∃ spec writes, spec.unique = false ∧ i = (Index.ordered spec (some .tens)).run writes) ∧
      Tens.view.Disjoint ⟨"age"⟩ ∧ (IndexSpec.mk ⟨"age"⟩ false).unique = false ∧
      (∀ key value, (key, value) ∈ [((2 : UInt64), (none : Option Int64)), (1, some 17), (0, some 12)] ↔
        ∃ id i, Tens.view.indexAt? id ⟨"age"⟩ = some i ∧ i.get key = .indexed value) ∧
      ∃ m s, (ofView Tens.view ⟨"age"⟩ true (some .tens)).contents = .ordered m ∧
        m.base = ⟨Tens.view, ⟨"age"⟩⟩ ∧ m.comparator = .ensure (some .tens) ∧
        ((Index.ordered ⟨⟨"age"⟩, false⟩ (some .tens)).run
          ([((2 : UInt64), (none : Option Int64)), (1, some 17), (0, some 12)].map
            fun p => .insert p.1 p.2)).contents = .ordered s ∧
        m.ReadsAs s := by
  have h : ∀ id i, Tens.view.indexAt? id ⟨"age"⟩ = some i →
      ∃ spec writes, spec.unique = false ∧ i = (Index.ordered spec (some .tens)).run writes := by
    intro id i hi
    rcases Tens.indexAt?_view.mp hi with ⟨_, rfl⟩ | ⟨_, rfl⟩
    · exact ⟨⟨⟨"age"⟩, false⟩, _, rfl, rfl⟩
    · exact ⟨⟨⟨"age"⟩, false⟩, _, rfl, rfl⟩
  have hpairs : ∀ key value,
      (key, value) ∈ [((2 : UInt64), (none : Option Int64)), (1, some 17), (0, some 12)] ↔
        ∃ id i, Tens.view.indexAt? id ⟨"age"⟩ = some i ∧ i.get key = .indexed value := by
    intro key value
    have hmem : (key, value) ∈ [((2 : UInt64), (none : Option Int64)), (1, some 17), (0, some 12)] ↔
        (key, value) ∈ [((1 : UInt64), some (17 : Int64))] ∨
          (key, value) ∈ [((0 : UInt64), some (12 : Int64)), (2, none)] := by
      simp only [List.mem_cons, List.not_mem_nil, or_false]
      rw [or_left_comm, or_comm (a := (key, value) = (2, none))]
    rw [hmem, ← Tens.get_index (by decide), ← Tens.get_index (by decide)]
    constructor
    · rintro (hv | hv)
      · exact ⟨_, _, Tens.indexAt?_view.mpr (Or.inl ⟨rfl, rfl⟩), hv⟩
      · exact ⟨_, _, Tens.indexAt?_view.mpr (Or.inr ⟨rfl, rfl⟩), hv⟩
    · rintro ⟨id, i, hi, hv⟩
      rcases Tens.indexAt?_view.mp hi with ⟨_, rfl⟩ | ⟨_, rfl⟩
      · exact Or.inl hv
      · exact Or.inr hv
  exact ⟨Comparator.tens_lawful, h, Tens.disjoint, rfl, hpairs,
    reads_as_single Tens.view ⟨"age"⟩ (some .tens) Comparator.tens_lawful h Tens.disjoint
      ⟨⟨"age"⟩, false⟩ rfl _ hpairs⟩

end Composite

end PartitionedIndex
