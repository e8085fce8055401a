import PartitionedIndex.Proofs.View.AccessPaths
import PartitionedIndex.Proofs.View.Lookup

/-! # Ranges of a view: when they are refused, and how they fit together

A range asks the partitions in turn and gives up at the first one that keeps its index unordered. So it
fails if there is such a partition, whatever the bounds, and the error names the lowest of them
(`RefusesUnordered`). Bounds in the wrong order are refused before any partition is asked.

If all parts are ordered alike, the entries below a value, those from it up to another and those from
there on are the entries of the range without bounds, although the three are cut out of the partitions
and merged apart from each other (`Splits`). Main statement: `ranges_split`. -/

namespace PartitionedIndex

/-! ### The first refusal -/

/-- The error of an operation that was refused. -/
def error? {ε β : Type} : Except ε β → Option ε
  | .ok _ => none
  | .error e => some e

/-- Operations done in turn fail with the first error among them. -/
theorem mapM_eq_error_iff {α β ε : Type} {f : α → Except ε β} {items : List α} {e : ε} :
    items.mapM f = .error e ↔ (items.findSome? fun a => error? (f a)) = some e := by
  induction items with
  | nil => exact ⟨nofun, nofun⟩
  | cons a rest ih =>
      rw [List.mapM_cons, List.findSome?_cons]
      cases ha : f a with
      | error d => simp [error?, bind, Except.bind]
      | ok b =>
          rw [error?, ← ih]
          cases hrest : rest.mapM f <;> simp [bind, Except.bind, pure, Except.pure]

/-- The lowest partition in scope that keeps its index for an extractor unordered. -/
structure View.FirstUnordered {K E : Type} [Ord K] [Ord E] (v : View K E) (x : Extractor)
    (id : PartitionId) : Prop where
  unordered : ∃ i, v.indexAt? id x = some i ∧ i.isOrdered = false
  least : ∀ q j, v.indexAt? q x = some j → j.isOrdered = false → (compare id q).isLE

namespace OrderedMerged

variable {K E : Type} [Ord K] [Ord E]

/-- A query fails if some partition in scope keeps its index unordered, and the error names the lowest
of them. -/
structure Refuses (m : OrderedMerged K E) (result : Except Error (RangeResult K E)) : Prop where
  fails_iff : (∃ e, result = .error e) ↔ ∃ id i,
    m.base.view.indexAt? id m.base.extractor = some i ∧ i.isOrdered = false
  error_iff : ∀ e, result = .error e ↔ ∃ id,
    m.base.view.FirstUnordered m.base.extractor id ∧
      e = .unorderedPartition id.number m.base.extractor.name

/-- Ranges are refused because of unordered partitions, and for no other reason but that the bounds of
one between two values are in the wrong order. -/
structure RefusesUnordered [Inspect E] (m : OrderedMerged K E) : Prop where
  range : ∀ lower upper, m.Refuses (m.range lower upper)
  rangeBelow : ∀ v, m.Refuses (m.rangeBelow v)
  rangeFrom : ∀ v, m.Refuses (m.rangeFrom v)
  rangeBetween_invalid_iff : ∀ a b,
    (∃ reason, m.rangeBetween a b = .error (.invalidRange reason)) ↔ m.comparator.order a b = .gt
  rangeBetween_eq : ∀ a b, m.comparator.order a b ≠ .gt →
    m.rangeBetween a b = m.range (.included a) (.excluded b)

theorem error?_slice (x : Extractor) (lower upper : Bound (Option E))
    (part : PartitionId × Index K E) :
    error? (slice x lower upper part) =
      if part.2.isOrdered then none else some (.unorderedPartition part.1.number x.name) := by
  unfold slice Index.isOrdered Contents.isOrdered
  cases part.2.contents.ordered? <;> rfl

theorem range_eq_error_iff (m : OrderedMerged K E) (lower upper : Bound (Option E)) (e : Error) :
    m.range lower upper = .error e ↔
      ((m.base.view.indexes m.base.extractor).findSome? fun part =>
        error? (slice m.base.extractor lower upper part)) = some e := by
  rw [← mapM_eq_error_iff, range]
  cases (m.base.view.indexes m.base.extractor).mapM (slice m.base.extractor lower upper) <;>
    simp [bind, Except.bind, pure, Except.pure]

theorem findSome?_slice_iff (v : View K E) (x : Extractor) (lower upper : Bound (Option E))
    (e : Error) :
    ((v.indexes x).findSome? fun part => error? (slice x lower upper part)) = some e ↔
      ∃ id, v.FirstUnordered x id ∧ e = .unorderedPartition id.number x.name := by
  have hrefused : ∀ part : PartitionId × Index K E,
      error? (slice x lower upper part) = none ↔ ¬part.2.isOrdered = false := by
    intro part
    rw [error?_slice]
    cases part.2.isOrdered <;> simp
  have hfirst := fun part => (v.indexes_ascending x).first_iff_least part (·.2.isOrdered = false)
  constructor
  · intro h
    obtain ⟨before, ⟨id, i⟩, after, hsplit, herror, hbefore⟩ := List.findSome?_eq_some_iff.mp h
    obtain ⟨hmem, hleast⟩ := (hfirst (id, i)).mp
      ⟨before, after, hsplit, fun b hb => (hrefused b).mp (hbefore b hb)⟩
    rw [error?_slice] at herror
    split at herror
    next => cases herror
    next hi =>
      refine ⟨id, ⟨⟨i, (v.mem_indexes_iff x id i).mp hmem, by simpa using hi⟩, ?_⟩, ?_⟩
      · exact fun q j hj => hleast (q, j) ((v.mem_indexes_iff x q j).mpr hj)
      · exact (Option.some.inj herror).symm
  · rintro ⟨id, ⟨⟨i, hi, hunordered⟩, hleast⟩, rfl⟩
    obtain ⟨before, after, hsplit, hbefore⟩ := (hfirst (id, i)).mpr
      ⟨(v.mem_indexes_iff x id i).mpr hi,
        fun part hpart => hleast part.1 part.2 ((v.mem_indexes_iff x _ _).mp hpart)⟩
    refine List.findSome?_eq_some_iff.mpr ⟨before, (id, i), after, hsplit, ?_, ?_⟩
    · rw [error?_slice, hunordered]
      rfl
    · exact fun part hpart => (hrefused part).mpr (hbefore part hpart)

/-- A range is refused because of unordered partitions, whatever its bounds. -/
theorem refuses_range (m : OrderedMerged K E) (lower upper : Bound (Option E)) :
    m.Refuses (m.range lower upper) := by
  constructor
  · simp only [range_eq_error_iff]
    rw [← Option.isSome_iff_exists, List.isSome_findSome?, List.any_eq_true]
    constructor
    · rintro ⟨⟨id, i⟩, hi, hrefused⟩
      refine ⟨id, i, (m.base.view.mem_indexes_iff _ _ _).mp hi, ?_⟩
      rw [error?_slice] at hrefused
      cases h : i.isOrdered with
      | false => rfl
      | true => simp [h] at hrefused
    · rintro ⟨id, i, hi, hunordered⟩
      refine ⟨(id, i), (m.base.view.mem_indexes_iff _ _ _).mpr hi, ?_⟩
      rw [error?_slice, hunordered]
      rfl
  · intro e
    rw [range_eq_error_iff, findSome?_slice_iff]

theorem refusesUnordered [Inspect E] (m : OrderedMerged K E) : m.RefusesUnordered := by
  refine ⟨m.refuses_range, fun v => m.refuses_range _ _, fun v => m.refuses_range _ _, ?_, ?_⟩
  · intro a b
    unfold rangeBetween
    constructor
    · rintro ⟨reason, h⟩
      by_contra hle
      rw [if_neg hle, (m.refuses_range _ _).error_iff] at h
      obtain ⟨id, _, hcause⟩ := h
      cases hcause
    · intro hgt
      exact ⟨_, if_pos hgt⟩
  · intro a b hle
    rw [rangeBetween, if_neg hle]

/-! ### Ranges that fit together -/

variable [Std.TransOrd K] [Std.TransOrd E]

/-- The entries below a value, from there up to another, and from that on, are the entries of the range
without bounds: none is lost and none is repeated, as their values ascend, and each key that has a value
is in an entry of its class. The range from a value up to itself is empty. -/
structure Splits [Inspect E] (m : OrderedMerged K E) : Prop where
  append_eq : ∀ a b, m.comparator.order a b ≠ .gt → ∃ below middle above whole,
    m.rangeBelow a = .ok below ∧ m.rangeBetween a b = .ok middle ∧ m.rangeFrom b = .ok above ∧
      m.range .unbounded .unbounded = .ok whole ∧
      below.entries ++ middle.entries ++ above.entries = whole.entries
  empty : ∀ a, ∃ r, m.rangeBetween a a = .ok r ∧ r.entries = #[]
  ascending : ∀ whole, m.range .unbounded .unbounded = .ok whole →
    whole.entries.toList.Pairwise fun d e => m.comparator.order d.1 e.1 = .lt
  complete : ∀ whole, m.range .unbounded .unbounded = .ok whole → ∀ id i key v,
    m.base.view.indexAt? id m.base.extractor = some i → i.get key = .indexed v →
      ∃ e ∈ whole.entries, m.comparator.order e.1 v = .eq ∧ e.2.contains key = true

namespace Ordered

variable {m : OrderedMerged K E} (h : m.Ordered)
include h

/-- The entries of a range are those of its part below a value within it and of the part from there
on. -/
theorem filter_append (lower upper : Bound (Option E)) (v : Option E)
    (hlower : ∀ w, (Bound.included v).admitsAbove m.comparator.order w = true →
      lower.admitsAbove m.comparator.order w = true)
    (hupper : ∀ w, (Bound.excluded v).admitsBelow m.comparator.order w = true →
      upper.admitsBelow m.comparator.order w = true) :
    (m.whole.entries.filter fun e => Bound.between m.comparator.order lower (.excluded v) e.1) ++
      (m.whole.entries.filter fun e => Bound.between m.comparator.order (.included v) upper e.1) =
        m.whole.entries.filter fun e => Bound.between m.comparator.order lower upper e.1 := by
  have := h.uniform.transCmp
  apply Array.toList_inj.mp
  rw [Array.toList_append, Array.toList_filter, Array.toList_filter, Array.toList_filter]
  exact Bound.filter_between_append h.whole_gathered.ascending (Bound.admitsAbove_included v) hlower
    hupper

theorem rangeBetween_self [Inspect E] (a : Option E) :
    ∃ r, m.rangeBetween a a = .ok r ∧ r.entries = #[] := by
  have := h.uniform.transCmp
  have hself : m.comparator.order a a = .eq := Std.ReflCmp.compare_self
  refine ⟨_, (m.refusesUnordered.rangeBetween_eq a a (by simp [hself])).trans
    (h.range_eq_filter _ _), ?_⟩
  have hinverted : Bound.Inverted m.comparator.order (.included a) (.excluded a) := by
    show m.comparator.order a a ≠ .lt
    simp [hself]
  dsimp only
  rw [Array.filter_eq_empty_iff]
  intro e _
  rw [Bound.between_of_inverted hinverted]
  decide

theorem exists_gathered_of_get {id : PartitionId} {i : Index K E} {key : K} {v : Option E}
    (hi : m.base.view.indexAt? id m.base.extractor = some i) (hv : i.get key = .indexed v) :
    ∃ e ∈ m.whole.entries, m.comparator.order e.1 v = .eq ∧ e.2.contains key = true := by
  have := h.uniform.transCmp
  have hself : m.comparator.order v v = .eq := Std.ReflCmp.compare_self
  obtain ⟨e, he, hev⟩ := (h.exists_gathered_iff v).mpr
    ((Merged.exists_pooled_iff h.uniform v).mpr ⟨id, i, hi, key, v, hv, hself⟩)
  refine ⟨e, Array.mem_toList_iff.mp he, hev, ?_⟩
  rw [h.chain_eq_get he, Merged.get_congr h.uniform hev, Chain.contains_iff]
  exact (Merged.exists_member_iff h.uniform v key).mpr ⟨id, i, hi, v, hv, hself⟩

theorem splits [Inspect E] : m.Splits := by
  have := h.uniform.transCmp
  have hwhole : ∀ whole, m.range .unbounded .unbounded = .ok whole → m.whole = whole :=
    fun whole hw => Except.ok.inj (h.range_unbounded.symm.trans hw)
  refine ⟨?_, h.rangeBetween_self, ?_, ?_⟩
  · intro a b hab
    have hle : (m.comparator.order a b).isLE := Ordering.isLE_iff_ne_gt.mpr hab
    refine ⟨_, _, _, _, h.range_eq_filter _ _,
      (m.refusesUnordered.rangeBetween_eq a b hab).trans (h.range_eq_filter _ _),
      h.range_eq_filter _ _, h.range_unbounded, ?_⟩
    have hbelow := h.filter_append .unbounded (.excluded b) a (fun _ _ => rfl) ?_
    · dsimp only
      rw [hbelow, h.filter_append _ _ b (fun _ _ => rfl) (fun _ _ => rfl), Array.filter_eq_self]
      exact fun _ _ => rfl
    · intro w hw
      have hlt : m.comparator.order w a = .lt := Ordering.isLT_iff_eq_lt.mp hw
      exact Ordering.isLT_iff_eq_lt.mpr (Std.TransCmp.lt_of_lt_of_isLE hlt hle)
  · intro whole hw
    rw [← hwhole whole hw]
    exact h.whole_gathered.ascending
  · intro whole hw id i key v hi hv
    rw [← hwhole whole hw]
    exact h.exists_gathered_of_get hi hv

end Ordered

end OrderedMerged

namespace Composite

/-- **Ranges of an ordered composite split up.** A range is refused if a partition in scope is unordered,
and one between two values also if these are in the wrong order, whatever the comparator. If each index in
scope is reachable and ordered by the lawful comparator of the composite, the ranges below a value, from
there up to another, and from that on, have the entries of the range without bounds. -/
theorem ranges_split {K E : Type} [Ord K] [Ord E] [Std.TransOrd K] [Std.TransOrd E]
    [Std.LawfulEqOrd K] [Inspect E] (view : View K E) (x : Extractor) (c : Option (Comparator E)) :
    ∃ m, (ofView view x true c).contents = .ordered m ∧ m.base = ⟨view, x⟩ ∧
      m.comparator = .ensure c ∧ m.RefusesUnordered ∧
      ((SafeComparator.ensure c).Lawful →
        (∀ id i, view.indexAt? id x = some i → i.Reachable ∧ i.isOrdered = true ∧
          i.contents.order = (SafeComparator.ensure c).order) → m.Splits) := by
  refine ⟨⟨⟨view, x⟩, .ensure c⟩, rfl, rfl, rfl, OrderedMerged.refusesUnordered _, ?_⟩
  intro hc h
  exact (OrderedMerged.Ordered.of_reachable hc h).splits

theorem ranges_split_mixed_tens :
    (∃ m, (ofView Mixed.view ⟨"age"⟩ true none).contents = .ordered m ∧
      ∀ lower upper, m.range lower upper = .error (.unorderedPartition 0 "age")) ∧
    (SafeComparator.ensure (some Comparator.tens)).Lawful ∧
    (∀ id i, Tens.view.indexAt? id ⟨"age"⟩ = some i → i.Reachable ∧ i.isOrdered = true ∧
      i.contents.order = (SafeComparator.ensure (some Comparator.tens)).order) ∧
    ∃ m, (ofView Tens.view ⟨"age"⟩ true (some .tens)).contents = .ordered m ∧ m.Splits := by
  refine ⟨?_, Comparator.tens_lawful, Tens.ordered_alike, ?_⟩
  · obtain ⟨m, hm, hbase, _, hrefuses, _⟩ := ranges_split Mixed.view ⟨"age"⟩ none
    refine ⟨m, hm, fun lower upper => ((hrefuses.range lower upper).error_iff _).mpr ⟨⟨0⟩, ?_, ?_⟩⟩
    · rw [hbase]
      refine ⟨⟨Mixed.evens, Mixed.indexAt?_view.mpr (Or.inl ⟨rfl, rfl⟩), rfl⟩, fun q j _ _ => ?_⟩
      rw [PartitionId.compare_def]
      exact Std.isLE_compare.mpr UInt32.zero_le
    · rw [hbase]
  · obtain ⟨m, hm, _, _, _, hsplits⟩ := ranges_split Tens.view ⟨"age"⟩ (some .tens)
    exact ⟨m, hm, hsplits Comparator.tens_lawful Tens.ordered_alike⟩

end Composite

end PartitionedIndex
