import PartitionedIndex.Proofs.Index.Representation

/-! # Ranges of one index

A range is cut out of the entries between two positions that bisection finds. The cut is never out of
bounds (`Sorted.slice?_startOf_stopOf`), it holds the entries whose value is within the bounds, and
ranges that meet make up one range (`Sorted.between_append`). The keys listed for these entries are
those whose own value is within the bounds, although an entry may keep another value of its class. So
a range of any two bounds lists what it should, each key once and by values that never descend
(`RangesExact`). Main statement: `run_ordered_ranges_exact`. -/

namespace PartitionedIndex

namespace Sorted

variable {K E : Type} [Ord K] [Ord E]

/-! ### Cutting a range out -/

/-- The position from which on a lower bound admits entries. -/
def startOf (s : Sorted K E) (lower : Bound (Option E)) : Nat :=
  Bisection.partitionPoint (fun e => !lower.admitsAbove s.order e.1) s.entries

/-- The position up to which an upper bound admits entries. -/
def stopOf (s : Sorted K E) (upper : Bound (Option E)) : Nat :=
  Bisection.partitionPoint (fun e => upper.admitsBelow s.order e.1) s.entries

/-- The entries from one position up to another. There are none if the second is not behind the first;
otherwise it fails if there are not so many entries. -/
def slice? (s : Sorted K E) (start stop : Nat) : Option (List (Option E × KeySet K)) :=
  if start < stop then
    if stop ≤ s.entries.size then some ((s.entries.toList.drop start).take (stop - start)) else none
  else some []

/-- The cut for a range never fails: it ends within the entries. -/
theorem slice?_startOf_stopOf (s : Sorted K E) (lower upper : Bound (Option E)) :
    s.slice? (s.startOf lower) (s.stopOf upper) = some (s.between lower upper) := by
  have hcut : s.between lower upper =
      (s.entries.toList.drop (s.startOf lower)).take (s.stopOf upper - s.startOf lower) := by
    show (s.entries.extract (s.startOf lower) (s.stopOf upper)).toList = _
    rw [Array.toList_extract, List.extract_eq_take_drop]
  have hstop : s.stopOf upper ≤ s.entries.size := Bisection.partitionPoint_le _ _
  by_cases hlt : s.startOf lower < s.stopOf upper
  · rw [slice?, if_pos hlt, if_pos hstop, hcut]
  · rw [slice?, if_neg hlt, hcut, Nat.sub_eq_zero_of_le (by omega), List.take_zero]

/-! ### Ranges that meet -/

section strict

variable {s : Sorted K E} [Std.TransCmp s.order] (h : s.Strict)
include h

theorem between_append {lower stop start upper : Bound (Option E)}
    (hmeet : ∀ v, start.admitsAbove s.order v = !stop.admitsBelow s.order v)
    (hlower : ∀ v, start.admitsAbove s.order v = true → lower.admitsAbove s.order v = true)
    (hupper : ∀ v, stop.admitsBelow s.order v = true → upper.admitsBelow s.order v = true) :
    s.between lower stop ++ s.between start upper = s.between lower upper := by
  rw [between_eq_filter h, between_eq_filter h, between_eq_filter h]
  exact Bound.filter_between_append h hmeet hlower hupper

variable [Std.TransOrd K]

theorem keysFrom_eq (v : Option E) : s.keysFrom v = s.keysWithin v v ++ s.keysAbove v := by
  have hmeet : s.between (.included v) (.included v) ++ s.between (.excluded v) .unbounded =
      s.between (.included v) .unbounded := by
    refine between_append h (Bound.admitsAbove_excluded v) ?_ (fun _ _ => rfl)
    intro w hw
    exact Ordering.isGE_iff_ne_lt.mpr fun hlt => by simp [Bound.admitsAbove, hlt] at hw
  rw [keysFrom, keysWithin, keysAbove, keysBetween, keysBetween, keysBetween, ← List.flatMap_append,
    hmeet]

theorem keysBelow_append_keysFrom (v : Option E) :
    s.keysBelow v ++ s.keysFrom v = s.keysBetween .unbounded .unbounded := by
  have hmeet : s.between .unbounded (.excluded v) ++ s.between (.included v) .unbounded =
      s.between .unbounded .unbounded :=
    between_append h (Bound.admitsAbove_included v) (fun _ _ => rfl) (fun _ _ => rfl)
  rw [keysBelow, keysFrom, keysBetween, keysBetween, keysBetween, ← List.flatMap_append, hmeet]

end strict

end Sorted

namespace Index

variable {K E : Type} [Ord K] [Ord E] [Std.TransOrd K] [Std.TransOrd E]

/-- Ranges of the entries `s` of the index `i` are exact, whatever their bounds: they are cut out
within bounds and hold the entries that are between the bounds, and their keys are those whose value is
between the bounds, each once and by values that never descend. A value divides the keys into those
below it, those at it and those above it. -/
structure RangesExact (i : Index K E) (s : Sorted K E) : Prop where
  slice_eq : ∀ lower upper,
    s.slice? (s.startOf lower) (s.stopOf upper) = some (s.between lower upper)
  between_eq : ∀ lower upper, s.between lower upper =
    s.entries.toList.filter fun e => Bound.between s.order lower upper e.1
  nodup : ∀ lower upper, (s.keysBetween lower upper).Nodup
  mem_iff : ∀ lower upper key, key ∈ s.keysBetween lower upper ↔
    ∃ v, i.get key = .indexed v ∧ Bound.between s.order lower upper v = true
  ascending : ∀ lower upper, (s.keysBetween lower upper).Pairwise fun k l =>
    ∀ v w, i.get k = .indexed v → i.get l = .indexed w → (s.order v w).isLE
  eq_nil_of_inverted : ∀ lower upper, Bound.Inverted s.order lower upper →
    s.keysBetween lower upper = []
  divides : ∀ v, (s.keysBelow v ++ s.keysWithin v v ++ s.keysAbove v).Perm i.forward.keys
  keysFrom_eq : ∀ v, s.keysFrom v = s.keysWithin v v ++ s.keysAbove v

namespace Coherent

variable [Std.LawfulEqOrd K] {i : Index K E} {s : Sorted K E}
variable (h : i.Coherent) (hs : i.contents = .ordered s)
include h hs

omit [Std.LawfulEqOrd K] in
theorem mem_between_iff (lower upper : Bound (Option E)) (e : Option E × KeySet K) :
    e ∈ s.between lower upper ↔
      e ∈ i.contents.entries ∧ Bound.between s.order lower upper e.1 = true := by
  have := h.transCmp_of_ordered hs
  rw [Sorted.between_eq_filter (h.strict_of_ordered hs), List.mem_filter, hs]
  rfl

theorem keysBetween_unbounded_perm : (s.keysBetween .unbounded .unbounded).Perm i.forward.keys := by
  have := h.transCmp_of_ordered hs
  have hperm := h.keys_perm
  rw [hs] at hperm
  rw [Sorted.keysBetween, Sorted.between_eq_filter (h.strict_of_ordered hs),
    Bound.filter_between_unbounded]
  exact hperm

theorem nodup_keysBetween (lower upper : Bound (Option E)) : (s.keysBetween lower upper).Nodup := by
  have := h.transCmp_of_ordered hs
  have hall := (h.keysBetween_unbounded_perm hs).nodup_iff.mpr Std.ExtTreeMap.nodup_keys
  refine List.Nodup.sublist (List.Sublist.flatMap ?_ _) hall
  rw [Sorted.between_eq_filter (h.strict_of_ordered hs),
    Sorted.between_eq_filter (h.strict_of_ordered hs), Bound.filter_between_unbounded]
  exact List.filter_sublist

omit [Std.LawfulEqOrd K] in
theorem order_of_mem_between {lower upper : Bound (Option E)} {e : Option E × KeySet K}
    (he : e ∈ s.between lower upper) {key : K} (hk : key ∈ e.2) {v : Option E}
    (hv : i.get key = .indexed v) : s.order v e.1 = .eq := by
  have hmem := ((h.mem_between_iff hs lower upper e).mp he).1
  obtain ⟨w, hw, heq⟩ := h.hasValue_of_mem hmem hk
  obtain rfl := Lookup.indexed.inj (hv.symm.trans hw)
  rw [hs] at heq
  exact heq

/-- A key is listed if its value is between the bounds, whichever value its entry keeps. -/
theorem mem_keysBetween_iff (lower upper : Bound (Option E)) (key : K) :
    key ∈ s.keysBetween lower upper ↔
      ∃ v, i.get key = .indexed v ∧ Bound.between s.order lower upper v = true := by
  have := h.transCmp_of_ordered hs
  rw [Sorted.keysBetween, List.mem_flatMap]
  constructor
  · rintro ⟨e, he, hk⟩
    have hk := Std.ExtTreeSet.mem_toList.mp hk
    obtain ⟨hmem, hin⟩ := (h.mem_between_iff hs lower upper e).mp he
    obtain ⟨v, hv, _⟩ := h.hasValue_of_mem hmem hk
    refine ⟨v, hv, ?_⟩
    rw [Bound.between_congr lower upper (h.order_of_mem_between hs he hk hv)]
    exact hin
  · rintro ⟨v, hv, hin⟩
    obtain ⟨e, hmem, heq, hk⟩ := h.exists_entry hv
    rw [hs, Contents.order_ordered] at heq
    refine ⟨e, (h.mem_between_iff hs lower upper e).mpr ⟨hmem, ?_⟩, Std.ExtTreeSet.mem_toList.mpr hk⟩
    rw [Bound.between_congr lower upper heq]
    exact hin

/-- The values of the keys listed never descend: within an entry they are of one class, and the entries
ascend. -/
theorem keysBetween_ascending (lower upper : Bound (Option E)) :
    (s.keysBetween lower upper).Pairwise fun k l =>
      ∀ v w, i.get k = .indexed v → i.get l = .indexed w → (s.order v w).isLE := by
  have := h.transCmp_of_ordered hs
  have hasc : (s.between lower upper).Pairwise fun d e => s.order d.1 e.1 = .lt := by
    rw [Sorted.between_eq_filter (h.strict_of_ordered hs)]
    exact (h.strict_of_ordered hs).sublist List.filter_sublist
  have hclass : ∀ e ∈ s.between lower upper, ∀ k ∈ e.2.toList, ∀ v, i.get k = .indexed v →
      s.order v e.1 = .eq :=
    fun e he k hk v hv => h.order_of_mem_between hs he (Std.ExtTreeSet.mem_toList.mp hk) hv
  rw [Sorted.keysBetween, List.pairwise_flatMap]
  constructor
  · intro e he
    refine List.pairwise_of_forall_mem_list fun k hk l hl v w hv hw => ?_
    rw [Std.TransCmp.eq_trans (hclass e he k hk v hv)
      (Std.OrientedCmp.eq_symm (hclass e he l hl w hw))]
    rfl
  · refine hasc.imp_of_mem fun hd he hlt k hk l hl v w hv hw => ?_
    rw [Std.TransCmp.congr_left (hclass _ hd k hk v hv),
      Std.TransCmp.congr_right (hclass _ he l hl w hw), hlt]
    rfl

theorem rangesExact : i.RangesExact s := by
  have := h.transCmp_of_ordered hs
  have hstrict := h.strict_of_ordered hs
  refine ⟨s.slice?_startOf_stopOf, Sorted.between_eq_filter hstrict, h.nodup_keysBetween hs,
    h.mem_keysBetween_iff hs, h.keysBetween_ascending hs, ?_, ?_, Sorted.keysFrom_eq hstrict⟩
  · intro lower upper hinverted
    rw [List.eq_nil_iff_forall_not_mem]
    intro key hk
    obtain ⟨v, _, hin⟩ := (h.mem_keysBetween_iff hs lower upper key).mp hk
    rw [Bound.between_of_inverted hinverted] at hin
    cases hin
  · intro v
    rw [List.append_assoc, ← Sorted.keysFrom_eq hstrict, Sorted.keysBelow_append_keysFrom hstrict]
    exact h.keysBetween_unbounded_perm hs

end Coherent

/-- **Ranges of an ordered index are exact.** Whatever writes are made to an empty index with a lawful
comparator, every range of it, with bounds of any kind and in any order, lists exactly the keys whose
value is between the bounds. -/
theorem run_ordered_ranges_exact [Std.LawfulEqOrd K] (spec : IndexSpec) (c : Option (Comparator E))
    (hc : (SafeComparator.ensure c).Lawful) (writes : List (Write K E)) :
    ∃ s, ((Index.ordered spec c).run writes).contents = .ordered s ∧ s.declared = c ∧
      RangesExact ((Index.ordered spec c).run writes) s := by
  have hcoherent := (Coherent.ordered (K := K) spec hc).run writes
  obtain ⟨s, hs, hd⟩ := exists_run_ordered spec c writes
  exact ⟨s, hs, hd, hcoherent.rangesExact hs⟩

/-- Ages by their tens: twelve makes an entry and leaves it, so the age of the key in it is another. -/
def teens : List (Write UInt64 Int64) :=
  [.insert 1 (some 12), .insert 2 (some 17), .insert 3 none, .insert 4 (some 25), .delete 1]

theorem run_ordered_ranges_exact_teens :
    (SafeComparator.ensure (some Comparator.tens)).Lawful ∧
      ∃ s, ((Index.ordered ⟨⟨"age"⟩, false⟩ (some .tens)).run teens).contents = .ordered s ∧
        s.declared = some .tens ∧
        RangesExact ((Index.ordered ⟨⟨"age"⟩, false⟩ (some .tens)).run teens) s :=
  ⟨Comparator.tens_lawful, run_ordered_ranges_exact ⟨⟨"age"⟩, false⟩ (some .tens)
    Comparator.tens_lawful teens⟩

end Index

end PartitionedIndex
