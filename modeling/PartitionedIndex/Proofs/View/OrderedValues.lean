import PartitionedIndex.View.OrderedValues
import PartitionedIndex.Proofs.Bisection
import PartitionedIndex.Proofs.Comparator

/-! # Listing one value of each class

Sorting values and dropping those that compare equal to the last one kept leaves one value of each
class, ascending: the values that are kept are among those given, and every value given is of the
class of one that is kept. Looking a value up by bisection therefore tells whether a value of its
class was given. -/

namespace PartitionedIndex

section repeats

variable {V : Type} {order : V → V → Ordering}

theorem mem_of_mem_dropEqual {kept b : V} {items : List V} (h : b ∈ dropEqual order kept items) :
    b ∈ items := by
  fun_induction dropEqual order kept items with
  | case1 kept => cases h
  | case2 kept a rest heq ih => exact List.mem_cons_of_mem _ (ih h)
  | case3 kept a rest hne ih =>
      rcases List.mem_cons.mp h with rfl | h
      · exact List.mem_cons_self
      · exact List.mem_cons_of_mem _ (ih h)

theorem mem_of_mem_dropRepeats {b : V} {items : List V} (h : b ∈ dropRepeats order items) :
    b ∈ items := by
  cases items with
  | nil => cases h
  | cons a rest =>
      rcases List.mem_cons.mp h with rfl | h
      · exact List.mem_cons_self
      · exact List.mem_cons_of_mem _ (mem_of_mem_dropEqual h)

variable [Std.TransCmp order]

theorem exists_dropEqual {kept a : V} {items : List V} (ha : a ∈ kept :: items) :
    ∃ b ∈ kept :: dropEqual order kept items, order b a = .eq := by
  fun_induction dropEqual order kept items generalizing a with
  | case1 kept => exact ⟨a, ha, Std.ReflCmp.compare_self⟩
  | case2 kept d rest heq ih =>
      rcases List.mem_cons.mp ha with rfl | ha
      · exact ⟨a, List.mem_cons_self, Std.ReflCmp.compare_self⟩
      · rcases List.mem_cons.mp ha with rfl | ha
        · exact ⟨kept, List.mem_cons_self, Std.OrientedCmp.eq_symm heq⟩
        · exact ih (List.mem_cons_of_mem _ ha)
  | case3 kept d rest hne ih =>
      rcases List.mem_cons.mp ha with rfl | ha
      · exact ⟨a, List.mem_cons_self, Std.ReflCmp.compare_self⟩
      · obtain ⟨b, hb, hba⟩ := ih ha
        exact ⟨b, List.mem_cons_of_mem _ hb, hba⟩

/-- What is kept ascends if the values do not descend. -/
theorem dropEqual_ascending {kept : V} {items : List V}
    (h : (kept :: items).Pairwise fun a b => (order a b).isLE) :
    Ascending order id (kept :: dropEqual order kept items) := by
  fun_induction dropEqual order kept items with
  | case1 kept => exact List.pairwise_singleton _ _
  | case2 kept a rest heq ih => exact ih (h.sublist (by simp))
  | case3 kept a rest hne ih =>
      obtain ⟨hkept, hrest⟩ := List.pairwise_cons.mp h
      have hlt : order kept a = .lt :=
        (Ordering.isLE_iff_eq_lt_or_eq_eq.mp (hkept a List.mem_cons_self)).resolve_right
          fun heq => hne (Std.OrientedCmp.eq_symm heq)
      have hasc := ih hrest
      refine Ascending.cons_iff.mpr ⟨?_, hasc⟩
      intro b hb
      rcases List.mem_cons.mp hb with rfl | hb
      · exact hlt
      · exact Std.TransCmp.lt_trans hlt ((Ascending.cons_iff.mp hasc).1 b hb)

theorem exists_dropRepeats {a : V} {items : List V} (ha : a ∈ items) :
    ∃ b ∈ dropRepeats order items, order b a = .eq := by
  cases items with
  | nil => cases ha
  | cons d rest => exact exists_dropEqual ha

theorem dropRepeats_ascending {items : List V}
    (h : items.Pairwise fun a b => (order a b).isLE) :
    Ascending order id (dropRepeats order items) := by
  cases items with
  | nil => exact Ascending.nil
  | cons d rest => exact dropEqual_ascending h

end repeats

namespace OrderedValues

variable {E : Type} [Ord E]

/-- The values of a list in the order of a comparator, one of each class. -/
def ofList (comparator : SafeComparator E) (items : List (Option E)) : OrderedValues E where
  comparator
  values :=
    (dropRepeats comparator.order
      (items.mergeSort fun a b => (comparator.order a b).isLE)).toArray

variable {c : SafeComparator E}

theorem mem_of_mem_ofList {items : List (Option E)} {v : Option E}
    (h : v ∈ (ofList c items).values.toList) : v ∈ items :=
  List.mem_mergeSort.mp (mem_of_mem_dropRepeats h)

section lawful

variable [Std.TransCmp c.order] (items : List (Option E))

theorem ofList_ascending : Ascending c.order id (ofList c items).values.toList :=
  dropRepeats_ascending (pairwise_mergeSort id items)

theorem exists_mem_ofList {v : Option E} (h : v ∈ items) :
    ∃ w ∈ (ofList c items).values.toList, c.order w v = .eq :=
  exists_dropRepeats (List.mem_mergeSort.mpr h)

/-- Bisection finds a value if one of its class is given. -/
theorem contains_ofList_iff (v : Option E) :
    (ofList c items).contains v = true ↔ ∃ w ∈ items, c.order w v = .eq := by
  have hasc : Ascending c.order id (ofList c items).values.toList := ofList_ascending items
  refine (Bisection.isSome_find?_iff hasc v).trans ?_
  constructor
  · rintro ⟨w, hw, heq⟩
    exact ⟨w, mem_of_mem_ofList hw, heq⟩
  · rintro ⟨w, hw, heq⟩
    obtain ⟨u, hu, huw⟩ := exists_mem_ofList (c := c) items hw
    exact ⟨u, hu, Std.TransCmp.eq_trans huw heq⟩

end lawful

variable [Std.TransOrd E] [Std.TransCmp c.order] (set : Std.ExtTreeSet (Option E))

theorem ofSet_ascending : Ascending c.order id (ofSet c set).values.toList :=
  ofList_ascending set.toList

omit [Std.TransCmp c.order] in
theorem mem_of_mem_ofSet {v : Option E} (h : v ∈ (ofSet c set).values.toList) : v ∈ set.toList :=
  mem_of_mem_ofList h

theorem exists_mem_ofSet {v : Option E} (h : v ∈ set.toList) :
    ∃ w ∈ (ofSet c set).values.toList, c.order w v = .eq :=
  exists_mem_ofList set.toList h

theorem ofSet_eq_of_ascending {values : List (Option E)} (h : Ascending c.order id values)
    (hset : ∀ v, v ∈ set.toList ↔ v ∈ values) : (ofSet c set).values.toList = values := by
  refine (ofSet_ascending set).eq_of_mem_iff h fun v => ?_
  constructor
  · intro hv
    exact (hset v).mp (mem_of_mem_ofSet set hv)
  · intro hv
    obtain ⟨w, hw, hwv⟩ := exists_mem_ofSet (c := c) set ((hset v).mpr hv)
    have hkept := (hset w).mp (mem_of_mem_ofSet set hw)
    rw [← h.eq_of_mem hkept hv hwv]
    exact hw

theorem contains_ofSet_iff (v : Option E) :
    (ofSet c set).contains v = true ↔ ∃ w ∈ set.toList, c.order w v = .eq :=
  contains_ofList_iff set.toList v

end OrderedValues

end PartitionedIndex
