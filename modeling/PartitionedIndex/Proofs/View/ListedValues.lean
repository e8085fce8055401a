import PartitionedIndex.Proofs.View.Lookup
import PartitionedIndex.Proofs.View.OrderedValues

/-! # The values that a composite lists

A composite gathers the values that the partitions in scope store, in no particular order. If it is
ordered, it sorts them by its own comparator, whatever comparators the partitions have, and keeps one of
each class; the least and the greatest it finds by going through the values once. In whatever order the
values are gathered, the list is strictly ascending, it has one value for each class that is stored, and
the least and the greatest are of the classes of its first and last value
(`OrderedValues.Represents`). If it is not ordered, it lists every value that is stored, in natural order.
Main statement: `listed_values_well_formed`. -/

namespace PartitionedIndex

/-! ### The least and the greatest -/

section rel

variable {α β : Type} {R S : α → β → Prop} {a : Option α} {b : Option β}

theorem rel_imp (hRS : ∀ x y, R x y → S x y) (h : Option.Rel R a b) : Option.Rel S a b := by
  cases h with
  | none => exact .none
  | some h => exact .some (hRS _ _ h)

theorem eq_none_iff_of_rel (h : Option.Rel R a b) : a = none ↔ b = none := by
  cases h with
  | none => exact iff_of_true rfl rfl
  | some => exact iff_of_false nofun nofun

end rel

section extremes

variable {V : Type} {order : V → V → Ordering}

/-- `best` is one of the items and none of them is less; it is missing only if there are none. -/
def PicksLeast (order : V → V → Ordering) (items : List V) (best : Option V) : Prop :=
  (best = none → items = []) ∧ ∀ a ∈ best, a ∈ items ∧ ∀ b ∈ items, (order a b).isLE

variable [Std.TransCmp order]

/-- Folding with a choice that is always one of the two, and above neither, leaves a least item. -/
theorem foldl_least {choose : V → V → V} (hone : ∀ a b, choose a b = a ∨ choose a b = b)
    (hleft : ∀ a b, (order (choose a b) a).isLE) (hright : ∀ a b, (order (choose a b) b).isLE)
    (a : V) (rest : List V) :
    rest.foldl choose a ∈ a :: rest ∧ ∀ b ∈ a :: rest, (order (rest.foldl choose a) b).isLE := by
  induction rest generalizing a with
  | nil =>
      refine ⟨List.mem_cons_self, fun b hb => ?_⟩
      rw [List.mem_singleton.mp hb]
      exact Std.ReflCmp.isLE_rfl
  | cons b rest ih =>
      obtain ⟨hmem, hleast⟩ := ih (choose a b)
      obtain ⟨hchosen, hrest⟩ := List.forall_mem_cons.mp hleast
      rw [List.foldl_cons]
      constructor
      · rcases List.mem_cons.mp hmem with heq | hmem
        · rw [heq]
          rcases hone a b with hab | hab
          · rw [hab]
            exact List.mem_cons_self
          · rw [hab]
            exact List.mem_cons_of_mem a List.mem_cons_self
        · exact List.mem_cons_of_mem a (List.mem_cons_of_mem b hmem)
      · refine List.forall_mem_cons.mpr ⟨?_, List.forall_mem_cons.mpr ⟨?_, hrest⟩⟩
        · exact Std.TransCmp.isLE_trans hchosen (hleft a b)
        · exact Std.TransCmp.isLE_trans hchosen (hright a b)

theorem picksLeast_reduce? {choose : V → V → V} (hone : ∀ a b, choose a b = a ∨ choose a b = b)
    (hleft : ∀ a b, (order (choose a b) a).isLE) (hright : ∀ a b, (order (choose a b) b).isLE)
    (items : List V) : PicksLeast order items (reduce? choose items) := by
  cases items with
  | nil => exact ⟨fun _ => rfl, nofun⟩
  | cons a rest =>
      refine ⟨nofun, fun m hm => ?_⟩
      obtain rfl := Option.some.inj hm
      exact foldl_least hone hleft hright a rest

theorem picksLeast_leastBy (items : List V) : PicksLeast order items (leastBy order items) := by
  refine picksLeast_reduce? ?_ ?_ ?_ items
  · intro a b
    exact (ite_eq_or_eq _ b a).symm
  · intro a b
    split
    next hab => exact Ordering.isLE_of_eq_lt (Std.OrientedCmp.lt_of_gt hab)
    next hab => exact Std.ReflCmp.isLE_rfl
  · intro a b
    split
    next hab => exact Std.ReflCmp.isLE_rfl
    next hab => exact Ordering.isLE_iff_ne_gt.mpr hab

theorem picksLeast_greatestBy (items : List V) :
    PicksLeast (fun a b => order b a) items (greatestBy order items) := by
  have : Std.TransCmp fun a b => order b a := Std.TransCmp.opposite
  refine picksLeast_reduce? ?_ ?_ ?_ items
  · intro a b
    exact ite_eq_or_eq _ a b
  · intro a b
    split
    next hab => exact Std.ReflCmp.isLE_rfl
    next hab => exact Ordering.isLE_iff_ne_gt.mpr hab
  · intro a b
    split
    next hab => exact Ordering.isLE_of_eq_lt (Std.OrientedCmp.lt_of_gt hab)
    next hab => exact Std.ReflCmp.isLE_rfl

variable {items values : List V} (hmem : ∀ v ∈ values, v ∈ items)
variable (hclass : ∀ v ∈ items, ∃ w ∈ values, order w v = .eq)
include hmem hclass

/-- The least of the items is of the class of the first value, if the values ascend and represent the
items. -/
theorem rel_head?_of_picksLeast (hasc : Ascending order id values) {best : Option V}
    (hbest : PicksLeast order items best) :
    Option.Rel (fun a b => order a b = .eq) best values.head? := by
  obtain ⟨hnone, hleast⟩ := hbest
  cases best with
  | none =>
      have hitems := hnone rfl
      subst hitems
      rw [List.eq_nil_iff_forall_not_mem.mpr fun v hv => List.not_mem_nil (hmem v hv)]
      exact .none
  | some m =>
      obtain ⟨hmemm, hleast⟩ := hleast m rfl
      obtain ⟨u, hu, hum⟩ := hclass m hmemm
      cases values with
      | nil => cases hu
      | cons w ws =>
          have hwu : (order w u).isLE := by
            rcases List.mem_cons.mp hu with rfl | hu
            · exact Std.ReflCmp.isLE_rfl
            · exact Ordering.isLE_of_eq_lt ((Ascending.cons_iff.mp hasc).1 u hu)
          have hwm : (order w m).isLE :=
            Std.TransCmp.isLE_trans hwu (Ordering.isLE_of_eq_eq hum)
          exact .some (Std.OrientedCmp.isLE_antisymm (hleast w (hmem w List.mem_cons_self)) hwm)

theorem rel_greatestBy_getLast? (hasc : Ascending order id values) :
    Option.Rel (fun a b => order a b = .eq) (greatestBy order items) values.getLast? := by
  have : Std.TransCmp fun a b => order b a := Std.TransCmp.opposite
  have hreversed : ∀ v ∈ items, ∃ w ∈ values.reverse, order v w = .eq := by
    intro v hv
    obtain ⟨w, hw, hwv⟩ := hclass v hv
    exact ⟨w, List.mem_reverse.mpr hw, Std.OrientedCmp.eq_symm hwv⟩
  have hdesc : Ascending (fun a b => order b a) id values.reverse := List.pairwise_reverse.mpr hasc
  rw [← List.head?_reverse]
  exact rel_imp (fun _ _ h => Std.OrientedCmp.eq_symm h)
    (rel_head?_of_picksLeast (fun v hv => hmem v (List.mem_reverse.mp hv)) hreversed hdesc
      (picksLeast_greatestBy items))

end extremes

variable {K E : Type} [Ord K] [Ord E]

/-! ### One value of each class -/

/-- The values listed ascend strictly, are stored, and are one for each class that is stored; looking for
a value finds its class; and `first` and `last`, if anything is stored, are of the classes of the first
and the last value. -/
structure OrderedValues.Represents (o : OrderedValues E) (stored : Option E → Prop)
    (first last : Option (Option E)) : Prop where
  ascending : o.values.toList.Pairwise fun v w => o.comparator.order v w = .lt
  stored_of_mem : ∀ v ∈ o.values.toList, stored v
  exists_unique : ∀ v, stored v → ∃! w, w ∈ o.values.toList ∧ o.comparator.order w v = .eq
  contains_iff : ∀ v, o.contains v = true ↔ ∃ w, stored w ∧ o.comparator.order w v = .eq
  first_eq_none_iff : first = none ↔ o.values.toList = []
  last_eq_none_iff : last = none ↔ o.values.toList = []
  first_rel : Option.Rel (fun v w => o.comparator.order v w = .eq) first o.first?
  last_rel : Option.Rel (fun v w => o.comparator.order v w = .eq) last o.last?

/-- In whatever order the stored values come, those listed represent them. -/
theorem OrderedValues.represents_ofList {c : SafeComparator E} (hc : c.Lawful)
    {items : List (Option E)} {stored : Option E → Prop} (h : ∀ v, v ∈ items ↔ stored v) :
    (ofList c items).Represents stored (leastBy c.order items) (greatestBy c.order items) := by
  have := hc.transCmp
  have hasc : Ascending c.order id (ofList c items).values.toList := ofList_ascending items
  have hmem : ∀ v ∈ (ofList c items).values.toList, v ∈ items := fun v => mem_of_mem_ofList
  have hclass : ∀ v ∈ items, ∃ w ∈ (ofList c items).values.toList, c.order w v = .eq :=
    fun v hv => exists_mem_ofList items hv
  have hfirst := rel_head?_of_picksLeast hmem hclass hasc (picksLeast_leastBy items)
  have hlast := rel_greatestBy_getLast? hmem hclass hasc
  refine ⟨hasc, fun v hv => (h v).mp (hmem v hv), ?_, ?_, ?_, ?_, hfirst, hlast⟩
  · intro v hv
    obtain ⟨w, hw, hwv⟩ := hclass v ((h v).mpr hv)
    refine ⟨w, ⟨hw, hwv⟩, ?_⟩
    rintro u ⟨hu, huv⟩
    exact hasc.eq_of_mem hu hw (Std.TransCmp.eq_trans huv (Std.OrientedCmp.eq_symm hwv))
  · intro v
    rw [contains_ofList_iff]
    simp only [h]
    rfl
  · rw [eq_none_iff_of_rel hfirst, List.head?_eq_none_iff]
  · rw [eq_none_iff_of_rel hlast, List.getLast?_eq_none_iff]

variable [Std.TransOrd E]

namespace View

/-- Some partition in scope stores the value. -/
def Stores (v : View K E) (x : Extractor) (value : Option E) : Prop :=
  ∃ id i, v.indexAt? id x = some i ∧ value ∈ i.contents.values

end View

theorem Merged.mem_values_iff_stores [Std.LawfulEqOrd E] (m : Merged K E) (v : Option E) :
    v ∈ m.values.toList ↔ m.view.Stores m.extractor v := by
  classical
  rw [values, Std.ExtTreeSet.mem_toList, Std.ExtTreeSet.mem_ofList, List.contains_iff_mem,
    List.mem_flatMap]
  unfold parts View.Stores
  simp only [List.mem_map, Prod.exists, View.mem_indexes_iff]
  constructor
  · rintro ⟨_, ⟨id, i, hi, rfl⟩, hv⟩
    exact ⟨id, i, hi, hv⟩
  · rintro ⟨id, i, hi, hv⟩
    exact ⟨_, ⟨id, i, hi, rfl⟩, hv⟩

/-- Ordered contents list one value of each class that is stored, as many as their size says, in whatever
order the values are gathered. -/
structure OrderedMerged.ListsClasses (m : OrderedMerged K E) : Prop where
  represents : m.values.Represents (m.base.view.Stores m.base.extractor) m.first? m.last?
  values_eq : (MergedContents.ordered m).values = m.values.values.toList
  size_eq : (MergedContents.ordered m).size = (MergedContents.ordered m).values.length
  gathered : ∀ items : List (Option E), items.Perm m.base.values.toList →
    (OrderedValues.ofList m.comparator items).Represents (m.base.view.Stores m.base.extractor)
        (leastBy m.comparator.order items) (greatestBy m.comparator.order items) ∧
      List.Forall₂ (fun v w => m.comparator.order v w = .eq)
        (OrderedValues.ofList m.comparator items).values.toList m.values.values.toList

/-- Unordered contents list the values that are stored in natural order, null first, as many as their size
says, in whatever order the values are gathered. -/
structure Merged.ListsValues (m : Merged K E) : Prop where
  mem_iff : ∀ v, v ∈ (MergedContents.unordered m).values ↔ m.view.Stores m.extractor v
  ascending : (MergedContents.unordered m).values.Pairwise fun v w => compare v w = .lt
  null_first : m.view.Stores m.extractor none → (MergedContents.unordered m).values.head? = some none
  size_eq : (MergedContents.unordered m).size = (MergedContents.unordered m).values.length
  gathered : ∀ items : List (Option E), items.Perm m.values.toList →
    (items.mergeSort fun v w => (compare v w).isLE) = (MergedContents.unordered m).values

variable [Std.LawfulEqOrd E]

theorem OrderedMerged.listsClasses {m : OrderedMerged K E} (hc : m.comparator.Lawful) :
    m.ListsClasses := by
  have := hc.transCmp
  refine ⟨OrderedValues.represents_ofList hc m.base.mem_values_iff_stores, rfl,
    MergedContents.size_eq_length _, ?_⟩
  intro items hperm
  have hitems : ∀ v, v ∈ items ↔ m.base.view.Stores m.base.extractor v :=
    fun v => hperm.mem_iff.trans (m.base.mem_values_iff_stores v)
  refine ⟨OrderedValues.represents_ofList hc hitems, ?_⟩
  refine Ascending.forall₂ (OrderedValues.ofList_ascending items)
    (OrderedValues.ofSet_ascending m.base.values) (fun _ _ h => h) ?_ ?_
  · intro v hv
    have hmem := hperm.mem_iff.mp (OrderedValues.mem_of_mem_ofList hv)
    obtain ⟨w, hw, hwv⟩ := OrderedValues.exists_mem_ofSet (c := m.comparator) m.base.values hmem
    exact ⟨w, hw, Std.OrientedCmp.eq_symm hwv⟩
  · intro w hw
    have hmem := hperm.mem_iff.mpr (OrderedValues.mem_of_mem_ofSet m.base.values hw)
    exact OrderedValues.exists_mem_ofList items hmem

theorem Merged.listsValues (m : Merged K E) : m.ListsValues := by
  have hasc : Ascending compare id m.values.toList := Std.ExtTreeSet.ordered_toList (t := m.values)
  refine ⟨m.mem_values_iff_stores, hasc, ?_, MergedContents.size_eq_length _, ?_⟩
  · intro hnull
    have hmem := (m.mem_values_iff_stores none).mpr hnull
    show m.values.toList.head? = some none
    cases hlist : m.values.toList with
    | nil =>
        rw [hlist] at hmem
        cases hmem
    | cons v rest =>
        rw [hlist] at hasc hmem
        rcases List.mem_cons.mp hmem with rfl | hmem
        · rfl
        · have hlt := (Ascending.cons_iff.mp hasc).1 none hmem
          rw [id, id, ← SafeComparator.order_natural] at hlt
          exact absurd hlt (SafeComparator.order_none_ne_lt _ v)
  · intro items hperm
    have hsorted : (items.mergeSort fun v w => (compare v w).isLE).Pairwise
        fun v w => (compare v w).isLE := pairwise_mergeSort id items
    have hvalues : m.values.toList.Pairwise fun v w => (compare v w).isLE :=
      hasc.imp Ordering.isLE_of_eq_lt
    refine List.Perm.eq_of_pairwise ?_ hsorted hvalues ((List.mergeSort_perm items _).trans hperm)
    intro v w _ _ hvw hwv
    exact Std.LawfulEqOrd.eq_of_compare (Std.OrientedCmp.isLE_antisymm hvw hwv)

namespace Composite

/-- **The values that a composite lists are well formed**, whatever kinds and comparators the indexes in
scope have. An ordered composite lists one value of each class of its comparator, an unordered one all
values. -/
theorem listed_values_well_formed (view : View K E) (x : Extractor) :
    (∀ c, (SafeComparator.ensure c).Lawful → ∃ m, (ofView view x true c).contents = .ordered m ∧
        m.base = ⟨view, x⟩ ∧ m.comparator = .ensure c ∧ m.ListsClasses) ∧
      ∀ c, ∃ m, (ofView view x false c).contents = .unordered m ∧ m = ⟨view, x⟩ ∧ m.ListsValues := by
  constructor
  · exact fun c hc => ⟨_, rfl, rfl, rfl, OrderedMerged.listsClasses hc⟩
  · exact fun c => ⟨_, rfl, rfl, Merged.listsValues _⟩

/-- Seventeen is found although only twelve is stored, and null is listed first. -/
theorem listed_values_well_formed_mixed :
    (SafeComparator.ensure (some Comparator.tens)).Lawful ∧
      (∃ m, (ofView Mixed.view ⟨"age"⟩ true (some .tens)).contents = .ordered m ∧
        m.ListsClasses ∧ m.values.contains (some 17) = true) ∧
      ∃ m, (ofView Mixed.view ⟨"age"⟩ false none).contents = .unordered m ∧
        m.ListsValues ∧ (MergedContents.unordered m).values.head? = some none := by
  obtain ⟨hordered, hunordered⟩ := listed_values_well_formed Mixed.view ⟨"age"⟩
  obtain ⟨m, hm, hbase, hcomparator, hclasses⟩ := hordered (some .tens) Comparator.tens_lawful
  obtain ⟨n, hn, hnbase, hlists⟩ := hunordered none
  have hevens : Mixed.view.indexAt? ⟨0⟩ ⟨"age"⟩ = some Mixed.evens :=
    Mixed.indexAt?_view.mpr (Or.inl ⟨rfl, rfl⟩)
  refine ⟨Comparator.tens_lawful, ⟨m, hm, hclasses, ?_⟩, n, hn, hlists, hlists.null_first ?_⟩
  · refine (hclasses.represents.contains_iff _).mpr ⟨some 12, ?_, ?_⟩
    · rw [hbase]
      exact ⟨⟨0⟩, Mixed.evens, hevens, by decide⟩
    · show m.comparator.order (some 12) (some 17) = .eq
      rw [hcomparator]
      decide
  · rw [hnbase]
    exact ⟨⟨0⟩, Mixed.evens, hevens, by decide⟩

end Composite

end PartitionedIndex
