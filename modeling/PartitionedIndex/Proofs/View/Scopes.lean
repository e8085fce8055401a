import PartitionedIndex.Proofs.View.Independence

/-! # How answers follow the scope

A composite over the union of two explicit scopes answers from what the composites over each of them
answer (`Composite.Unites`): partitions that both name count once, and those that do not exist
contribute nothing. If no partition is in both, chains are put together member by member
(`Composite.Adds`). The scope of all partitions is that of the explicit set of them, with or without
others that do not exist (`owned_as_explicit`); only what a view serves over a single partition tells
the two ways to write it apart. Main statements: `union_of_scopes`, `owned_as_explicit`. -/

namespace PartitionedIndex

variable {K E : Type} [Ord K] [Ord E]

/-! ### Unions -/

section lists

variable {α : Type} {items left right : List α}
variable (h : ∀ a, a ∈ items ↔ a ∈ left ∨ a ∈ right) (f : α → Bool)
include h

theorem any_of_mem_iff_or : items.any f = (left.any f || right.any f) := by
  rw [Bool.eq_iff_iff, Bool.or_eq_true, List.any_eq_true, List.any_eq_true, List.any_eq_true]
  simp only [h, or_and_right, exists_or]

theorem all_of_mem_iff_or : items.all f = (left.all f && right.all f) := by
  rw [Bool.eq_iff_iff, Bool.and_eq_true, List.all_eq_true, List.all_eq_true, List.all_eq_true]
  simp only [h, or_imp, forall_and]

end lists

namespace View

variable (v : View K E) (x : Extractor)

theorem indexAt?_overSet_eq_some_iff {s : PartitionSet} {id : PartitionId} {i : Index K E} :
    (v.overSet s).indexAt? id x = some i ↔ id ∈ s ∧ v.table.index? id x = some i :=
  (v.overSet s).indexAt?_eq_some_iff id x i

theorem mem_indexes_overSet_iff {s : PartitionSet} {p : PartitionId × Index K E} :
    p ∈ (v.overSet s).indexes x ↔ p.1 ∈ s ∧ v.table.index? p.1 x = some p.2 :=
  ((v.overSet s).mem_indexes_iff x p.1 p.2).trans (v.indexAt?_overSet_eq_some_iff x)

theorem mem_indexes_union_iff (s t : PartitionSet) (p : PartitionId × Index K E) :
    p ∈ (v.overSet (s ∪ t)).indexes x ↔
      p ∈ (v.overSet s).indexes x ∨ p ∈ (v.overSet t).indexes x := by
  rw [mem_indexes_overSet_iff, mem_indexes_overSet_iff, mem_indexes_overSet_iff,
    Std.ExtTreeSet.mem_union_iff, or_and_right]

theorem mem_map_indexes_union_iff {β : Type} (f : PartitionId × Index K E → β) (s t : PartitionSet)
    (b : β) : b ∈ ((v.overSet (s ∪ t)).indexes x).map f ↔
      b ∈ ((v.overSet s).indexes x).map f ∨ b ∈ ((v.overSet t).indexes x).map f := by
  simp only [List.mem_map, mem_indexes_union_iff, or_and_right, exists_or]

theorem nodup_indexes : (v.indexes x).Nodup := by
  have hids : Ascending compare id ((v.indexes x).map Prod.fst) :=
    List.pairwise_map.mpr (v.indexes_ascending x)
  exact hids.nodup.of_map _

/-- The indexes of disjoint scopes are those of the union, in another order. -/
theorem indexes_union_perm {s t : PartitionSet} (hst : ∀ id ∈ s, id ∉ t) :
    ((v.overSet (s ∪ t)).indexes x).Perm ((v.overSet s).indexes x ++ (v.overSet t).indexes x) := by
  have hdisjoint : List.Disjoint ((v.overSet s).indexes x) ((v.overSet t).indexes x) := by
    intro p hps hpt
    exact hst p.1 ((v.mem_indexes_overSet_iff x).mp hps).1 ((v.mem_indexes_overSet_iff x).mp hpt).1
  have hnodup := ((v.overSet s).nodup_indexes x).append ((v.overSet t).nodup_indexes x) hdisjoint
  rw [List.perm_ext_iff_of_nodup ((v.overSet (s ∪ t)).nodup_indexes x) hnodup]
  intro p
  rw [List.mem_append, mem_indexes_union_iff]

end View

variable [Std.TransOrd K] [Std.TransOrd E]

namespace Composite

/-- The unordered composite over an explicit set of partitions. -/
def unorderedOver (view : View K E) (x : Extractor) (s : PartitionSet) : Composite K E :=
  ofView (view.overSet s) x false none

/-- The answers of a composite unite those of two others: the keys of a value are the union of theirs,
and a key is looked up in the second if the first does not find it. -/
structure Unites (c a b : Composite K E) : Prop where
  toKeySet_eq : ∀ v, (c.contents.get v).toKeySet =
    (a.contents.get v).toKeySet ∪ (b.contents.get v).toKeySet
  keySet_eq : c.contents.base.values = a.contents.base.values ∪ b.contents.base.values
  contains_eq : ∀ v, c.contents.contains v = (a.contents.contains v || b.contents.contains v)
  isEmpty_eq : c.contents.isEmpty = (a.contents.isEmpty && b.contents.isEmpty)
  isPartial_eq : c.isPartial = (a.isPartial || b.isPartial)
  get_eq : ∀ key, c.get key = if (a.get key).isAbsent then b.get key else a.get key

/-- The chains of a composite are those of two others put together, member by member. -/
structure Adds (c a b : Composite K E) : Prop where
  members_perm : ∀ v, (c.contents.get v).members.Perm
    ((a.contents.get v).members ++ (b.contents.get v).members)
  memberCount_eq : ∀ v, (c.contents.get v).memberCount =
    (a.contents.get v).memberCount + (b.contents.get v).memberCount
  size_eq : ∀ v, (c.contents.get v).size = (a.contents.get v).size + (b.contents.get v).size

section union

variable (view : View K E) (x : Extractor) (s t : PartitionSet)

omit [Std.TransOrd K] [Std.TransOrd E] in
theorem mem_parts_union_iff (c : Contents K E) :
    c ∈ Merged.parts ⟨view.overSet (s ∪ t), x⟩ ↔
      c ∈ Merged.parts ⟨view.overSet s, x⟩ ∨ c ∈ Merged.parts ⟨view.overSet t, x⟩ :=
  view.mem_map_indexes_union_iff x (·.2.contents) s t c

omit [Std.TransOrd K] in
theorem mem_members_union_iff (v : Option E) (keys : KeySet K) :
    keys ∈ (Merged.get ⟨view.overSet (s ∪ t), x⟩ v).members ↔
      keys ∈ (Merged.get ⟨view.overSet s, x⟩ v).members ∨
        keys ∈ (Merged.get ⟨view.overSet t, x⟩ v).members := by
  simp only [Merged.get, List.mem_filterMap, mem_parts_union_iff, or_and_right, exists_or]

omit [Std.TransOrd K] in
theorem mem_values_union_iff [Std.LawfulEqOrd E] (v : Option E) :
    v ∈ Merged.values ⟨view.overSet (s ∪ t), x⟩ ↔
      v ∈ Merged.values ⟨view.overSet s, x⟩ ∨ v ∈ Merged.values ⟨view.overSet t, x⟩ := by
  rw [← Std.ExtTreeSet.mem_toList, ← Std.ExtTreeSet.mem_toList, ← Std.ExtTreeSet.mem_toList]
  simp only [Merged.mem_values_iff, Merged.pooled, List.mem_flatMap, mem_parts_union_iff,
    or_and_right, exists_or]

omit [Std.TransOrd E] in
theorem get_unorderedOver (key : K) :
    (unorderedOver view x s).get key =
      if view.owner key ∈ s then ((view.table.index? (view.owner key) x).map (·.get key)).getD .absent
      else .absent := by
  by_cases hs : view.owner key ∈ s
  · have hin : (view.overSet s).indexAt? (view.owner key) x = view.table.index? (view.owner key) x :=
      View.indexAt?_of_mem rfl x hs
    rw [if_pos hs, ← hin]
    cases hi : (view.overSet s).indexAt? (view.owner key) x with
    | none => exact get_of_none hi
    | some i => exact get_of_some hi
  · rw [if_neg hs]
    exact get_of_none (View.indexAt?_of_not_mem (v := view.overSet s) rfl x hs)

omit [Std.TransOrd E] in
/-- A key whose owner is in both scopes is found by both or by none. -/
theorem get_union (key : K) :
    (unorderedOver view x (s ∪ t)).get key =
      if ((unorderedOver view x s).get key).isAbsent then (unorderedOver view x t).get key
      else (unorderedOver view x s).get key := by
  simp only [get_unorderedOver, Std.ExtTreeSet.mem_union_iff]
  by_cases hs : view.owner key ∈ s
  · simp only [hs, true_or, if_true]
    cases ((view.table.index? (view.owner key) x).map (·.get key)).getD .absent with
    | indexed v => rfl
    | absent => simp [Lookup.isAbsent, Lookup.value?]
  · simp only [hs, false_or, if_false]
    rfl

theorem unites [Std.LawfulEqOrd K] [Std.LawfulEqOrd E] :
    (unorderedOver view x (s ∪ t)).Unites (unorderedOver view x s) (unorderedOver view x t) := by
  refine ⟨?_, ?_, ?_, ?_, ?_, get_union view x s t⟩
  · intro v
    apply Std.ExtTreeSet.ext_mem
    intro key
    rw [Std.ExtTreeSet.mem_union_iff, Chain.mem_toKeySet_iff, Chain.mem_toKeySet_iff,
      Chain.mem_toKeySet_iff, ← exists_or]
    refine exists_congr fun keys => ?_
    rw [← or_and_right]
    exact and_congr_left fun _ => mem_members_union_iff view x s t v keys
  · apply Std.ExtTreeSet.ext_mem
    intro v
    rw [Std.ExtTreeSet.mem_union_iff]
    exact mem_values_union_iff view x s t v
  · intro v
    exact any_of_mem_iff_or (mem_parts_union_iff view x s t) (·.contains v)
  · exact all_of_mem_iff_or (mem_parts_union_iff view x s t) Contents.isEmpty
  · exact any_of_mem_iff_or (view.mem_map_indexes_union_iff x (·.2) s t) (·.isPartial)

variable {s t} (hst : ∀ id ∈ s, id ∉ t)
include hst

omit [Std.TransOrd K] in
theorem members_perm_of_disjoint (v : Option E) :
    ((unorderedOver view x (s ∪ t)).contents.get v).members.Perm
      (((unorderedOver view x s).contents.get v).members ++
        ((unorderedOver view x t).contents.get v).members) := by
  have hparts := (view.indexes_union_perm x hst).map fun p => p.2.contents
  rw [List.map_append] at hparts
  have hmembers := hparts.filterMap fun c => (c.get? v).filter fun keys => !keys.isEmpty
  rw [List.filterMap_append] at hmembers
  exact hmembers

theorem adds : (unorderedOver view x (s ∪ t)).Adds (unorderedOver view x s)
    (unorderedOver view x t) := by
  have hperm := members_perm_of_disjoint view x hst
  refine ⟨hperm, ?_, fun v => Chain.size_of_perm (hperm v)⟩
  intro v
  exact (hperm v).length_eq.trans List.length_append

end union

/-- **The contents of a union of scopes unite theirs.** Let a table be read by unordered composites for
one extractor over two explicit sets of partitions and over their union. The answers over the union
unite those over the sets, which may overlap and name partitions that do not exist; and if the sets are
disjoint, its chains are theirs put together. -/
theorem union_of_scopes [Std.LawfulEqOrd K] [Std.LawfulEqOrd E] (view : View K E) (x : Extractor)
    (s t : PartitionSet) :
    (unorderedOver view x (s ∪ t)).Unites (unorderedOver view x s) (unorderedOver view x t) ∧
      ((∀ id ∈ s, id ∉ t) →
        (unorderedOver view x (s ∪ t)).Adds (unorderedOver view x s) (unorderedOver view x t)) :=
  ⟨unites view x s t, adds view x⟩

end Composite

namespace Mixed

/-- The partition of odd keys and one that does not exist. -/
def oddIds : PartitionSet := .ofList [⟨1⟩, ⟨7⟩]

theorem not_mem_oddIds (id : PartitionId) (hid : id ∈ evenIds) : id ∉ oddIds := by
  cases List.mem_pair.mp ((PartitionSet.mem_ofList_iff _ id).mp hid) with
  | inl h =>
      rw [h]
      decide
  | inr h =>
      rw [h]
      decide

theorem mem_union_of_contains (id : PartitionId) (hid : view.table.contains id = true) :
    id ∈ evenIds ∪ oddIds := by
  simp only [view, Table.contains_putIndex, Table.contains_empty, Bool.or_false, Bool.or_eq_true,
    decide_eq_true_eq] at hid
  cases hid with
  | inl h =>
      rw [← h]
      exact Std.ExtTreeSet.mem_union_iff.mpr (Or.inr (by decide))
  | inr h =>
      rw [← h]
      exact Std.ExtTreeSet.mem_union_iff.mpr (Or.inl (by decide))

end Mixed

namespace Composite

theorem union_of_scopes_mixed :
    (∀ id ∈ Mixed.evenIds, id ∉ Mixed.oddIds) ∧
      (unorderedOver Mixed.view ⟨"age"⟩ (Mixed.evenIds ∪ Mixed.oddIds)).Unites
        (unorderedOver Mixed.view ⟨"age"⟩ Mixed.evenIds)
        (unorderedOver Mixed.view ⟨"age"⟩ Mixed.oddIds) ∧
      (unorderedOver Mixed.view ⟨"age"⟩ (Mixed.evenIds ∪ Mixed.oddIds)).Adds
        (unorderedOver Mixed.view ⟨"age"⟩ Mixed.evenIds)
        (unorderedOver Mixed.view ⟨"age"⟩ Mixed.oddIds) := by
  obtain ⟨hunites, hadds⟩ := union_of_scopes Mixed.view ⟨"age"⟩ Mixed.evenIds Mixed.oddIds
  exact ⟨Mixed.not_mem_oddIds, hunites, hadds Mixed.not_mem_oddIds⟩

end Composite

/-! ### All partitions -/

namespace Table

/-- The partitions of a table as a set. -/
def idSet (t : Table K E) : PartitionSet := .ofList t.ids

omit [Std.TransOrd K] [Std.TransOrd E]

theorem first?_eq_head? (t : Table K E) : t.first? = t.ids.head? :=
  Std.ExtTreeMap.minKey?_eq_head?_keys

theorem size_eq_length (t : Table K E) : t.size = t.ids.length :=
  Std.ExtTreeMap.length_keys.symm

theorem mem_idSet_iff (t : Table K E) (id : PartitionId) : id ∈ t.idSet ↔ t.contains id = true := by
  rw [idSet, PartitionSet.mem_ofList_iff]
  exact Std.ExtTreeMap.mem_keys.trans Std.ExtTreeMap.contains_iff_mem.symm

theorem toList_idSet (t : Table K E) : t.idSet.toList = t.ids := by
  have hlisted : Ascending compare id t.idSet.toList :=
    Std.ExtTreeSet.ordered_toList (t := t.idSet)
  have hids : Ascending compare id t.ids := Std.ExtTreeMap.ordered_keys (t := t.partitions)
  refine hlisted.eq_of_mem_iff hids fun id => ?_
  rw [Std.ExtTreeSet.mem_toList, idSet, PartitionSet.mem_ofList_iff]

theorem size_idSet (t : Table K E) : t.idSet.size = t.size := by
  rw [← Std.ExtTreeSet.length_toList, toList_idSet, size_eq_length]

theorem first_idSet (t : Table K E) : Sampler.first t.idSet = t.first? := by
  rw [Sampler.first, Std.ExtTreeSet.min?_eq_head?_toList, toList_idSet, first?_eq_head?]

end Table

namespace View

variable (view : View K E) (x : Extractor)

omit [Std.TransOrd K] [Std.TransOrd E] in
theorem indexAt?_overAll (id : PartitionId) : view.overAll.indexAt? id x = view.table.index? id x := by
  show (if view.table.contains id then view.table.index? id x else none) = _
  cases h : view.table.index? id x with
  | none => exact ite_self none
  | some i => rw [Table.contains_of_index? h, if_pos rfl]

omit [Std.TransOrd K] [Std.TransOrd E] in
/-- Naming all partitions shows what there is, whatever else is named. -/
theorem seesAlike_overAll {s : PartitionSet} (hs : ∀ id, view.table.contains id = true → id ∈ s) :
    view.overAll.SeesAlike (view.overSet s) x := by
  refine ⟨fun id => ?_, rfl, rfl⟩
  rw [indexAt?_overAll]
  by_cases hid : id ∈ s
  · exact (indexAt?_of_mem (v := view.overSet s) rfl x hid).symm
  · rw [indexAt?_of_not_mem (v := view.overSet s) rfl x hid, Option.eq_none_iff_forall_ne_some]
    intro i hi
    exact hid (hs id (Table.contains_of_index? hi))

/-- What a view over all partitions serves for an extractor, and what one over the explicit set of
them does. -/
structure ServesAsExplicit : Prop where
  none_iff : view.overAll.index? x = none ↔ (view.overSet view.table.idSet).index? x = none
  composite_of_owned : ∀ a, view.overAll.index? x = some a → ∃ c, a = .composite c
  alike_of_many : view.table.size ≠ 1 →
    Served.Alike (view.overAll.index? x) ((view.overSet view.table.idSet).index? x)
  own_of_one : ∀ id, view.table.ids = [id] →
    (view.overSet view.table.idSet).index? x = (view.table.index? id x).map .own

section first

variable {view : View K E} (hfirst : view.sampler = .first)
include hfirst

omit [Std.TransOrd K] [Std.TransOrd E]

theorem representativeIndex?_overAll :
    view.overAll.representativeIndex? x = (view.overSet view.table.idSet).representativeIndex? x := by
  have hpick : (view.overSet view.table.idSet).representative? = view.table.first? := by
    show view.sampler view.table.idSet = _
    rw [hfirst, Table.first_idSet]
  rw [representativeIndex?, representativeIndex?, hpick]
  rfl

end first

theorem servesAsExplicit [Std.LawfulEqOrd K] {view : View K E} (hfirst : view.sampler = .first)
    (hr : ∀ id i, view.table.index? id x = some i → i.Reachable) : view.ServesAsExplicit x := by
  have hstands := representativeIndex?_overAll x hfirst
  have hsingle : (view.overSet view.table.idSet).scope.isSingle = (view.table.size == 1) := by
    rw [isSingle_of_only (v := view.overSet view.table.idSet) rfl, Table.size_idSet]
  refine ⟨?_, ?_, ?_, ?_⟩
  · rw [index?_eq, index?_eq, Option.map_eq_none_iff, Option.map_eq_none_iff, hstands]
  · intro a ha
    rw [index?_eq] at ha
    obtain ⟨i, _, hi⟩ := Option.map_eq_some_iff.mp ha
    exact ⟨_, hi.symm⟩
  · intro hsize
    have hsees := view.seesAlike_overAll x fun id => (view.table.mem_idSet_iff id).mpr
    refine hsees.served_alike_of_eq ?_ ?_ hstands
    · rw [hsingle, beq_eq_false_iff_ne.mpr hsize]
      rfl
    · intro i hi
      obtain ⟨id, _, hid⟩ := Option.bind_eq_some_iff.mp hi
      exact (hr id i hid).coherent.wellFormed.transCmp
  · intro id hid
    have hpick : view.sampler view.table.idSet = some id := by
      rw [hfirst, Table.first_idSet, Table.first?_eq_head?, hid, List.head?_cons]
    have hone : view.table.size = 1 := by
      rw [Table.size_eq_length, hid, List.length_singleton]
    rw [index?_eq, hsingle, hone, representativeIndex?_of_pick (v := view.overSet _) rfl x hpick]
    rfl

/-- **The scope of all partitions is that of the explicit set of them.** Let the indexes of a table be
reachable. Composites over all partitions and over any explicit set that has them all, with or without
others that do not exist, answer alike and order alike if they are of one kind and have the same lawful
comparator. And if the first partition stands for a scope, a view serves the same over all partitions
and over the set of them, unless there is only one. -/
theorem owned_as_explicit [Std.LawfulEqOrd K] (view : View K E) (x : Extractor)
    (hr : ∀ id i, view.table.index? id x = some i → i.Reachable) :
    (∀ s, (∀ id, view.table.contains id = true → id ∈ s) →
      ∀ o k, (SafeComparator.ensure k).Lawful →
        (Composite.ofView view.overAll x o k).AnswersAlike (.ofView (view.overSet s) x o k) ∧
          (Composite.ofView view.overAll x o k).OrdersAlike (.ofView (view.overSet s) x o k)) ∧
    (view.sampler = .first → view.ServesAsExplicit x) := by
  constructor
  · intro s hs o k hk
    have hsees := view.seesAlike_overAll x hs
    exact ⟨Composite.answersAlike hsees o o k k, Composite.ordersAlike hsees o hk.transCmp rfl⟩
  · exact fun hfirst => servesAsExplicit x hfirst hr

theorem owned_as_explicit_mixed :
    (∀ id i, Mixed.view.table.index? id ⟨"age"⟩ = some i → i.Reachable) ∧
      (∀ id, Mixed.view.table.contains id = true → id ∈ Mixed.evenIds ∪ Mixed.oddIds) ∧
      (SafeComparator.ensure (some Comparator.tens)).Lawful ∧
      (Composite.ofView Mixed.view.overAll ⟨"age"⟩ true (some .tens)).AnswersAlike
        (.ofView (Mixed.view.overSet (Mixed.evenIds ∪ Mixed.oddIds)) ⟨"age"⟩ true (some .tens)) ∧
      (Composite.ofView Mixed.view.overAll ⟨"age"⟩ true (some .tens)).OrdersAlike
        (.ofView (Mixed.view.overSet (Mixed.evenIds ∪ Mixed.oddIds)) ⟨"age"⟩ true (some .tens)) ∧
      Mixed.view.ServesAsExplicit ⟨"age"⟩ := by
  have hr : ∀ id i, Mixed.view.table.index? id ⟨"age"⟩ = some i → i.Reachable :=
    fun _ _ => Mixed.reachable_of_index?
  obtain ⟨halike, hserves⟩ := owned_as_explicit Mixed.view ⟨"age"⟩ hr
  obtain ⟨hanswers, horders⟩ :=
    halike _ Mixed.mem_union_of_contains true (some .tens) Comparator.tens_lawful
  exact ⟨hr, Mixed.mem_union_of_contains, Comparator.tens_lawful, hanswers, horders, hserves rfl⟩

end View

end PartitionedIndex
