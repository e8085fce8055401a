import PartitionedIndex.Proofs.View.Alike

/-! # What the answers of a view over an explicit scope depend on

A fair sampler picks some member of the set that a scope names, and the index of that partition gives
composites their kind and comparator. No other answer depends on the pick, and if the partitions of the
set are alike for an extractor (`Table.Homogeneous`), no answer does (`answers_ignore_sampler`). Nor
does any answer depend on a partition that the scope does not name: a view over a table that has the
same partitions in scope answers the same (`answers_ignore_partitions_out_of_scope`). -/

namespace PartitionedIndex

/-! ### Fair samplers -/

namespace Sampler

variable {pick : Sampler} {s : PartitionSet}

theorem Fair.mem (h : pick.Fair) {id : PartitionId} (hid : pick s = some id) : id ∈ s := by
  have hs := h s
  rw [hid] at hs
  exact hs

theorem Fair.exists_mem (h : pick.Fair) (hs : s ≠ ∅) : ∃ id ∈ s, pick s = some id := by
  cases hid : pick s with
  | none =>
      have hempty := h s
      rw [hid] at hempty
      exact absurd hempty hs
  | some id => exact ⟨id, h.mem hid, rfl⟩

theorem Fair.empty (h : pick.Fair) : pick ∅ = none := by
  cases hid : pick ∅ with
  | none => rfl
  | some id => exact absurd (h.mem hid) Std.ExtTreeSet.not_mem_empty

theorem first_fair : first.Fair := by
  intro s
  cases h : first s with
  | none => exact Std.ExtTreeSet.min?_eq_none_iff.mp h
  | some id => exact Std.ExtTreeSet.min?_mem h

/-- A drawn number falls on some member, whatever it is. -/
theorem drawn_fair (draw : Nat) : (drawn draw).Fair := by
  intro s
  cases h : drawn draw s with
  | none =>
      have hlength : s.toList.length ≤ draw % s.size := List.getElem?_eq_none_iff.mp h
      rw [Std.ExtTreeSet.length_toList] at hlength
      have hsize : s.size = 0 := by
        by_contra hne
        exact absurd (Nat.mod_lt draw (Nat.pos_of_ne_zero hne)) (Nat.not_lt.mpr hlength)
      exact Std.ExtTreeSet.eq_empty_iff_size_eq_zero.mpr hsize
  | some id => exact Std.ExtTreeSet.mem_toList.mp (List.mem_of_getElem? h)

end Sampler

theorem PartitionSet.mem_ofList_iff (ids : List PartitionId) (id : PartitionId) :
    id ∈ ofList ids ↔ id ∈ ids := by
  rw [ofList, Std.ExtTreeSet.mem_ofList, List.contains_iff_mem]

theorem PartitionSet.eq_of_size_eq_one {s : PartitionSet} (hs : s.size = 1) {p q : PartitionId}
    (hp : p ∈ s) (hq : q ∈ s) : p = q := by
  rw [← Std.ExtTreeSet.length_toList, List.length_eq_one_iff] at hs
  obtain ⟨r, hr⟩ := hs
  rw [← Std.ExtTreeSet.mem_toList, hr, List.mem_singleton] at hp hq
  rw [hp, hq]

variable {K E : Type} [Ord K] [Ord E]

/-! ### Views over an explicit scope -/

namespace View

variable {v : View K E} {s : PartitionSet} (hscope : v.scope = .only s) (x : Extractor)
include hscope

theorem partitions_of_only : v.partitions = s.toList := by
  rw [partitions, hscope]

theorem indexAt?_of_mem {id : PartitionId} (hid : id ∈ s) :
    v.indexAt? id x = v.table.index? id x := by
  have hcovers : v.covers id = true := by
    rw [covers, hscope]
    exact hid
  rw [indexAt?, hcovers, if_pos rfl]

theorem indexAt?_of_not_mem {id : PartitionId} (hid : id ∉ s) : v.indexAt? id x = none := by
  have hcovers : ¬ v.covers id = true := by
    rw [covers, hscope]
    exact hid
  rw [indexAt?, if_neg hcovers]

theorem representativeIndex?_of_only :
    v.representativeIndex? x = (v.sampler s).bind fun id => v.table.index? id x := by
  rw [representativeIndex?, representative?, hscope]

theorem representativeIndex?_of_pick {id : PartitionId} (hid : v.sampler s = some id) :
    v.representativeIndex? x = v.table.index? id x := by
  rw [representativeIndex?_of_only hscope, hid, Option.bind_some]

theorem isSingle_of_only : v.scope.isSingle = (s.size == 1) := by
  rw [hscope]
  rfl

/-- The index that a fair sampler picks is in scope. -/
theorem exists_indexAt?_of_fair (hfair : v.sampler.Fair) {i : Index K E}
    (hi : v.representativeIndex? x = some i) : ∃ id, v.indexAt? id x = some i := by
  rw [representativeIndex?_of_only hscope] at hi
  obtain ⟨id, hid, hi⟩ := Option.bind_eq_some_iff.mp hi
  exact ⟨id, (indexAt?_of_mem hscope x (hfair.mem hid)).trans hi⟩

end View

/-- The partitions of a set are alike for an extractor: all have an index or none has, and the indexes
are of one kind and compare every pair of values in the same way. -/
structure Table.Homogeneous (t : Table K E) (s : PartitionSet) (x : Extractor) : Prop where
  all_or_none : (∀ id ∈ s, ∃ i, t.index? id x = some i) ∨ ∀ id ∈ s, t.index? id x = none
  sortsLike : ∀ p ∈ s, ∀ q ∈ s, ∀ i j, t.index? p x = some i → t.index? q x = some j → i.SortsLike j

/-- Any two partitions of a homogeneous set have indexes that sort alike, or both have none. -/
theorem Table.Homogeneous.rel {t : Table K E} {s : PartitionSet} {x : Extractor}
    (h : t.Homogeneous s x) {p q : Sampler} (hp : p.Fair) (hq : q.Fair) :
    Option.Rel (fun i j => i.SortsLike j ∧ ((s.size == 1) = true → i = j))
      ((p s).bind fun id => t.index? id x) ((q s).bind fun id => t.index? id x) := by
  by_cases hs : s = ∅
  · rw [hs, hp.empty, hq.empty]
    exact .none
  · obtain ⟨a, ha, hpa⟩ := hp.exists_mem hs
    obtain ⟨b, hb, hqb⟩ := hq.exists_mem hs
    rw [hpa, hqb, Option.bind_some, Option.bind_some]
    cases h.all_or_none with
    | inl hall =>
        obtain ⟨i, hi⟩ := hall a ha
        obtain ⟨j, hj⟩ := hall b hb
        rw [hi, hj]
        refine .some ⟨h.sortsLike a ha b hb i j hi hj, fun hone => ?_⟩
        obtain rfl := PartitionSet.eq_of_size_eq_one (beq_iff_eq.mp hone) ha hb
        exact Option.some.inj (hi.symm.trans hj)
    | inr hnone =>
        rw [hnone a ha, hnone b hb]
        exact .none

variable [Std.TransOrd K] [Std.TransOrd E]

namespace View

/-! ### The sampler -/

/-- **Answers do not depend on the partition that is picked.** Let a view have an explicit scope and
reachable indexes for an extractor. With any two fair samplers, the composites it serves give the same
answers to all queries that need no order, however different the partitions are; and if they are alike,
it serves the same with both: nothing, the same index, or composites that order alike, too. -/
theorem answers_ignore_sampler [Std.LawfulEqOrd K] (view : View K E) (s : PartitionSet)
    (x : Extractor) (hscope : view.scope = .only s)
    (hr : ∀ id i, view.indexAt? id x = some i → i.Reachable) (p q : Sampler)
    (hp : p.Fair) (hq : q.Fair) :
    (∀ c d, (view.withSampler p).index? x = some (.composite c) →
      (view.withSampler q).index? x = some (.composite d) → c.AnswersAlike d) ∧
    (view.table.Homogeneous s x →
      Served.Alike ((view.withSampler p).index? x) ((view.withSampler q).index? x)) := by
  have hsees : SeesAlike (view.withSampler p) (view.withSampler q) x := ⟨fun _ => rfl, rfl, rfl⟩
  constructor
  · intro c d hc hd
    obtain ⟨o, k, rfl⟩ := exists_ofView_of_index? hc
    obtain ⟨o', k', rfl⟩ := exists_ofView_of_index? hd
    exact Composite.answersAlike hsees o o' k k'
  · intro halike
    refine hsees.served_alike rfl ?_ ?_
    · intro i hi
      obtain ⟨id, hid⟩ := exists_indexAt?_of_fair (v := view.withSampler p) hscope x hp hi
      exact (hr id i hid).coherent.wellFormed.transCmp
    · rw [representativeIndex?_of_only (v := view.withSampler p) hscope,
        representativeIndex?_of_only (v := view.withSampler q) hscope,
        isSingle_of_only (v := view.withSampler p) hscope]
      exact halike.rel hp hq

end View

/-! ### Ages in natural order, by default and by a function -/

namespace Forwards

/-- The ages of even keys, in natural order. -/
def evens : Index UInt64 Int64 :=
  (Index.ordered ⟨⟨"age"⟩, false⟩ none).run [.insert 0 (some 12), .insert 2 none]

/-- The ages of odd keys, in the order of a function that is the natural one. -/
def odds : Index UInt64 Int64 :=
  (Index.ordered ⟨⟨"age"⟩, false⟩ (some .forwards)).run [.insert 1 (some 12), .insert 3 (some 17)]

def ids : PartitionSet := .ofList [⟨0⟩, ⟨1⟩]

def view : View UInt64 Int64 where
  table := ((∅ : Table UInt64 Int64).putIndex ⟨0⟩ ⟨"age"⟩ evens).putIndex ⟨1⟩ ⟨"age"⟩ odds
  scope := .only ids
  owner := .modulo 2
  sampler := .first

theorem index?_view {id : PartitionId} {i : Index UInt64 Int64} :
    view.table.index? id ⟨"age"⟩ = some i ↔ (id = ⟨0⟩ ∧ i = evens) ∨ (id = ⟨1⟩ ∧ i = odds) := by
  simp only [view, Table.index?_putIndex, Table.index?_empty, and_true]
  grind

theorem reachable (id : PartitionId) (i : Index UInt64 Int64)
    (hi : view.indexAt? id ⟨"age"⟩ = some i) : i.Reachable := by
  cases index?_view.mp ((view.indexAt?_eq_some_iff _ _ _).mp hi).2 with
  | inl h =>
      rw [h.2]
      exact (Index.Reachable.ordered _ (c := none) SafeComparator.lawful_natural).run _
  | inr h =>
      rw [h.2]
      exact (Index.Reachable.ordered _ Comparator.forwards_lawful).run _

theorem homogeneous : view.table.Homogeneous ids ⟨"age"⟩ where
  all_or_none := by
    refine Or.inl fun id hid => ?_
    cases List.mem_pair.mp ((PartitionSet.mem_ofList_iff _ id).mp hid) with
    | inl h => exact ⟨evens, index?_view.mpr (Or.inl ⟨h, rfl⟩)⟩
    | inr h => exact ⟨odds, index?_view.mpr (Or.inr ⟨h, rfl⟩)⟩
  sortsLike := by
    intro p _ q _ i j hi hj
    have hempty : (Index.ordered ⟨⟨"age"⟩, false⟩ none : Index UInt64 Int64).SortsLike
        (.ordered ⟨⟨"age"⟩, false⟩ (some .forwards)) := ⟨rfl, fun _ _ => rfl⟩
    have hsort : evens.SortsLike odds := hempty.run _ _
    rcases index?_view.mp hi with ⟨_, rfl⟩ | ⟨_, rfl⟩
    · rcases index?_view.mp hj with ⟨_, rfl⟩ | ⟨_, rfl⟩
      · exact .refl evens
      · exact hsort
    · rcases index?_view.mp hj with ⟨_, rfl⟩ | ⟨_, rfl⟩
      · exact hsort.symm
      · exact .refl odds

theorem index?_first : (view.withSampler .first).index? ⟨"age"⟩ =
    some (.composite (.ofView (view.withSampler .first) ⟨"age"⟩ evens.isOrdered
      evens.comparator?)) := by
  refine View.index?_of_many ?_ (by decide)
  have hfirst : Sampler.first ids = some ⟨0⟩ := Std.ExtTreeSet.min?_eq_head?_toList.trans (by decide)
  rw [View.representativeIndex?_of_pick (s := ids) rfl _ hfirst]
  exact index?_view.mpr (Or.inl ⟨rfl, rfl⟩)

theorem index?_drawn : (view.withSampler (.drawn 1)).index? ⟨"age"⟩ =
    some (.composite (.ofView (view.withSampler (.drawn 1)) ⟨"age"⟩ odds.isOrdered
      odds.comparator?)) := by
  refine View.index?_of_many ?_ (by decide)
  have hdrawn : Sampler.drawn 1 ids = some ⟨1⟩ := by decide
  rw [View.representativeIndex?_of_pick (s := ids) rfl _ hdrawn]
  exact index?_view.mpr (Or.inr ⟨rfl, rfl⟩)

end Forwards

namespace View

theorem answers_ignore_sampler_forwards :
    (∀ id i, Forwards.view.indexAt? id ⟨"age"⟩ = some i → i.Reachable) ∧
      Sampler.first.Fair ∧ (Sampler.drawn 1).Fair ∧
      Forwards.view.table.Homogeneous Forwards.ids ⟨"age"⟩ ∧
      (∃ c d,
        (Forwards.view.withSampler .first).index? ⟨"age"⟩ = some (.composite c) ∧
        (Forwards.view.withSampler (.drawn 1)).index? ⟨"age"⟩ = some (.composite d) ∧
        c.AnswersAlike d) ∧
      Served.Alike ((Forwards.view.withSampler .first).index? ⟨"age"⟩)
        ((Forwards.view.withSampler (.drawn 1)).index? ⟨"age"⟩) := by
  obtain ⟨hanswers, hserved⟩ := answers_ignore_sampler Forwards.view Forwards.ids ⟨"age"⟩ rfl
    Forwards.reachable .first (.drawn 1) Sampler.first_fair (Sampler.drawn_fair 1)
  exact ⟨Forwards.reachable, Sampler.first_fair, Sampler.drawn_fair 1, Forwards.homogeneous,
    ⟨_, _, Forwards.index?_first, Forwards.index?_drawn,
      hanswers _ _ Forwards.index?_first Forwards.index?_drawn⟩,
    hserved Forwards.homogeneous⟩

/-! ### The rest of the table -/

/-- Two views have the same extractors, and serve each alike. -/
structure AnswersAlike (v w : View K E) : Prop where
  extractors_eq : v.extractors = w.extractors
  size_eq : v.size = w.size
  isEmpty_eq : v.isEmpty = w.isEmpty
  served_alike : ∀ x, Served.Alike (v.index? x) (w.index? x)

section table

variable {view : View K E} {s : PartitionSet} {t : Table K E} (hscope : view.scope = .only s)
variable (hagree : ∀ id ∈ s, view.table.partition? id = t.partition? id)
include hscope hagree

omit [Std.TransOrd K] [Std.TransOrd E]

theorem extractors_of_agree : view.extractors = (view.withTable t).extractors := by
  rw [extractors, extractors, partitions_of_only hscope,
    partitions_of_only (v := view.withTable t) hscope]
  congr 1
  apply List.flatMap_congr
  intro id hid
  rw [withTable_table, hagree id (Std.ExtTreeSet.mem_toList.mp hid)]

omit hscope in
theorem index?_of_agree {id : PartitionId} (hid : id ∈ s) (x : Extractor) :
    view.table.index? id x = t.index? id x := by
  rw [Table.index?, hagree id hid, Table.index?]

theorem seesAlike_of_agree (x : Extractor) : view.SeesAlike (view.withTable t) x := by
  refine ⟨fun id => ?_, rfl, rfl⟩
  by_cases hid : id ∈ s
  · rw [indexAt?_of_mem hscope x hid, index?_of_agree hagree hid]
    exact (indexAt?_of_mem (v := view.withTable t) hscope x hid).symm
  · rw [indexAt?_of_not_mem hscope x hid]
    exact (indexAt?_of_not_mem (v := view.withTable t) hscope x hid).symm

theorem representativeIndex?_of_agree (hfair : view.sampler.Fair) (x : Extractor) :
    view.representativeIndex? x = (view.withTable t).representativeIndex? x := by
  rw [representativeIndex?_of_only hscope,
    representativeIndex?_of_only (v := view.withTable t) hscope, withTable_sampler, withTable_table]
  cases hid : view.sampler s with
  | none => rfl
  | some id =>
      exact index?_of_agree hagree (hfair.mem hid) x

end table

/-- **Answers do not depend on partitions out of scope.** Let a view have an explicit scope, reachable
indexes and a fair sampler. Over a table that agrees with its own on each partition that the scope
names, and that may differ elsewhere, it gives the same answers to all queries; and a composite that it
serves does not find a key that is owned out of scope. -/
theorem answers_ignore_partitions_out_of_scope [Std.LawfulEqOrd K] (view : View K E)
    (s : PartitionSet) (t : Table K E) (hscope : view.scope = .only s) (hfair : view.sampler.Fair)
    (hr : ∀ x id i, view.indexAt? id x = some i → i.Reachable)
    (hagree : ∀ id ∈ s, view.table.partition? id = t.partition? id) :
    view.AnswersAlike (view.withTable t) ∧
      ∀ x c, view.index? x = some (.composite c) →
        ∀ key, view.owner key ∉ s → c.get key = .absent := by
  have hextractors := extractors_of_agree hscope hagree
  refine ⟨⟨hextractors, congrArg (·.size) hextractors, congrArg (·.isEmpty) hextractors, ?_⟩, ?_⟩
  · intro x
    refine (seesAlike_of_agree hscope hagree x).served_alike_of_eq rfl ?_
      (representativeIndex?_of_agree hscope hagree hfair x)
    intro i hi
    obtain ⟨id, hid⟩ := exists_indexAt?_of_fair hscope x hfair hi
    exact (hr x id i hid).coherent.wellFormed.transCmp
  · intro x c hc key hkey
    obtain ⟨o, k, rfl⟩ := exists_ofView_of_index? hc
    exact Composite.get_of_none (indexAt?_of_not_mem hscope x hkey)

end View

/-! ### Ages of even keys only -/

namespace Mixed

/-- The partition of even keys and one that does not exist. -/
def evenIds : PartitionSet := .ofList [⟨0⟩, ⟨9⟩]

/-- The ages of even keys; odd keys are owned out of scope. -/
def evenView : View UInt64 Int64 := view.overSet evenIds

theorem index?_view {id : PartitionId} {i : Index UInt64 Int64} :
    view.table.index? id ⟨"age"⟩ = some i ↔ (id = ⟨0⟩ ∧ i = evens) ∨ (id = ⟨1⟩ ∧ i = odds) := by
  simp only [view, Table.index?_putIndex, Table.index?_empty, and_true]
  grind

theorem reachable_of_index? {id : PartitionId} {x : Extractor} {i : Index UInt64 Int64}
    (hi : view.table.index? id x = some i) : i.Reachable := by
  have hmem : i = evens ∨ i = odds := by
    simp only [view, Table.index?_putIndex, Table.index?_empty] at hi
    grind
  cases hmem with
  | inl h =>
      rw [h]
      exact (Index.Reachable.unordered _).run _
  | inr h =>
      rw [h]
      exact (Index.Reachable.ordered _ Comparator.tens_lawful).run _

theorem partition?_removePartition {id : PartitionId} (hid : id ∈ evenIds) :
    view.table.partition? id = (view.table.removePartition ⟨1⟩).partition? id := by
  have hne : (⟨1⟩ : PartitionId) ≠ id := by
    intro h
    rw [← h] at hid
    exact absurd hid (by decide)
  simp [Table.partition?, Table.removePartition, Std.ExtTreeMap.getElem?_erase, hne]

theorem index?_evenView : evenView.index? ⟨"age"⟩ =
    some (.composite (.ofView evenView ⟨"age"⟩ evens.isOrdered evens.comparator?)) := by
  refine View.index?_of_many ?_ (by decide)
  have hfirst : Sampler.first evenIds = some ⟨0⟩ :=
    Std.ExtTreeSet.min?_eq_head?_toList.trans (by decide)
  rw [View.representativeIndex?_of_pick (s := evenIds) rfl _ hfirst]
  exact index?_view.mpr (Or.inl ⟨rfl, rfl⟩)

end Mixed

theorem View.answers_ignore_partitions_out_of_scope_mixed :
    Mixed.evenView.sampler.Fair ∧
      (∀ x id i, Mixed.evenView.indexAt? id x = some i → i.Reachable) ∧
      (∀ id ∈ Mixed.evenIds, Mixed.evenView.table.partition? id =
        (Mixed.view.table.removePartition ⟨1⟩).partition? id) ∧
      Mixed.evenView.AnswersAlike (Mixed.evenView.withTable (Mixed.view.table.removePartition ⟨1⟩)) ∧
      ∃ c, Mixed.evenView.index? ⟨"age"⟩ = some (.composite c) ∧
        Mixed.evenView.owner 1 ∉ Mixed.evenIds ∧
        Mixed.evenView.table.index? (Mixed.evenView.owner 1) ⟨"age"⟩ = some Mixed.odds ∧
        Mixed.odds.get 1 = .indexed (some 12) ∧ c.get 1 = .absent := by
  have hr : ∀ x id i, Mixed.evenView.indexAt? id x = some i → i.Reachable :=
    fun x id i hi => Mixed.reachable_of_index? ((indexAt?_eq_some_iff _ _ _ _).mp hi).2
  obtain ⟨halike, habsent⟩ := answers_ignore_partitions_out_of_scope Mixed.evenView Mixed.evenIds
    (Mixed.view.table.removePartition ⟨1⟩) rfl Sampler.first_fair hr
    fun _ => Mixed.partition?_removePartition
  have howner : Mixed.evenView.owner 1 ∉ Mixed.evenIds := by decide
  have hodds : Mixed.evenView.table.index? (Mixed.evenView.owner 1) ⟨"age"⟩ = some Mixed.odds :=
    Mixed.index?_view.mpr (Or.inr ⟨rfl, rfl⟩)
  exact ⟨Sampler.first_fair, hr, fun _ => Mixed.partition?_removePartition, halike, _,
    Mixed.index?_evenView, howner, hodds, rfl, habsent _ _ Mixed.index?_evenView 1 howner⟩

end PartitionedIndex
