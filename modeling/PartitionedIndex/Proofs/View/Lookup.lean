import PartitionedIndex.View.Composite
import PartitionedIndex.Proofs.Comparator.Named
import PartitionedIndex.Proofs.Index.Reachable
import PartitionedIndex.Proofs.View.Merged

/-! # Lookups and contents of a composite agree

A lookup asks the forward map of one index, that of the partition which owns the key; the contents
unite the key sets of all indexes in scope, of whatever kinds and comparators. A key that a lookup
finds is among the keys of its value. If the indexes have no keys but those that their partitions own
(`View.Routed`), there are no others: each key is in one member of one class of chains
(`Composite.Partitioned`), and a lookup finds the value that its owner has for it
(`Composite.Inverts`). Main statement: `lookups_agree_with_contents`. -/

namespace PartitionedIndex

variable {K E : Type} [Ord K] [Ord E] [Std.TransOrd K] [Std.TransOrd E]

/-- The indexes in scope for an extractor have only keys that their partitions own. -/
def View.Routed (v : View K E) (x : Extractor) : Prop :=
  ∀ id i key w, v.indexAt? id x = some i → i.get key = .indexed w → v.owner key = id

omit [Std.TransOrd E] in
/-- A key has one owner, so it has a value in one partition. -/
theorem View.Routed.disjoint {v : View K E} {x : Extractor} (h : v.Routed x) : v.Disjoint x := by
  intro p q i j u w key hi hj hu hw
  exact (h p i key u hi hu).symm.trans (h q j key w hj hw)

omit [Std.TransOrd K] in
theorem MergedContents.size_eq_length (c : MergedContents K E) : c.size = c.values.length := by
  cases c with
  | unordered m => exact (Std.ExtTreeSet.length_toList (t := m.values)).symm
  | ordered m => exact Array.length_toList.symm

namespace Composite

/-! ### Lookups -/

omit [Std.TransOrd E] in
theorem get_of_none {c : Composite K E} {key : K}
    (h : c.view.indexAt? (c.view.owner key) c.extractor = none) : c.get key = .absent := by
  rw [get, h]

omit [Std.TransOrd E] in
theorem get_of_some {c : Composite K E} {key : K} {i : Index K E}
    (h : c.view.indexAt? (c.view.owner key) c.extractor = some i) : c.get key = i.get key := by
  rw [get, h]

omit [Std.TransOrd E] in
theorem get_eq_indexed_iff (c : Composite K E) (key : K) (v : Option E) :
    c.get key = .indexed v ↔
      ∃ i, c.view.indexAt? (c.view.owner key) c.extractor = some i ∧ i.get key = .indexed v := by
  cases h : c.view.indexAt? (c.view.owner key) c.extractor with
  | none => simp [get_of_none h]
  | some i => simp [get_of_some h]

/-! ### Contents -/

omit [Std.TransOrd K] [Std.TransOrd E] in
theorem base_contents (c : Composite K E) : c.contents.base = ⟨c.view, c.extractor⟩ := by
  unfold contents
  cases c.comparator <;> rfl

section coherent

variable {c : Composite K E} (h : c.view.Coherent c.extractor)
include h

theorem contains_contents_iff (v : Option E) :
    c.contents.contains v = true ↔ ∃ id i, c.view.indexAt? id c.extractor = some i ∧
      ∃ key, i.HasValue key v := by
  rw [MergedContents.contains, base_contents]
  exact Merged.contains_iff_hasValue h v

theorem contains_get_iff (v : Option E) (key : K) :
    (c.contents.get v).contains key = true ↔
      ∃ id i, c.view.indexAt? id c.extractor = some i ∧ i.HasValue key v := by
  rw [Chain.contains_iff, MergedContents.get, base_contents]
  exact Merged.mem_get_iff h v key

theorem hasValue_of_get {key : K} {v : Option E} (hget : c.get key = .indexed v) :
    ∃ i, c.view.indexAt? (c.view.owner key) c.extractor = some i ∧ i.HasValue key v := by
  obtain ⟨i, hi, hv⟩ := (c.get_eq_indexed_iff key v).mp hget
  have := (h _ i hi).wellFormed.transCmp
  exact ⟨i, hi, v, hv, Std.ReflCmp.compare_self⟩

section routed

variable (hr : c.view.Routed c.extractor)
include hr

/-- If partitions have only keys that they own, a key in a chain has its value in the index of its
owner. -/
theorem contains_get_iff_owner (v : Option E) (key : K) :
    (c.contents.get v).contains key = true ↔
      ∃ i, c.view.indexAt? (c.view.owner key) c.extractor = some i ∧ i.HasValue key v := by
  rw [contains_get_iff h]
  constructor
  · intro ⟨id, i, hi, w, hw, heq⟩
    rw [hr id i key w hi hw]
    exact ⟨i, hi, w, hw, heq⟩
  · intro ⟨i, hi, hv⟩
    exact ⟨c.view.owner key, i, hi, hv⟩

theorem get_disjoint (v : Option E) :
    (c.contents.get v).members.Pairwise fun s t => ∀ key, key ∈ s → key ∉ t := by
  rw [MergedContents.get, base_contents]
  exact Merged.get_disjoint h hr.disjoint v

theorem get_eq_absent_iff (key : K) :
    c.get key = .absent ↔ ∀ v, (c.contents.get v).contains key = false := by
  constructor
  · intro habsent v
    rw [← Bool.not_eq_true, contains_get_iff_owner h hr]
    intro ⟨i, hi, w, hw, _⟩
    rw [get_of_some hi, hw] at habsent
    cases habsent
  · intro hnone
    cases hget : c.get key with
    | absent => rfl
    | indexed v =>
        have hin := (contains_get_iff_owner h hr v key).mpr (hasValue_of_get h hget)
        rw [hnone v] at hin
        cases hin

end routed

end coherent

/-- The keys of the contents are divided among partitions: the members of a chain are disjoint, so that
its size is the number of its keys, and a key is in the chains of one class of values, as the index of
its owner holds values for equal. -/
structure Partitioned (c : Composite K E) : Prop where
  disjoint : ∀ v, (c.contents.get v).members.Pairwise fun s t => ∀ key, key ∈ s → key ∉ t
  size_eq : ∀ v, (c.contents.get v).size = (c.contents.get v).toKeySet.size
  equates : ∀ key v w, (c.contents.get v).contains key = true →
    (c.contents.get w).contains key = true →
    ∃ i, c.view.indexAt? (c.view.owner key) c.extractor = some i ∧ i.contents.Equates v w

/-- If partitions have only keys that they own, the keys of the contents are divided among them. -/
theorem partitioned [Std.LawfulEqOrd K] [Std.LawfulEqOrd E] {c : Composite K E}
    (h : c.view.Coherent c.extractor) (hr : c.view.Routed c.extractor) : c.Partitioned := by
  refine ⟨get_disjoint h hr, ?_, ?_⟩
  · intro v
    exact (Chain.size_toKeySet _ (get_disjoint h hr v)).symm
  · intro key v w hv hw
    obtain ⟨i, hi, u, hu, huv⟩ := (contains_get_iff_owner h hr v key).mp hv
    obtain ⟨j, hj, u', hu', huw⟩ := (contains_get_iff_owner h hr w key).mp hw
    obtain rfl := Option.some.inj (hi.symm.trans hj)
    obtain rfl := Lookup.indexed.inj (hu.symm.trans hu')
    have := (h _ i hi).wellFormed.transCmp
    have hvw := Std.TransCmp.eq_trans (Std.OrientedCmp.eq_symm huv) huw
    exact ⟨i, hi, (i.contents.equates_iff v w).mpr hvw⟩

/-- The contents are the inverse of the lookups: a key in the chain of a value is in one member of it
and is looked up to a value that the index of its owner holds for equal, and a key in no chain is not
found. -/
structure Inverts (c : Composite K E) : Prop where
  get_of_contains : ∀ key v, (c.contents.get v).contains key = true →
    ∃ i w, c.view.indexAt? (c.view.owner key) c.extractor = some i ∧
      c.get key = .indexed w ∧ i.contents.Equates w v
  one_member : ∀ key v, (c.contents.get v).contains key = true →
    ((c.contents.get v).members.countP fun keys => keys.contains key) = 1
  absent_iff : ∀ key, c.get key = .absent ↔ ∀ v, (c.contents.get v).contains key = false

/-- **Lookups and contents of a composite agree.** Let each index in scope be reachable, of any kind
and with any lawful comparator. Then a value that a lookup finds is in the contents, and the key is in
its chain; and if the indexes have only keys that their partitions own, the contents are the inverse
of the lookups. -/
theorem lookups_agree_with_contents [Std.LawfulEqOrd K] [Std.LawfulEqOrd E] (view : View K E)
    (x : Extractor) (isOrdered : Bool) (comparator : Option (Comparator E))
    (h : ∀ id i, view.indexAt? id x = some i → i.Reachable) :
    (∀ key v, (ofView view x isOrdered comparator).get key = .indexed v →
      (ofView view x isOrdered comparator).contents.contains v = true ∧
        ((ofView view x isOrdered comparator).contents.get v).contains key = true) ∧
    (view.Routed x → (ofView view x isOrdered comparator).Inverts) := by
  have hcoherent : View.Coherent (ofView view x isOrdered comparator).view x :=
    fun id i hi => (h id i hi).coherent
  constructor
  · intro key v hget
    obtain ⟨i, hi, hv⟩ := hasValue_of_get hcoherent hget
    exact ⟨(contains_contents_iff hcoherent v).mpr ⟨_, i, hi, key, hv⟩,
      (contains_get_iff hcoherent v key).mpr ⟨_, i, hi, hv⟩⟩
  · intro hr
    refine ⟨?_, ?_, get_eq_absent_iff hcoherent hr⟩
    · intro key v hin
      obtain ⟨i, hi, w, hw, heq⟩ := (contains_get_iff_owner hcoherent hr v key).mp hin
      exact ⟨i, w, hi, (get_of_some hi).trans hw, (i.contents.equates_iff w v).mpr heq⟩
    · intro key v hin
      exact Chain.countP_contains _ (get_disjoint hcoherent hr v) hin

end Composite

/-! ### Ages in indexes of two kinds -/

namespace Mixed

/-- The ages of even keys, unordered. -/
def evens : Index UInt64 Int64 :=
  (Index.unordered ⟨⟨"age"⟩, false⟩).run [.insert 0 (some 12), .insert 2 none]

/-- The ages of odd keys, by their tens. -/
def odds : Index UInt64 Int64 :=
  (Index.ordered ⟨⟨"age"⟩, false⟩ (some .tens)).run [.insert 1 (some 12), .insert 3 (some 17)]

/-- Keys are divided into even and odd ones; seventeen is in the class of twelve for odd keys only. -/
def view : View UInt64 Int64 where
  table := ((∅ : Table UInt64 Int64).putIndex ⟨0⟩ ⟨"age"⟩ evens).putIndex ⟨1⟩ ⟨"age"⟩ odds
  scope := .owned
  owner := .modulo 2
  sampler := .first

theorem indexAt?_view {id : PartitionId} {i : Index UInt64 Int64} :
    view.indexAt? id ⟨"age"⟩ = some i ↔ (id = ⟨0⟩ ∧ i = evens) ∨ (id = ⟨1⟩ ∧ i = odds) :=
  View.indexAt?_pair rfl rfl (by decide)

theorem reachable (id : PartitionId) (i : Index UInt64 Int64)
    (hi : view.indexAt? id ⟨"age"⟩ = some i) : i.Reachable := by
  rcases indexAt?_view.mp hi with ⟨_, rfl⟩ | ⟨_, rfl⟩
  · exact (Index.Reachable.unordered _).run _
  · exact (Index.Reachable.ordered _ Comparator.tens_lawful).run _

theorem routed : view.Routed ⟨"age"⟩ := by
  intro id i key v hi hv
  rcases indexAt?_view.mp hi with ⟨rfl, rfl⟩ | ⟨rfl, rfl⟩
  · obtain ⟨w, hw, hk⟩ := Index.given_of_get_run hv
    rcases List.mem_pair.mp hw with rfl | rfl <;> cases hk <;> rfl
  · obtain ⟨w, hw, hk⟩ := Index.given_of_get_run hv
    rcases List.mem_pair.mp hw with rfl | rfl <;> cases hk <;> rfl

end Mixed

theorem Composite.lookups_agree_with_contents_mixed :
    (∀ id i, Mixed.view.indexAt? id ⟨"age"⟩ = some i → i.Reachable) ∧
      Mixed.view.Routed ⟨"age"⟩ ∧
      (∀ key v, (ofView Mixed.view ⟨"age"⟩ true none).get key = .indexed v →
        (ofView Mixed.view ⟨"age"⟩ true none).contents.contains v = true ∧
          ((ofView Mixed.view ⟨"age"⟩ true none).contents.get v).contains key = true) ∧
      (ofView Mixed.view ⟨"age"⟩ true none).Inverts := by
  obtain ⟨hfound, hinverts⟩ :=
    lookups_agree_with_contents Mixed.view ⟨"age"⟩ true none Mixed.reachable
  exact ⟨Mixed.reachable, Mixed.routed, hfound, hinverts Mixed.routed⟩

end PartitionedIndex
