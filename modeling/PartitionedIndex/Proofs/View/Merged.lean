import PartitionedIndex.View.Merged
import PartitionedIndex.Proofs.Index.Coherence
import PartitionedIndex.Proofs.View.RangeResult

/-! # Merged contents pool the entries of their parts

The indexes in scope come by ascending partition, each partition once. If they are coherent
(`View.Coherent`), the chain of a value has the keys that some of them has under the value, whatever
each takes for the same value (`mem_get_iff`). If they also compare values alike (`View.Uniform`),
merged contents say what the pool of all their entries says: the key sets of a value are those of its
class in the pool, in their order (`get_members`), so a chain has one member for each partition that
has keys for the value (`collects_get`). -/

namespace PartitionedIndex

namespace View

variable {K E : Type} [Ord K] [Ord E]

/-! ### The indexes in scope -/

theorem mem_partitions_iff (v : View K E) (id : PartitionId) :
    id ∈ v.partitions ↔ v.covers id = true := by
  unfold partitions covers
  cases v.scope with
  | owned => exact Std.ExtTreeMap.mem_keys.trans Std.ExtTreeMap.contains_iff_mem.symm
  | only ids => exact Std.ExtTreeSet.mem_toList.trans Std.ExtTreeSet.contains_iff_mem.symm

theorem partitions_ascending (v : View K E) : Ascending compare id v.partitions := by
  unfold partitions
  cases v.scope with
  | owned => exact Std.ExtTreeMap.ordered_keys (t := v.table.partitions)
  | only ids => exact Std.ExtTreeSet.ordered_toList (t := ids)

theorem indexAt?_eq_some_iff (v : View K E) (id : PartitionId) (x : Extractor) (i : Index K E) :
    v.indexAt? id x = some i ↔ v.covers id = true ∧ v.table.index? id x = some i := by
  unfold indexAt?
  cases v.covers id <;> simp

theorem mem_indexes_iff (v : View K E) (x : Extractor) (id : PartitionId) (i : Index K E) :
    (id, i) ∈ v.indexes x ↔ v.indexAt? id x = some i := by
  rw [indexes, List.mem_filterMap, indexAt?_eq_some_iff, ← mem_partitions_iff]
  constructor
  · rintro ⟨p, hp, hpi⟩
    obtain ⟨j, hj, heq⟩ := Option.map_eq_some_iff.mp hpi
    cases heq
    exact ⟨hp, hj⟩
  · rintro ⟨hp, hi⟩
    exact ⟨id, hp, Option.map_eq_some_iff.mpr ⟨i, hi, rfl⟩⟩

theorem indexes_ascending (v : View K E) (x : Extractor) :
    Ascending compare Prod.fst (v.indexes x) := by
  refine List.Pairwise.filterMap _ ?_ v.partitions_ascending
  intro p q hpq a ha b hb
  obtain ⟨_, _, rfl⟩ := Option.map_eq_some_iff.mp ha
  obtain ⟨_, _, rfl⟩ := Option.map_eq_some_iff.mp hb
  exact hpq

theorem indexAt?_pair {v : View K E} {p q : PartitionId} {x : Extractor} {i j : Index K E}
    (htable : v.table = ((∅ : Table K E).putIndex p x i).putIndex q x j) (hscope : v.scope = .owned)
    (hpq : q ≠ p) {id : PartitionId} {k : Index K E} :
    v.indexAt? id x = some k ↔ (id = p ∧ k = i) ∨ (id = q ∧ k = j) := by
  rw [indexAt?_eq_some_iff]
  simp only [covers, hscope, htable, Table.contains_putIndex, Table.index?_putIndex,
    Table.contains_empty, Table.index?_empty, and_true]
  by_cases hq : q = id
  · subst hq
    simp [hpq, eq_comm]
  · by_cases hp : p = id
    · subst hp
      simp [hpq, hpq.symm, eq_comm]
    · simp [hp, hq, Ne.symm hp, Ne.symm hq]

variable [Std.TransOrd K] [Std.TransOrd E]

/-- The indexes in scope for an extractor are coherent. -/
def Coherent (v : View K E) (x : Extractor) : Prop :=
  ∀ id i, v.indexAt? id x = some i → i.Coherent

/-- The indexes in scope for an extractor are coherent and compare values alike. -/
structure Uniform (v : View K E) (x : Extractor) (order : Option E → Option E → Ordering) :
    Prop where
  transCmp : Std.TransCmp order
  coherent : ∀ id i, v.indexAt? id x = some i → i.Coherent
  order_eq : ∀ id i, v.indexAt? id x = some i → i.contents.order = order

/-- No key has a value in two partitions in scope. -/
def Disjoint (v : View K E) (x : Extractor) : Prop :=
  ∀ ⦃p q : PartitionId⦄ ⦃i j : Index K E⦄ ⦃u w : Option E⦄ (key : K), v.indexAt? p x = some i →
    v.indexAt? q x = some j → i.get key = .indexed u → j.get key = .indexed w → p = q

/-- The chain has one member for each partition in scope in which a key has a value of the class of
`value`, by ascending partition, and the member is the set of those keys. -/
def Collects (v : View K E) (x : Extractor) (order : Option E → Option E → Ordering)
    (value : Option E) (chain : Chain K) : Prop :=
  ∃ ids : List PartitionId, ids.Pairwise (fun p q => compare p q = .lt) ∧
    (∀ id, id ∈ ids ↔ ∃ i, v.indexAt? id x = some i ∧
      ∃ k w, i.get k = .indexed w ∧ order w value = .eq) ∧
    List.Forall₂ (fun id keys => ∃ i, v.indexAt? id x = some i ∧ keys.isEmpty = false ∧
      ∀ k, k ∈ keys ↔ ∃ w, i.get k = .indexed w ∧ order w value = .eq) ids chain.members

end View

theorem forall₂_filterMap {α β γ : Type} (f : β → Option γ) (pairs : List (α × β)) :
    List.Forall₂ (fun a c => ∃ b, (a, b) ∈ pairs ∧ f b = some c)
      ((pairs.filter fun p => (f p.2).isSome).map Prod.fst) (pairs.filterMap fun p => f p.2) := by
  induction pairs with
  | nil => exact List.Forall₂.nil
  | cons p rest ih =>
      have ih := List.Forall₂.imp (S := fun a c => ∃ b, (a, b) ∈ p :: rest ∧ f b = some c)
        (fun a c ⟨b, hb, hc⟩ => ⟨b, List.mem_cons_of_mem p hb, hc⟩) ih
      cases hp : f p.2 with
      | none =>
          rw [List.filter_cons_of_neg (by simp [hp]), List.filterMap_cons, hp]
          exact ih
      | some c =>
          rw [List.filter_cons_of_pos (by simp [hp]), List.filterMap_cons, hp]
          exact List.Forall₂.cons ⟨p.2, List.mem_cons_self, hp⟩ ih

namespace Contents

variable {K E : Type} [Ord K] [Ord E] [Std.TransOrd E] {c : Contents K E}

theorem Ascends.toList_get? (h : c.Ascends) (v : Option E) :
    (c.get? v).toList = (classOf c.order v c.entries).map Prod.snd := by
  have := h.transCmp
  cases hg : c.get? v with
  | some keys =>
      obtain ⟨w, hw, heq⟩ := (h.get?_eq_some_iff v keys).mp hg
      rw [classOf_of_ascending h.ascending hw heq]
      rfl
  | none =>
      have hnone : classOf c.order v c.entries = [] := by
        rw [List.eq_nil_iff_forall_not_mem]
        intro e he
        obtain ⟨he, heq⟩ := mem_classOf.mp he
        rw [(h.get?_eq_some_iff v e.2).mpr ⟨e.1, he, heq⟩] at hg
        cases hg
      rw [hnone]
      rfl

end Contents

namespace Merged

variable {K E : Type} [Ord K] [Ord E] [Std.TransOrd E]

/-- The entries of all parts, partition by partition. -/
def pooled (m : Merged K E) : List (Option E × KeySet K) := m.parts.flatMap Contents.entries

theorem mem_pooled_iff (m : Merged K E) (e : Option E × KeySet K) :
    e ∈ m.pooled ↔ ∃ id i, m.view.indexAt? id m.extractor = some i ∧ e ∈ i.contents.entries := by
  unfold pooled parts
  rw [List.flatMap_map, List.mem_flatMap]
  constructor
  · rintro ⟨⟨id, i⟩, hi, he⟩
    exact ⟨id, i, (m.view.mem_indexes_iff _ _ _).mp hi, he⟩
  · rintro ⟨id, i, hi, he⟩
    exact ⟨(id, i), (m.view.mem_indexes_iff _ _ _).mpr hi, he⟩

variable [Std.TransOrd K] {m : Merged K E}
variable {order : Option E → Option E → Ordering}

section coherent

variable (h : m.view.Coherent m.extractor)
include h

theorem get_members_eq_filterMap (value : Option E) :
    (m.get value).members =
      (m.view.indexes m.extractor).filterMap fun p => p.2.contents.get? value := by
  unfold get parts
  rw [List.filterMap_map]
  apply List.filterMap_congr
  rintro ⟨id, i⟩ hi
  exact (h id i ((m.view.mem_indexes_iff _ _ _).mp hi)).wellFormed.filter_get? value

/-- A key is in the chain of a value if some index in scope has it under the value. -/
theorem mem_get_iff (value : Option E) (key : K) :
    (∃ keys ∈ (m.get value).members, key ∈ keys) ↔
      ∃ id i, m.view.indexAt? id m.extractor = some i ∧ i.HasValue key value := by
  rw [get_members_eq_filterMap h]
  constructor
  · rintro ⟨keys, hkeys, hk⟩
    obtain ⟨⟨id, i⟩, hi, hg⟩ := List.mem_filterMap.mp hkeys
    have hi := (m.view.mem_indexes_iff _ _ _).mp hi
    exact ⟨id, i, hi, ((h id i hi).lists_iff value key).mp ⟨keys, hg, hk⟩⟩
  · rintro ⟨id, i, hi, hv⟩
    obtain ⟨keys, hg, hk⟩ := ((h id i hi).lists_iff value key).mpr hv
    exact ⟨keys, List.mem_filterMap.mpr ⟨(id, i), (m.view.mem_indexes_iff _ _ _).mpr hi, hg⟩, hk⟩

theorem contains_iff_hasValue (value : Option E) :
    m.contains value = true ↔ ∃ id i, m.view.indexAt? id m.extractor = some i ∧
      ∃ key, i.HasValue key value := by
  unfold contains parts
  rw [List.any_map, List.any_eq_true]
  constructor
  · rintro ⟨⟨id, i⟩, hi, hcontains⟩
    have hi := (m.view.mem_indexes_iff _ _ _).mp hi
    have hclass := ((h id i hi).wellFormed.contains_iff value).mp hcontains
    exact ⟨id, i, hi, ((h id i hi).exists_class_iff value).mp hclass⟩
  · rintro ⟨id, i, hi, hv⟩
    have hclass := ((h id i hi).exists_class_iff value).mpr hv
    exact ⟨(id, i), (m.view.mem_indexes_iff _ _ _).mpr hi,
      ((h id i hi).wellFormed.contains_iff value).mpr hclass⟩

theorem get_disjoint (hd : m.view.Disjoint m.extractor) (value : Option E) :
    (m.get value).members.Pairwise fun s t => ∀ key, key ∈ s → key ∉ t := by
  rw [get_members_eq_filterMap h]
  refine List.pairwise_filterMap.mpr ((m.view.indexes_ascending m.extractor).imp_of_mem ?_)
  rintro ⟨p, i⟩ ⟨q, j⟩ hi hj hpq s hs t ht key hks hkt
  have hi := (m.view.mem_indexes_iff _ _ _).mp hi
  have hj := (m.view.mem_indexes_iff _ _ _).mp hj
  obtain ⟨v, hv, _⟩ := ((h p i hi).lists_iff value key).mp ⟨s, hs, hks⟩
  obtain ⟨w, hw, _⟩ := ((h q j hj).lists_iff value key).mp ⟨t, ht, hkt⟩
  obtain rfl := hd key hi hj hv hw
  have hself : compare p p = .eq := Std.ReflCmp.compare_self
  rw [hself] at hpq
  cases hpq

end coherent

section uniform

variable (h : m.view.Uniform m.extractor order)
include h

/-- The pool has a class if a key has a value of it. -/
theorem exists_pooled_iff (value : Option E) :
    (∃ e ∈ m.pooled, order e.1 value = .eq) ↔ ∃ id i, m.view.indexAt? id m.extractor = some i ∧
      ∃ k w, i.get k = .indexed w ∧ order w value = .eq := by
  constructor
  · rintro ⟨e, he, heq⟩
    obtain ⟨id, i, hi, he⟩ := (m.mem_pooled_iff e).mp he
    rw [← h.order_eq id i hi] at heq
    obtain ⟨k, w, hw, hwv⟩ := ((h.coherent id i hi).exists_class_iff value).mp ⟨e, he, heq⟩
    rw [h.order_eq id i hi] at hwv
    exact ⟨id, i, hi, k, w, hw, hwv⟩
  · rintro ⟨id, i, hi, k, w, hw, hwv⟩
    rw [← h.order_eq id i hi] at hwv
    obtain ⟨e, he, heq⟩ := ((h.coherent id i hi).exists_class_iff value).mpr ⟨k, w, hw, hwv⟩
    rw [h.order_eq id i hi] at heq
    exact ⟨e, (m.mem_pooled_iff e).mpr ⟨id, i, hi, he⟩, heq⟩

/-! ### Looking values up -/

/-- The chain of a value has the key sets of its class. -/
theorem get_members (value : Option E) :
    (m.get value).members = (classOf order value m.pooled).map Prod.snd := by
  rw [get_members_eq_filterMap h.coherent]
  unfold classOf pooled parts
  rw [List.flatMap_map, List.filter_flatMap, List.map_flatMap, List.filterMap_eq_flatMap_toList]
  apply List.flatMap_congr
  rintro ⟨id, i⟩ hi
  have hi := (m.view.mem_indexes_iff _ _ _).mp hi
  rw [← h.order_eq id i hi]
  exact (h.coherent id i hi).wellFormed.toList_get? value

theorem get_congr {v w : Option E} (hvw : order v w = .eq) : m.get v = m.get w := by
  have := h.transCmp
  have hmembers : (m.get v).members = (m.get w).members := by
    rw [get_members h, get_members h, classOf_congr hvw]
  exact congrArg Chain.mk hmembers

/-- **Chains collect the keys of a class**, partition by partition. -/
theorem collects_get (value : Option E) :
    m.view.Collects m.extractor order value (m.get value) := by
  have hcontains : ∀ id i, m.view.indexAt? id m.extractor = some i →
      (i.contents.contains value = true ↔
        ∃ k w, i.get k = .indexed w ∧ order w value = .eq) := by
    intro id i hi
    rw [← h.order_eq id i hi, (h.coherent id i hi).wellFormed.contains_iff]
    exact (h.coherent id i hi).exists_class_iff value
  have hasc := (m.view.indexes_ascending m.extractor).sublist
    (List.filter_sublist (p := fun p => p.2.contents.contains value))
  refine ⟨_, List.pairwise_map.mpr hasc, ?_, ?_⟩
  · intro id
    rw [List.mem_map]
    constructor
    · rintro ⟨⟨id', i⟩, hi, rfl⟩
      obtain ⟨hi, hv⟩ := List.mem_filter.mp hi
      have hi := (m.view.mem_indexes_iff _ _ _).mp hi
      exact ⟨i, hi, (hcontains id' i hi).mp hv⟩
    · rintro ⟨i, hi, hv⟩
      exact ⟨(id, i), List.mem_filter.mpr
        ⟨(m.view.mem_indexes_iff _ _ _).mpr hi, (hcontains id i hi).mpr hv⟩, rfl⟩
  · rw [get_members_eq_filterMap h.coherent]
    refine (forall₂_filterMap (fun i : Index K E => i.contents.get? value) _).imp ?_
    rintro id keys ⟨i, hi, hk⟩
    have hi := (m.view.mem_indexes_iff _ _ _).mp hi
    refine ⟨i, hi, (h.coherent id i hi).wellFormed.isEmpty_of_get? hk, fun k => ?_⟩
    rw [← h.order_eq id i hi]
    exact (h.coherent id i hi).mem_iff hk k

theorem exists_member_iff (value : Option E) (key : K) :
    (∃ keys ∈ (m.get value).members, key ∈ keys) ↔
      ∃ id i, m.view.indexAt? id m.extractor = some i ∧
        ∃ w, i.get key = .indexed w ∧ order w value = .eq := by
  rw [mem_get_iff h.coherent]
  refine exists_congr fun id => exists_congr fun i => and_congr_right fun hi => ?_
  rw [Index.HasValue, h.order_eq id i hi]

theorem contains_iff (value : Option E) :
    m.contains value = true ↔ ∃ e ∈ m.pooled, order e.1 value = .eq := by
  rw [contains_iff_hasValue h.coherent, exists_pooled_iff h]
  refine exists_congr fun id => exists_congr fun i => and_congr_right fun hi => ?_
  unfold Index.HasValue
  rw [h.order_eq id i hi]

end uniform

omit [Std.TransOrd K] in
theorem isEmpty_iff (m : Merged K E) : m.isEmpty = true ↔ m.pooled = [] := by
  unfold isEmpty pooled
  rw [List.all_eq_true, List.flatMap_eq_nil_iff]
  refine forall₂_congr fun c _ => ?_
  rw [Contents.isEmpty, beq_iff_eq, Contents.size_eq_length, List.length_eq_zero_iff]

omit [Std.TransOrd K] in
theorem mem_values_iff [Std.LawfulEqOrd E] (m : Merged K E) (v : Option E) :
    v ∈ m.values.toList ↔ ∃ e ∈ m.pooled, e.1 = v := by
  have hmap : m.parts.flatMap Contents.values = m.pooled.map Prod.fst := by
    unfold pooled
    rw [List.map_flatMap]
    rfl
  classical
  rw [values, Std.ExtTreeSet.mem_toList, Std.ExtTreeSet.mem_ofList, hmap, List.contains_iff_mem,
    List.mem_map]

end Merged

end PartitionedIndex
