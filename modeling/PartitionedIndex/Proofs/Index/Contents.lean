import PartitionedIndex.Index.Contents
import PartitionedIndex.Proofs.Chain
import PartitionedIndex.Proofs.Index.Sorted

/-! # Contents of both kinds

What the two kinds of contents have in common: their entries ascend under their order, which for
unordered contents is the natural one, and no entry is without keys (`WellFormed`). Then a lookup
finds the one entry of a class, and a write is described by the keys that are listed under each
value, in the same words for both kinds (`lists_link`, `lists_unlink`). -/

namespace PartitionedIndex.Contents

variable {K E : Type} [Ord K] [Ord E]

/-- What contents are ordered by: nothing if they are unordered, else what they were given. -/
def ordering (c : Contents K E) : Option (Option (Comparator E)) := c.ordered?.map (·.declared)

/-- How contents compare values: naturally if they are unordered, else by their comparator. -/
def order : Contents K E → Option E → Option E → Ordering
  | unordered _ => compare
  | ordered s => s.order

@[simp] theorem order_ordered (s : Sorted K E) : (ordered s).order = s.order := rfl

theorem order_congr {c d : Contents K E} (h : c.ordering = d.ordering) : c.order = d.order := by
  cases c with
  | unordered g =>
      cases d with
      | unordered g' => rfl
      | ordered s => cases h
  | ordered s =>
      cases d with
      | unordered g => cases h
      | ordered s' =>
          simp only [ordering, ordered?, Option.map_some, Option.some.injEq] at h
          exact congrArg (fun d => (SafeComparator.ensure d).order) h

theorem clear_congr {c d : Contents K E} (h : c.ordering = d.ordering) : c.clear = d.clear := by
  cases c with
  | unordered g =>
      cases d with
      | unordered g' => rfl
      | ordered s => cases h
  | ordered s =>
      cases d with
      | unordered g => cases h
      | ordered s' =>
          simp only [ordering, ordered?, Option.map_some, Option.some.injEq] at h
          simp only [clear, h]

theorem ordering_eq_some_iff {c : Contents K E} {d : Option (Comparator E)} :
    c.ordering = some d ↔ ∃ s, c = .ordered s ∧ s.declared = d := by
  cases c with
  | unordered g => simp [ordering, ordered?]
  | ordered s => simp [ordering, ordered?]

theorem order_of_ordering {c : Contents K E} {d : Option (Comparator E)} (h : c.ordering = some d) :
    c.order = (SafeComparator.ensure d).order := by
  obtain ⟨s, rfl, rfl⟩ := ordering_eq_some_iff.mp h
  rfl

variable [Std.TransOrd E]

theorem size_eq_length (c : Contents K E) : c.size = c.entries.length := by
  cases c with
  | unordered g => exact Std.ExtTreeMap.length_toList.symm
  | ordered s => exact Array.length_toList.symm

/-- The entries ascend under a lawful order. -/
structure Ascends (c : Contents K E) : Prop where
  transCmp : Std.TransCmp c.order
  ascending : Ascending c.order Prod.fst c.entries

namespace Ascends

variable {c : Contents K E}

theorem unordered (g : Grouped K E) : (Contents.unordered g).Ascends where
  transCmp := inferInstanceAs (Std.TransOrd (Option E))
  ascending := by exact Std.ExtTreeMap.ordered_keys_toList (t := g.groups)

theorem values (h : c.Ascends) : Ascending c.order id c.values := List.pairwise_map.mpr h.ascending

theorem get?_eq_some_iff (h : c.Ascends) (value : Option E) (keys : KeySet K) :
    c.get? value = some keys ↔ ∃ w, (w, keys) ∈ c.entries ∧ c.order w value = .eq := by
  cases c with
  | unordered g =>
      have hget := Std.ExtTreeMap.getElem?_eq_some_iff_exists_compare_eq_eq_and_mem_toList
        (t := g.groups) (k := value) (v := keys)
      refine hget.trans (exists_congr fun w => ?_)
      rw [Std.OrientedCmp.eq_comm, and_comm]
      rfl
  | ordered s =>
      have : Std.TransCmp s.order := h.transCmp
      exact Sorted.get?_eq_some_iff h.ascending value keys

theorem get?_of_mem (h : c.Ascends) {e : Option E × KeySet K} (he : e ∈ c.entries) :
    c.get? e.1 = some e.2 := by
  have := h.transCmp
  rw [h.get?_eq_some_iff]
  exact ⟨e.1, he, Std.ReflCmp.compare_self⟩

theorem contains_iff (h : c.Ascends) (value : Option E) :
    c.contains value = true ↔ ∃ e ∈ c.entries, c.order e.1 value = .eq := by
  rw [contains, Option.isSome_iff_exists]
  constructor
  · rintro ⟨keys, hk⟩
    obtain ⟨w, hw, heq⟩ := (h.get?_eq_some_iff value keys).mp hk
    exact ⟨(w, keys), hw, heq⟩
  · rintro ⟨e, he, heq⟩
    exact ⟨e.2, (h.get?_eq_some_iff value e.2).mpr ⟨e.1, he, heq⟩⟩

theorem get?_congr (h : c.Ascends) {v w : Option E} (hvw : c.order v w = .eq) :
    c.get? v = c.get? w := by
  have := h.transCmp
  apply Option.ext
  intro keys
  rw [h.get?_eq_some_iff, h.get?_eq_some_iff]
  constructor
  · rintro ⟨u, hu, heq⟩
    exact ⟨u, hu, Std.TransCmp.eq_trans heq hvw⟩
  · rintro ⟨u, hu, heq⟩
    exact ⟨u, hu, Std.TransCmp.eq_trans heq (Std.OrientedCmp.eq_symm hvw)⟩

theorem mem_entries_iff (h : c.Ascends) (hsep : ∀ v w, c.order v w = .eq → v = w) (value : Option E)
    (keys : KeySet K) : (value, keys) ∈ c.entries ↔ c.get? value = some keys := by
  refine ⟨fun hmem => h.get?_of_mem hmem, fun hfound => ?_⟩
  obtain ⟨w, hmem, heq⟩ := (h.get?_eq_some_iff value keys).mp hfound
  rw [← hsep w value heq]
  exact hmem

/-- Contents that are ordered alike, hold only the same values for equal, and find the same keys under
every value are the same. -/
theorem ext_get? {d : Contents K E} (hc : c.Ascends) (hd : d.Ascends) (ho : c.ordering = d.ordering)
    (hsep : ∀ v w, c.order v w = .eq → v = w) (hget : ∀ value, c.get? value = d.get? value) :
    c = d := by
  have hmem : ∀ e, e ∈ c.entries ↔ e ∈ d.entries := by
    intro e
    rw [hc.mem_entries_iff hsep, hget, hd.mem_entries_iff (order_congr ho ▸ hsep)]
  cases c with
  | unordered g =>
      cases d with
      | unordered g' =>
          have : Std.LawfulEqOrd (Option E) := ⟨hsep _ _⟩
          obtain ⟨groups⟩ := g
          obtain ⟨groups'⟩ := g'
          have hgroups : groups = groups' := Std.ExtTreeMap.ext_getElem? hget
          rw [hgroups]
      | ordered s => cases ho
  | ordered s =>
      cases d with
      | unordered g => cases ho
      | ordered s' =>
          have := hc.transCmp
          obtain ⟨declared, entries⟩ := s
          obtain ⟨declared', entries'⟩ := s'
          simp only [ordering, ordered?, Option.map_some, Option.some.injEq] at ho
          subst ho
          have hentries : entries.toList = entries'.toList :=
            Ascending.eq_of_mem_iff hc.ascending hd.ascending hmem
          rw [Array.toList_inj.mp hentries]

end Ascends

/-! ### Writes -/

variable [Std.TransOrd K]

/-- A key is listed under a value: it is one of the keys found for it. -/
def Lists (c : Contents K E) (value : Option E) (key : K) : Prop :=
  ∃ keys, c.get? value = some keys ∧ key ∈ keys

@[simp] theorem ordering_link (c : Contents K E) (value : Option E) (key : K) :
    (c.link value key).ordering = c.ordering := by
  cases c with
  | unordered g => rfl
  | ordered s =>
      simp only [ordering, ordered?, link, Option.map_some, Sorted.link]
      split <;> rfl

@[simp] theorem ordering_unlink (c : Contents K E) (value : Option E) (key : K) :
    (c.unlink value key).ordering = c.ordering := by
  cases c with
  | unordered g => rfl
  | ordered s =>
      simp only [ordering, ordered?, unlink, Option.map_some, Sorted.unlink]
      split
      · split <;> rfl
      · rfl

@[simp] theorem order_link (c : Contents K E) (value : Option E) (key : K) :
    (c.link value key).order = c.order := order_congr (c.ordering_link value key)

@[simp] theorem order_unlink (c : Contents K E) (value : Option E) (key : K) :
    (c.unlink value key).order = c.order := order_congr (c.ordering_unlink value key)

namespace Ascends

variable {c : Contents K E}

theorem get?_link (h : c.Ascends) (value other : Option E) (key : K) :
    (c.link value key).get? other =
      if c.order value other = .eq then some (((c.get? value).getD ∅).insert key)
      else c.get? other := by
  cases c with
  | unordered g => exact g.get?_link value other key
  | ordered s =>
      have : Std.TransCmp s.order := h.transCmp
      exact Sorted.get?_link h.ascending value other key

/-- Unlinking changes the keys of one class only, and leaves no class without keys. -/
theorem get?_unlink (h : c.Ascends) (value other : Option E) (key : K) :
    (c.unlink value key).get? other =
      if c.order value other = .eq then
        ((c.get? value).map (·.erase key)).filter fun rest => !rest.isEmpty
      else c.get? other := by
  cases c with
  | unordered g => exact g.get?_unlink value other key
  | ordered s =>
      have : Std.TransCmp s.order := h.transCmp
      exact Sorted.get?_unlink h.ascending value other key

theorem link (h : c.Ascends) (value : Option E) (key : K) : (c.link value key).Ascends := by
  cases c with
  | unordered g => exact unordered _
  | ordered s =>
      have : Std.TransCmp s.order := h.transCmp
      refine ⟨?_, Sorted.strict_link h.ascending value key⟩
      rw [order_link]
      exact h.transCmp

theorem unlink (h : c.Ascends) (value : Option E) (key : K) : (c.unlink value key).Ascends := by
  cases c with
  | unordered g => exact unordered _
  | ordered s =>
      have : Std.TransCmp s.order := h.transCmp
      refine ⟨?_, Sorted.strict_unlink h.ascending value key⟩
      rw [order_unlink]
      exact h.transCmp

/-- Linking lists the key under the values of one class and changes nothing else. -/
theorem lists_link [Std.LawfulEqOrd K] (h : c.Ascends) (value other : Option E) (key k : K) :
    (c.link value key).Lists other k ↔
      (c.order value other = .eq ∧ key = k) ∨ c.Lists other k := by
  unfold Lists
  rw [h.get?_link]
  by_cases heq : c.order value other = .eq
  · rw [if_pos heq, ← h.get?_congr heq]
    cases hg : c.get? value with
    | none => simp [heq]
    | some keys => simp [heq]
  · simp [heq]

theorem lists_unlink [Std.LawfulEqOrd K] (h : c.Ascends) (value other : Option E) (key k : K) :
    (c.unlink value key).Lists other k ↔
      ¬ (c.order value other = .eq ∧ key = k) ∧ c.Lists other k := by
  unfold Lists
  rw [h.get?_unlink]
  by_cases heq : c.order value other = .eq
  · rw [if_pos heq, ← h.get?_congr heq]
    cases hg : c.get? value with
    | none => simp
    | some keys =>
        simp only [Option.map_some, Option.filter_eq_some_iff, Option.some.injEq, heq, true_and]
        constructor
        · rintro ⟨rest, ⟨rfl, _⟩, hk⟩
          rw [Std.ExtTreeSet.mem_erase, ne_eq, Std.LawfulEqOrd.compare_eq_iff_eq] at hk
          exact ⟨hk.1, keys, rfl, hk.2⟩
        · rintro ⟨hne, keys', rfl, hk⟩
          have hmem : k ∈ keys.erase key := by
            rw [Std.ExtTreeSet.mem_erase, ne_eq, Std.LawfulEqOrd.compare_eq_iff_eq]
            exact ⟨hne, hk⟩
          refine ⟨keys.erase key, ⟨rfl, ?_⟩, hmem⟩
          rw [Bool.not_eq_true', KeySet.isEmpty_eq_false_iff]
          exact ⟨k, hmem⟩
  · simp [heq]

end Ascends

/-- The entries ascend, and none is without keys. -/
structure WellFormed (c : Contents K E) : Prop extends c.Ascends where
  inhabited : ∀ e ∈ c.entries, e.2.isEmpty = false

namespace WellFormed

variable {c : Contents K E}

omit [Std.TransOrd K] in
theorem isEmpty_of_get? (h : c.WellFormed) {value : Option E} {keys : KeySet K}
    (hk : c.get? value = some keys) : keys.isEmpty = false := by
  obtain ⟨w, hmem, _⟩ := (h.get?_eq_some_iff value keys).mp hk
  exact h.inhabited _ hmem

omit [Std.TransOrd K] in
theorem filter_get? (h : c.WellFormed) (value : Option E) :
    ((c.get? value).filter fun keys => !keys.isEmpty) = c.get? value := by
  cases hk : c.get? value with
  | none => rfl
  | some keys =>
      apply Option.filter_some_pos
      rw [h.isEmpty_of_get? hk]
      rfl

omit [Std.TransOrd K] in
theorem of_get? (h : c.Ascends)
    (hk : ∀ v keys, c.get? v = some keys → keys.isEmpty = false) : c.WellFormed :=
  ⟨h, fun e he => hk e.1 e.2 (h.get?_of_mem he)⟩

theorem link (h : c.WellFormed) (value : Option E) (key : K) : (c.link value key).WellFormed := by
  refine of_get? (h.toAscends.link value key) ?_
  intro v keys hk
  rw [h.get?_link] at hk
  split at hk
  next =>
    cases hk
    rw [Std.ExtTreeSet.isEmpty_eq_false_iff]
    exact Std.ExtTreeSet.insert_ne_empty
  next => exact h.isEmpty_of_get? hk

theorem unlink (h : c.WellFormed) (value : Option E) (key : K) :
    (c.unlink value key).WellFormed := by
  refine of_get? (h.toAscends.unlink value key) ?_
  intro v keys hk
  rw [h.get?_unlink] at hk
  split at hk
  next =>
    rw [Option.filter_eq_some_iff, Bool.not_eq_true'] at hk
    exact hk.2
  next => exact h.isEmpty_of_get? hk

end WellFormed

end PartitionedIndex.Contents
