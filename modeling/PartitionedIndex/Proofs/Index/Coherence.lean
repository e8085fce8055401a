import PartitionedIndex.Index.Write
import PartitionedIndex.Proofs.Index.Contents

/-! # Coherent indexes

The forward map and the contents of an index say the same: a key is listed under a value exactly if
its own value is of the same class. Every write restores that (`Coherent.apply`), whatever moves,
refusals and removals came before, so it holds of every index that writes make of an empty one
(`Coherent.run`). With it a write is described by the values of the keys alone: a unique index
refuses a value exactly if another key has one of its class (`Coherent.conflicts_iff`). -/

namespace PartitionedIndex.Index

variable {K E : Type} [Ord K] [Ord E] [Std.TransOrd K] [Std.TransOrd E]

omit [Std.TransOrd E] in
theorem get_eq_indexed_iff (i : Index K E) (key : K) (value : Option E) :
    i.get key = .indexed value ↔ i.forward[key]? = some value := by
  unfold get
  cases i.forward[key]? <;> simp [Lookup.ofOption]

omit [Std.TransOrd E] in
theorem forward_eq [Std.LawfulEqOrd K] {i : Index K E} {values : Std.ExtTreeMap K (Option E)}
    (h : ∀ k, i.get k = .ofOption values[k]?) : i.forward = values := by
  apply Std.ExtTreeMap.ext_getElem?
  intro k
  have hvalue := congrArg Lookup.value? (h k)
  rw [get, Lookup.value?_ofOption, Lookup.value?_ofOption] at hvalue
  exact hvalue

/-- A key has a value of the class of a value. -/
def HasValue (i : Index K E) (key : K) (value : Option E) : Prop :=
  ∃ w, i.get key = .indexed w ∧ i.contents.order w value = .eq

/-- The forward map and the contents agree, and no two keys of a unique index have values of one
class. -/
structure Coherent (i : Index K E) : Prop where
  wellFormed : i.contents.WellFormed
  lists_iff : ∀ value key, i.contents.Lists value key ↔ i.HasValue key value
  exclusive : i.spec.unique = true →
    ∀ value key other, i.HasValue key value → i.HasValue other value → key = other

/-! ### Every write is a drop, a put or nothing -/

theorem apply_insert (i : Index K E) (key : K) (value : Option E) :
    i.apply (.insert key value) =
      if i.conflicts key value then (.error (.uniqueViolation i.spec.extractor.name), i)
      else (.ok .done, i.put key value) := by
  rw [apply, insert]
  split <;> rfl

/-- What a write leaves: the index itself, one with a key put that nothing conflicts with, one with
a key dropped, or a partial one with a key dropped. -/
theorem apply_cases (i : Index K E) (w : Write K E) :
    (i.apply w).2 = i ∨
      (∃ key value, i.conflicts key value = false ∧ (i.apply w).2 = i.put key value) ∨
      (∃ key, (i.apply w).2 = i.drop key) ∨ ∃ key, (i.apply w).2 = i.markUnindexable key := by
  have hinsert : ∀ key value, (i.apply (.insert key value)).2 = i ∨
      (i.conflicts key value = false ∧ (i.apply (.insert key value)).2 = i.put key value) := by
    intro key value
    rw [apply_insert]
    cases hc : i.conflicts key value with
    | true => exact Or.inl rfl
    | false => exact Or.inr ⟨rfl, rfl⟩
  cases w with
  | insert key value =>
      rcases hinsert key value with h | ⟨hc, h⟩
      · exact Or.inl h
      · exact Or.inr (Or.inl ⟨key, value, hc, h⟩)
  | update key value =>
      rcases hinsert key value with h | ⟨hc, h⟩
      · exact Or.inl h
      · exact Or.inr (Or.inl ⟨key, value, hc, h⟩)
  | delete key => exact Or.inr (Or.inr (Or.inl ⟨key, rfl⟩))
  | markUnindexable key => exact Or.inr (Or.inr (Or.inr ⟨key, rfl⟩))

/-- What every write keeps holds after a run of writes. -/
theorem run_induction {P : Index K E → Prop} (hstep : ∀ i w, P i → P (i.apply w).2) (i : Index K E)
    (h : P i) (writes : List (Write K E)) : P (i.run writes) := by
  unfold run
  induction writes generalizing i with
  | nil => exact h
  | cons w rest ih => exact ih _ (hstep i w h)

/-! ### What no write changes -/

@[simp] theorem ordering_drop (i : Index K E) (key : K) :
    (i.drop key).contents.ordering = i.contents.ordering := by
  unfold drop
  split
  · rfl
  · exact i.contents.ordering_unlink _ _

@[simp] theorem ordering_put (i : Index K E) (key : K) (value : Option E) :
    (i.put key value).contents.ordering = i.contents.ordering := by
  unfold put
  rw [Contents.ordering_link, ordering_drop]

theorem apply_frame (i : Index K E) (w : Write K E) :
    (i.apply w).2.spec = i.spec ∧ (i.apply w).2.contents.ordering = i.contents.ordering := by
  rcases i.apply_cases w with h | ⟨key, value, _, h⟩ | ⟨key, h⟩ | ⟨key, h⟩
  · rw [h]
    exact ⟨rfl, rfl⟩
  · rw [h]
    exact ⟨i.spec_put key value, i.ordering_put key value⟩
  · rw [h]
    exact ⟨i.spec_drop key, i.ordering_drop key⟩
  · rw [h]
    exact ⟨i.spec_drop key, i.ordering_drop key⟩

theorem run_frame (i : Index K E) (writes : List (Write K E)) :
    (i.run writes).spec = i.spec ∧ (i.run writes).contents.ordering = i.contents.ordering :=
  run_induction (P := fun j => j.spec = i.spec ∧ j.contents.ordering = i.contents.ordering)
    (fun j w h => ⟨(j.apply_frame w).1.trans h.1, (j.apply_frame w).2.trans h.2⟩) i ⟨rfl, rfl⟩ writes

theorem exists_run_ordered (spec : IndexSpec) (c : Option (Comparator E))
    (writes : List (Write K E)) :
    ∃ s, ((Index.ordered spec c).run writes).contents = .ordered s ∧ s.declared = c :=
  Contents.ordering_eq_some_iff.mp ((run_frame (Index.ordered spec c) writes).2.trans rfl)

/-! ### Empty indexes, conflicts -/

omit [Std.TransOrd E] in
theorem get_ofContents (spec : IndexSpec) (c : Contents K E) (key : K) :
    (ofContents spec c).get key = .absent := by
  rw [ofContents, get, Std.ExtTreeMap.getElem?_empty, Lookup.ofOption]

omit [Std.TransOrd E] in
theorem get_ofContents_ne (spec : IndexSpec) (c : Contents K E) (key : K) (value : Option E) :
    (ofContents spec c).get key ≠ .indexed value := by
  rw [get_ofContents]
  exact nofun

namespace Coherent

variable {i : Index K E}

theorem ofContents {spec : IndexSpec} {c : Contents K E} (hc : c.Ascends) (he : c.entries = []) :
    (Index.ofContents spec c).Coherent := by
  have hvalue : ∀ k v, ¬ (Index.ofContents spec c).HasValue k v := by
    intro k v ⟨w, hw, _⟩
    exact get_ofContents_ne spec c k w hw
  refine ⟨⟨hc, ?_⟩, ?_, fun _ v k l hk => absurd hk (hvalue k v)⟩
  · intro e hmem
    rw [Index.ofContents, he] at hmem
    cases hmem
  · intro v k
    constructor
    · rintro ⟨keys, hg, _⟩
      rw [Index.ofContents, hc.get?_eq_some_iff, he] at hg
      obtain ⟨w, hw, _⟩ := hg
      cases hw
    · exact fun h => absurd h (hvalue k v)

theorem ordered (spec : IndexSpec) {c : Option (Comparator E)}
    (hc : (SafeComparator.ensure c).Lawful) : (Index.ordered spec c : Index K E).Coherent :=
  ofContents ⟨hc.transCmp, Ascending.nil⟩ rfl

theorem unordered (spec : IndexSpec) : (Index.unordered spec : Index K E).Coherent := by
  refine ofContents (Contents.Ascends.unordered _) ?_
  exact (Std.ExtTreeMap.toList_eq_nil_iff (t := (∅ : Std.ExtTreeMap (Option E) (KeySet K)))).mpr rfl

/-- A unique index refuses a value exactly if another key has one of its class. -/
theorem conflicts_iff (h : i.Coherent) (key : K) (value : Option E) :
    i.conflicts key value = true ↔
      i.spec.unique = true ∧ ∃ other, other ≠ key ∧ i.HasValue other value := by
  unfold conflicts
  rw [Bool.and_eq_true, Option.any_eq_true]
  refine and_congr_right fun hu => ?_
  constructor
  · rintro ⟨keys, hg, hk⟩
    rw [Bool.and_eq_true, Bool.not_eq_true', Bool.not_eq_true', KeySet.isEmpty_eq_false_iff] at hk
    obtain ⟨⟨other, ho⟩, hk⟩ := hk
    refine ⟨other, ?_, (h.lists_iff value other).mp ⟨keys, hg, ho⟩⟩
    rintro rfl
    rw [← Std.ExtTreeSet.contains_iff_mem, hk] at ho
    cases ho
  · rintro ⟨other, hne, hv⟩
    obtain ⟨keys, hg, ho⟩ := (h.lists_iff value other).mpr hv
    refine ⟨keys, hg, ?_⟩
    rw [Bool.and_eq_true, Bool.not_eq_true', Bool.not_eq_true']
    refine ⟨h.wellFormed.isEmpty_of_get? hg, ?_⟩
    rw [← Bool.not_eq_true, Std.ExtTreeSet.contains_iff_mem]
    intro hk
    exact hne (h.exclusive hu value other key hv ((h.lists_iff value key).mp ⟨keys, hg, hk⟩))

/-! ### Ordered contents -/

section ordered

variable {s : Sorted K E} (h : i.Coherent) (hs : i.contents = .ordered s)
include h hs

theorem wellFormed_of_ordered : (Contents.ordered s).WellFormed := hs ▸ h.wellFormed

theorem strict_of_ordered : s.Strict := (h.wellFormed_of_ordered hs).ascending

theorem transCmp_of_ordered : Std.TransCmp s.order := (h.wellFormed_of_ordered hs).transCmp

end ordered

/-! ### Entries and keys -/

theorem hasValue_of_mem (h : i.Coherent) {e : Option E × KeySet K} (he : e ∈ i.contents.entries)
    {key : K} (hk : key ∈ e.2) : i.HasValue key e.1 :=
  (h.lists_iff e.1 key).mp ⟨e.2, h.wellFormed.get?_of_mem he, hk⟩

theorem exists_entry (h : i.Coherent) {key : K} {w : Option E} (hw : i.get key = .indexed w) :
    ∃ e ∈ i.contents.entries, i.contents.order e.1 w = .eq ∧ key ∈ e.2 := by
  have := h.wellFormed.transCmp
  obtain ⟨keys, hg, hk⟩ := (h.lists_iff w key).mpr ⟨w, hw, Std.ReflCmp.compare_self⟩
  obtain ⟨u, hu, heq⟩ := (h.wellFormed.get?_eq_some_iff w keys).mp hg
  exact ⟨(u, keys), hu, heq, hk⟩

theorem exists_key (h : i.Coherent) {e : Option E × KeySet K} (he : e ∈ i.contents.entries) :
    ∃ key, key ∈ e.2 ∧ i.HasValue key e.1 := by
  obtain ⟨key, hk⟩ := KeySet.isEmpty_eq_false_iff.mp (h.wellFormed.inhabited e he)
  exact ⟨key, hk, h.hasValue_of_mem he hk⟩

/-- The contents have an entry of a class if a key has a value of the class. -/
theorem exists_class_iff (h : i.Coherent) (value : Option E) :
    (∃ e ∈ i.contents.entries, i.contents.order e.1 value = .eq) ↔ ∃ key, i.HasValue key value := by
  have := h.wellFormed.transCmp
  constructor
  · rintro ⟨e, he, heq⟩
    obtain ⟨key, _, w, hw, hwe⟩ := h.exists_key he
    exact ⟨key, w, hw, Std.TransCmp.eq_trans hwe heq⟩
  · rintro ⟨key, w, hw, heq⟩
    obtain ⟨e, he, hew, _⟩ := h.exists_entry hw
    exact ⟨e, he, Std.TransCmp.eq_trans hew heq⟩

theorem mem_iff (h : i.Coherent) {value : Option E} {keys : KeySet K}
    (hk : i.contents.get? value = some keys) (key : K) : key ∈ keys ↔ i.HasValue key value := by
  rw [← h.lists_iff, Contents.Lists, hk]
  simp

theorem disjoint (h : i.Coherent) :
    i.contents.entries.Pairwise fun a b => ∀ key, key ∈ a.2 → key ∉ b.2 := by
  have := h.wellFormed.transCmp
  refine h.wellFormed.ascending.imp_of_mem ?_
  intro a b ha hb hab key hka hkb
  obtain ⟨w, hw, hwa⟩ := h.hasValue_of_mem ha hka
  obtain ⟨u, hu, hub⟩ := h.hasValue_of_mem hb hkb
  rw [hw] at hu
  cases hu
  have := Std.TransCmp.eq_trans (Std.OrientedCmp.eq_symm hwa) hub
  rw [hab] at this
  cases this

end Coherent

/-! ### What a write does to the values of keys -/

variable [Std.LawfulEqOrd K]

theorem hasValue_drop (i : Index K E) (key k : K) (value : Option E) :
    (i.drop key).HasValue k value ↔ key ≠ k ∧ i.HasValue k value := by
  unfold HasValue
  rw [get_drop, Contents.order_congr (i.ordering_drop key)]
  by_cases h : key = k
  · simp [h]
  · simp [h]

theorem hasValue_put (i : Index K E) (key k : K) (value v : Option E) :
    (i.put key value).HasValue k v ↔
      (i.contents.order value v = .eq ∧ key = k) ∨ (key ≠ k ∧ i.HasValue k v) := by
  unfold HasValue
  rw [get_put, Contents.order_congr (i.ordering_put key value)]
  by_cases h : key = k
  · simp [h]
  · simp [h]

namespace Coherent

variable {i : Index K E}

theorem drop (h : i.Coherent) (key : K) : (i.drop key).Coherent := by
  have hwf : (i.drop key).contents.WellFormed := by
    unfold Index.drop
    split
    · exact h.wellFormed
    · exact h.wellFormed.unlink _ _
  refine ⟨hwf, ?_, ?_⟩
  · intro v k
    rw [hasValue_drop, ← h.lists_iff]
    unfold Index.drop
    split
    next hnone =>
      have hkey : i.contents.Lists v k → key ≠ k := by
        rintro hl rfl
        obtain ⟨w, hw, _⟩ := (h.lists_iff v key).mp hl
        rw [get, hnone] at hw
        cases hw
      exact ⟨fun hl => ⟨hkey hl, hl⟩, And.right⟩
    next old hold =>
      have hclass : i.contents.Lists v key → i.contents.order old v = .eq := by
        intro hl
        obtain ⟨w, hw, heq⟩ := (h.lists_iff v key).mp hl
        rw [get, hold] at hw
        cases hw
        exact heq
      rw [h.wellFormed.lists_unlink]
      constructor
      · rintro ⟨hn, hl⟩
        refine ⟨?_, hl⟩
        rintro rfl
        exact hn ⟨hclass hl, rfl⟩
      · rintro ⟨hne, hl⟩
        exact ⟨fun hc => hne hc.2, hl⟩
  · intro hu v k l hk hl
    rw [hasValue_drop] at hk hl
    rw [spec_drop] at hu
    exact h.exclusive hu v k l hk.2 hl.2

/-- Putting a key that nothing conflicts with leaves the index coherent. -/
theorem put (h : i.Coherent) {key : K} {value : Option E} (hc : i.conflicts key value = false) :
    (i.put key value).Coherent := by
  have hd := h.drop key
  have hlink : (i.put key value).contents = (i.drop key).contents.link value key := rfl
  have ho : (i.drop key).contents.order = i.contents.order :=
    Contents.order_congr (i.ordering_drop key)
  have := h.wellFormed.transCmp
  refine ⟨hlink ▸ hd.wellFormed.link value key, ?_, ?_⟩
  · intro v k
    rw [hlink, hd.wellFormed.lists_link, hd.lists_iff, hasValue_drop, hasValue_put, ho]
  · intro hu v k l hk hl
    rw [spec_put] at hu
    have hfree : ∀ other, key ≠ other → ¬ i.HasValue other value := by
      intro other hne hv
      have := (h.conflicts_iff key value).mpr ⟨hu, other, hne.symm, hv⟩
      rw [hc] at this
      cases this
    have hmove : ∀ other, i.contents.order value v = .eq → i.HasValue other v →
        i.HasValue other value := by
      rintro other heq ⟨w, hw, hwv⟩
      exact ⟨w, hw, Std.TransCmp.eq_trans hwv (Std.OrientedCmp.eq_symm heq)⟩
    rw [hasValue_put] at hk hl
    rcases hk with ⟨heq, rfl⟩ | ⟨hne, hk⟩
    · rcases hl with ⟨_, rfl⟩ | ⟨hne, hl⟩
      · rfl
      · exact absurd (hmove l heq hl) (hfree l hne)
    · rcases hl with ⟨heq, rfl⟩ | ⟨_, hl⟩
      · exact absurd (hmove k heq hk) (hfree k hne)
      · exact h.exclusive hu v k l hk hl

theorem apply (h : i.Coherent) (w : Write K E) : (i.apply w).2.Coherent := by
  rcases i.apply_cases w with hw | ⟨key, value, hc, hw⟩ | ⟨key, hw⟩ | ⟨key, hw⟩
  · rw [hw]
    exact h
  · rw [hw]
    exact h.put hc
  · rw [hw]
    exact h.drop key
  · rw [hw]
    exact ⟨(h.drop key).wellFormed, (h.drop key).lists_iff, (h.drop key).exclusive⟩

theorem run (h : i.Coherent) (writes : List (Write K E)) : (i.run writes).Coherent :=
  run_induction (fun _ w hj => hj.apply w) i h writes

end Coherent

/-! ### Inserting pairs -/

omit [Std.LawfulEqOrd K] in
theorem apply_insert_of_not_unique {i : Index K E} (h : i.spec.unique = false) (key : K)
    (value : Option E) : (i.apply (.insert key value)).2 = i.put key value := by
  rw [i.apply_insert, conflicts, h, Bool.false_and, if_neg Bool.false_ne_true]

theorem get_run_insert {i : Index K E} (h : i.spec.unique = false)
    (pairs : List (K × Option E)) (hf : ∀ p ∈ pairs, ∀ q ∈ pairs, p.1 = q.1 → p.2 = q.2) (key : K)
    (value : Option E) :
    (i.run (pairs.map fun p => .insert p.1 p.2)).get key = .indexed value ↔
      (key, value) ∈ pairs ∨ (i.get key = .indexed value ∧ ∀ w, (key, w) ∉ pairs) := by
  induction pairs generalizing i with
  | nil => simp [run]
  | cons p rest ih =>
      have hrun : i.run ((p :: rest).map fun p => .insert p.1 p.2) =
          (i.put p.1 p.2).run (rest.map fun p => .insert p.1 p.2) := by
        rw [← apply_insert_of_not_unique h]
        rfl
      have hput : (i.put p.1 p.2).spec.unique = false := by rw [spec_put, h]
      have hf' : ∀ a ∈ rest, ∀ b ∈ rest, a.1 = b.1 → a.2 = b.2 :=
        fun a ha b hb => hf a (List.mem_cons_of_mem _ ha) b (List.mem_cons_of_mem _ hb)
      rw [hrun, ih hput hf', get_put]
      by_cases hk : p.1 = key
      · subst hk
        rw [if_pos Std.ReflCmp.compare_self, Lookup.indexed.injEq]
        constructor
        · rintro (hmem | ⟨rfl, _⟩)
          · exact Or.inl (List.mem_cons_of_mem _ hmem)
          · exact Or.inl List.mem_cons_self
        · rintro (hmem | ⟨_, hnone⟩)
          · have hvalue : p.2 = value := hf p List.mem_cons_self _ hmem rfl
            by_cases hlater : (p.1, value) ∈ rest
            · exact Or.inl hlater
            · refine Or.inr ⟨hvalue, fun w hw => hlater ?_⟩
              rw [← hvalue, hf p List.mem_cons_self _ (List.mem_cons_of_mem _ hw) rfl]
              exact hw
          · exact absurd List.mem_cons_self (hnone p.2)
      · have hne : ∀ w, (key, w) ∈ p :: rest ↔ (key, w) ∈ rest := by
          intro w
          rw [List.mem_cons]
          refine or_iff_right ?_
          rintro rfl
          exact hk rfl
        rw [if_neg fun hc => hk (Std.LawfulEqOrd.eq_of_compare hc), hne]
        simp only [hne]

end PartitionedIndex.Index
