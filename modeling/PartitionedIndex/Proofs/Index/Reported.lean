import Mathlib.Data.List.Induction
import PartitionedIndex.Proofs.Index.Reachable

/-! # The values that an index reports

Contents report the values of their entries, and an entry keeps the value it was made with. A write leaves
the value of an entry standing as long as a key other than the one written has a value of its class
(`Coherent.mem_values_drop_iff`, `Coherent.mem_values_put_iff`). So a value that is reported was the value
of a key, and since then some key has always had one of its class (`Coherent.lingers_of_mem_run`); but it
need not be the value of a key any more, unless a class has one value or one key. An ordered index
reports only values of keys, whatever is written, if it is unique or its comparator separates values
(`reportsCurrent_run`), and, if there are two keys, only then (`unique_or_separates`). -/

namespace PartitionedIndex

variable {K E : Type} [Ord K] [Ord E]

/-! ### Values and writes -/

namespace Sorted

variable [Std.TransOrd K] {s : Sorted K E} [Std.TransCmp s.order]

theorem mem_values_link_iff (h : s.Strict) (value v : Option E) (key : K) :
    v ∈ (s.link value key).values ↔ v ∈ s.values ∨ (v = value ∧ s.get? value = none) := by
  obtain ⟨below, same, above, hs⟩ := Splits.exists_of_ascending h value
  unfold values
  rw [(splits_link h key hs).entries_eq, get?_of_splits h hs, hs.entries_eq]
  cases same with
  | none => simp [or_comm, or_left_comm]
  | some e => simp

theorem mem_values_of_unlink (h : s.Strict) {value v : Option E} {key : K}
    (hv : v ∈ (s.unlink value key).values) : v ∈ s.values := by
  obtain ⟨below, same, above, hs⟩ := Splits.exists_of_ascending h value
  unfold values at hv ⊢
  rw [(splits_unlink h key hs).entries_eq] at hv
  rw [hs.entries_eq]
  cases same with
  | none => exact hv
  | some e =>
      rw [Option.map_some, Option.filter] at hv
      split at hv
      next => simpa using hv
      next =>
        simp only [Option.toList_none, List.nil_append, List.map_append, List.mem_append] at hv
        simp only [Option.toList_some, List.singleton_append, List.map_append, List.map_cons,
          List.mem_append, List.mem_cons]
        exact hv.imp_right Or.inr

end Sorted

namespace Contents

variable [Std.TransOrd K] [Std.TransOrd E] {c : Contents K E}

omit [Std.TransOrd K] in
theorem mem_values_iff (c : Contents K E) (v : Option E) :
    v ∈ c.values ↔ ∃ keys, (v, keys) ∈ c.entries := by
  simp [values]

variable [Std.LawfulEqOrd E]

omit [Std.TransOrd K] in
theorem mem_values_unordered_iff (g : Grouped K E) (v : Option E) :
    v ∈ (unordered g).values ↔ ∃ keys, g.get? v = some keys := by
  rw [mem_values_iff]
  exact exists_congr fun keys => (Ascends.unordered g).mem_entries_iff
    (fun _ _ h => Std.LawfulEqOrd.eq_of_compare h) v keys

theorem Ascends.mem_values_link_iff (h : c.Ascends) (value v : Option E) (key : K) :
    v ∈ (c.link value key).values ↔ v ∈ c.values ∨ (v = value ∧ c.get? value = none) := by
  cases c with
  | ordered s =>
      have : Std.TransCmp s.order := h.transCmp
      exact Sorted.mem_values_link_iff h.ascending value v key
  | unordered g =>
      rw [Contents.link, mem_values_unordered_iff, mem_values_unordered_iff, g.get?_link, get?]
      by_cases hv : value = v
      · subst hv
        cases g.get? value <;> simp
      · simp [hv, Ne.symm hv]

theorem Ascends.mem_values_of_unlink (h : c.Ascends) {value v : Option E} {key : K}
    (hv : v ∈ (c.unlink value key).values) : v ∈ c.values := by
  cases c with
  | ordered s =>
      have : Std.TransCmp s.order := h.transCmp
      exact Sorted.mem_values_of_unlink h.ascending hv
  | unordered g =>
      obtain ⟨keys, hk⟩ := (mem_values_unordered_iff _ v).mp hv
      refine (mem_values_unordered_iff g v).mpr ?_
      rw [g.get?_unlink] at hk
      split at hk
      next heq =>
        obtain ⟨hmap, _⟩ := Option.filter_eq_some_iff.mp hk
        obtain ⟨old, hold, _⟩ := Option.map_eq_some_iff.mp hmap
        rw [Std.LawfulEqOrd.compare_eq_iff_eq] at heq
        exact ⟨old, heq ▸ hold⟩
      next => exact ⟨keys, hk⟩

end Contents

namespace Index

variable [Std.TransOrd K] [Std.TransOrd E]

namespace Coherent

variable {i : Index K E}

theorem exists_hasValue (h : i.Coherent) {v : Option E} (hv : v ∈ i.contents.values) :
    ∃ key, i.HasValue key v := by
  obtain ⟨keys, hk⟩ := (i.contents.mem_values_iff v).mp hv
  obtain ⟨key, _, hkey⟩ := h.exists_key hk
  exact ⟨key, hkey⟩

theorem get?_eq_none_iff (h : i.Coherent) (value : Option E) :
    i.contents.get? value = none ↔ ∀ key, ¬ i.HasValue key value := by
  rw [← Option.not_isSome_iff_eq_none, ← not_exists, ← h.exists_class_iff]
  exact not_congr (h.wellFormed.contains_iff value)

variable [Std.LawfulEqOrd K] [Std.LawfulEqOrd E]

/-- **Taking a key out leaves a value standing** if another key has a value of its class. -/
theorem mem_values_drop_iff (h : i.Coherent) (key : K) (v : Option E) :
    v ∈ (i.drop key).contents.values ↔
      v ∈ i.contents.values ∧ ∃ other, key ≠ other ∧ i.HasValue other v := by
  have hd := h.drop key
  have hsub : ∀ u, u ∈ (i.drop key).contents.values → u ∈ i.contents.values := by
    intro u hu
    unfold Index.drop at hu
    split at hu
    · exact hu
    · exact h.wellFormed.mem_values_of_unlink hu
  constructor
  · intro hv
    obtain ⟨other, ho⟩ := hd.exists_hasValue hv
    exact ⟨hsub v hv, other, (i.hasValue_drop key other v).mp ho⟩
  · rintro ⟨hv, other, ho⟩
    have := h.wellFormed.transCmp
    obtain ⟨e, he, heq⟩ := (hd.exists_class_iff v).mpr ⟨other, (i.hasValue_drop key other v).mpr ho⟩
    rw [Contents.order_congr (i.ordering_drop key)] at heq
    have hmem : e.1 ∈ (i.drop key).contents.values := List.mem_map_of_mem he
    rw [← h.wellFormed.values.eq_of_mem (hsub _ hmem) hv heq]
    exact hmem

/-- **Putting a key leaves a value standing** if another key has a value of its class, and adds the value
that is given if no other key has one of its class. -/
theorem mem_values_put_iff (h : i.Coherent) (key : K) (value v : Option E) :
    v ∈ (i.put key value).contents.values ↔
      (v ∈ i.contents.values ∧ ∃ other, key ≠ other ∧ i.HasValue other v) ∨
        (v = value ∧ ∀ other, key ≠ other → ¬ i.HasValue other value) := by
  have hd := h.drop key
  show v ∈ ((i.drop key).contents.link value key).values ↔ _
  rw [hd.wellFormed.mem_values_link_iff, h.mem_values_drop_iff, hd.get?_eq_none_iff]
  simp only [hasValue_drop, not_and]

/-! ### What is reported after a run -/

/-- A value that is reported after a write was reported before, and some key still has a value of its
class; or it is the value of a key now. -/
theorem mem_values_apply (h : i.Coherent) (w : Write K E) {v : Option E}
    (hv : v ∈ (i.apply w).2.contents.values) :
    (v ∈ i.contents.values ∧ ∃ key, (i.apply w).2.HasValue key v) ∨
      ∃ key, (i.apply w).2.get key = .indexed v := by
  have hclass := (h.apply w).exists_hasValue hv
  rcases i.apply_cases w with hw | ⟨key, value, _, hw⟩ | ⟨key, hw⟩ | ⟨key, hw⟩
  · rw [hw] at hv
    exact Or.inl ⟨hv, hclass⟩
  · rw [hw] at hv
    rcases (h.mem_values_put_iff key value v).mp hv with ⟨hold, _⟩ | ⟨rfl, _⟩
    · exact Or.inl ⟨hold, hclass⟩
    · refine Or.inr ⟨key, ?_⟩
      rw [hw, get_put, if_pos Std.ReflCmp.compare_self]
  · rw [hw] at hv
    exact Or.inl ⟨((h.mem_values_drop_iff key v).mp hv).1, hclass⟩
  · rw [hw] at hv
    exact Or.inl ⟨((h.mem_values_drop_iff key v).mp hv).1, hclass⟩

end Coherent

/-- The value was that of a key at some point of a run, and since then some key has always had a value of
its class. -/
def Lingers (i : Index K E) (writes : List (Write K E)) (v : Option E) : Prop :=
  ∃ before, before <+: writes ∧ (∃ key, (i.run before).get key = .indexed v) ∧
    ∀ upto, before <+: upto → upto <+: writes → ∃ key, (i.run upto).HasValue key v

theorem run_append_singleton (i : Index K E) (writes : List (Write K E)) (w : Write K E) :
    i.run (writes ++ [w]) = ((i.run writes).apply w).2 := by
  rw [run, List.foldl_append]
  rfl

variable [Std.LawfulEqOrd K] [Std.LawfulEqOrd E]

/-- **Values that are reported linger**: they need not be the values of keys any more. -/
theorem Coherent.lingers_of_mem_run {i : Index K E} (h : i.Coherent) (hempty : i.contents.values = [])
    (writes : List (Write K E)) {v : Option E} (hv : v ∈ (i.run writes).contents.values) :
    i.Lingers writes v := by
  induction writes using List.reverseRecOn with
  | nil =>
      have hnil : v ∈ i.contents.values := hv
      rw [hempty] at hnil
      cases hnil
  | append_singleton writes w ih =>
      have hrun := i.run_append_singleton writes w
      rw [hrun] at hv
      rcases (h.run writes).mem_values_apply w hv with ⟨hold, hclass⟩ | hnow
      · obtain ⟨before, hbefore, hkey, hsince⟩ := ih hold
        refine ⟨before, hbefore.trans (List.prefix_append _ _), hkey, ?_⟩
        intro upto hfrom hto
        rcases List.prefix_concat_iff.mp hto with rfl | hto
        · rw [hrun]
          exact hclass
        · exact hsince upto hfrom hto
      · refine ⟨writes ++ [w], List.prefix_rfl, ?_, ?_⟩
        · rw [hrun]
          exact hnow
        · intro upto hfrom hto
          obtain rfl := hfrom.eq_of_length_le hto.length_le
          obtain ⟨key, hkey⟩ := hnow
          have := (h.run (writes ++ [w])).wellFormed.transCmp
          exact ⟨key, v, hrun ▸ hkey, Std.ReflCmp.compare_self⟩

/-! ### Reporting only values of keys -/

/-- Every value that the index reports, in whatever way, is the value of a key. -/
structure ReportsCurrent (i : Index K E) : Prop where
  listed : ∀ v ∈ i.contents.values, ∃ key, i.get key = .indexed v
  scanned : ∀ s, i.contents = .ordered s → ∀ v ∈ s.values, ∃ key, i.get key = .indexed v
  least : ∀ s, i.contents = .ordered s → ∀ v, s.least? = some v → ∃ key, i.get key = .indexed v
  greatest : ∀ s, i.contents = .ordered s → ∀ v, s.greatest? = some v → ∃ key, i.get key = .indexed v

omit [Std.LawfulEqOrd K] [Std.LawfulEqOrd E] in
theorem reportsCurrent_of_listed {i : Index K E}
    (h : ∀ v ∈ i.contents.values, ∃ key, i.get key = .indexed v) : i.ReportsCurrent := by
  have hscanned : ∀ s, i.contents = .ordered s → ∀ v ∈ s.values, ∃ key, i.get key = .indexed v := by
    intro s hs v hv
    refine h v ?_
    rw [hs]
    exact hv
  exact ⟨h, hscanned, fun s hs v hv => hscanned s hs v (List.mem_of_head? hv),
    fun s hs v hv => hscanned s hs v (List.mem_of_getLast? hv)⟩

omit [Std.LawfulEqOrd K] [Std.LawfulEqOrd E] in
/-- If a class has one value, that is the value of its keys. -/
theorem Coherent.reportsCurrent_of_separates {i : Index K E} (h : i.Coherent)
    (hsep : ∀ v w, i.contents.order v w = .eq → v = w) : i.ReportsCurrent := by
  refine reportsCurrent_of_listed fun v hv => ?_
  obtain ⟨key, w, hw, heq⟩ := h.exists_hasValue hv
  rw [hsep w v heq] at hw
  exact ⟨key, hw⟩

/-- If a class has one key, the entry goes when the key gets another value. -/
theorem ReportsCurrent.apply_of_unique {i : Index K E} (hr : i.ReportsCurrent) (h : i.Coherent)
    (hu : i.spec.unique = true) (w : Write K E) : (i.apply w).2.ReportsCurrent := by
  have := h.wellFormed.transCmp
  have hstands : ∀ key v, v ∈ i.contents.values → (∃ other, key ≠ other ∧ i.HasValue other v) →
      ∃ k, compare key k ≠ .eq ∧ i.get k = .indexed v := by
    rintro key v hv ⟨other, hne, ho⟩
    obtain ⟨k, hk⟩ := hr.listed v hv
    obtain rfl := h.exclusive hu v k other ⟨v, hk, Std.ReflCmp.compare_self⟩ ho
    exact ⟨k, fun heq => hne (Std.LawfulEqOrd.eq_of_compare heq), hk⟩
  have hdrop : ∀ key, ∀ v ∈ (i.drop key).contents.values, ∃ k, (i.drop key).get k = .indexed v := by
    intro key v hv
    obtain ⟨hold, hother⟩ := (h.mem_values_drop_iff key v).mp hv
    obtain ⟨k, hne, hk⟩ := hstands key v hold hother
    exact ⟨k, by rw [get_drop, if_neg hne, hk]⟩
  rcases i.apply_cases w with hw | ⟨key, value, _, hw⟩ | ⟨key, hw⟩ | ⟨key, hw⟩
  · rw [hw]
    exact hr
  · rw [hw]
    refine reportsCurrent_of_listed fun v hv => ?_
    rcases (h.mem_values_put_iff key value v).mp hv with ⟨hold, hother⟩ | ⟨rfl, _⟩
    · obtain ⟨k, hne, hk⟩ := hstands key v hold hother
      exact ⟨k, by rw [get_put, if_neg hne, hk]⟩
    · exact ⟨key, by rw [get_put, if_pos Std.ReflCmp.compare_self]⟩
  · rw [hw]
    exact reportsCurrent_of_listed (hdrop key)
  · rw [hw]
    exact reportsCurrent_of_listed (hdrop key)

theorem ReportsCurrent.run_of_unique {i : Index K E} (hr : i.ReportsCurrent) (h : i.Coherent)
    (hu : i.spec.unique = true) (writes : List (Write K E)) : (i.run writes).ReportsCurrent := by
  refine (run_induction (P := fun j => j.ReportsCurrent ∧ j.Coherent ∧ j.spec.unique = true) ?_ i
    ⟨hr, h, hu⟩ writes).1
  rintro j w ⟨hr, h, hu⟩
  exact ⟨hr.apply_of_unique h hu w, h.apply w, (j.apply_frame w).1 ▸ hu⟩

/-! ### A value that is left over -/

/-- Two keys are given values, and the first is taken out. -/
def joinAndLeave (k l : K) (v w : Option E) : List (Write K E) :=
  [.insert k v, .insert l w, .delete k]

omit [Std.LawfulEqOrd K] [Std.LawfulEqOrd E] in
theorem run_joinAndLeave {i : Index K E} (hu : i.spec.unique = false) (k l : K) (v w : Option E) :
    i.run (joinAndLeave k l v w) = ((i.put k v).put l w).drop k := by
  have hput : (i.put k v).spec.unique = false := by rw [spec_put, hu]
  rw [← apply_insert_of_not_unique hput, ← apply_insert_of_not_unique hu]
  rfl

section joinAndLeave

variable {i : Index K E} (hu : i.spec.unique = false) (hempty : ∀ key v, i.get key ≠ .indexed v)
variable {k l : K} {v w : Option E}
include hu hempty

omit [Std.LawfulEqOrd E] in
/-- When a key has joined another one and left, no key has the value it had, if that of the other
one is different. -/
theorem get_joinAndLeave_ne (hne : w ≠ v) (key : K) :
    (i.run (joinAndLeave k l v w)).get key ≠ .indexed v := by
  rw [run_joinAndLeave hu]
  intro hget
  have hput := get_of_get_drop hget
  by_cases hl : l = key
  · subst hl
    rw [get_put, if_pos Std.ReflCmp.compare_self] at hput
    exact hne (Lookup.indexed.inj hput)
  · have hput := get_of_get_put hl hput
    by_cases hk : k = key
    · subst hk
      rw [get_drop, if_pos Std.ReflCmp.compare_self] at hget
      cases hget
    · exact hempty key v (get_of_get_put hk hput)

/-- When a key has joined another one and left, the value it had is still reported if that of the
other one compares equal. -/
theorem Coherent.mem_values_joinAndLeave (h : i.Coherent) (hkl : k ≠ l)
    (hwv : i.contents.order w v = .eq) :
    v ∈ (i.run (joinAndLeave k l v w)).contents.values := by
  have := h.wellFormed.transCmp
  have hput : (i.put k v).spec.unique = false := by rw [spec_put, hu]
  have h1 : (i.put k v).Coherent :=
    apply_insert_of_not_unique hu k v ▸ h.apply (.insert k v)
  have h2 : ((i.put k v).put l w).Coherent :=
    apply_insert_of_not_unique hput l w ▸ h1.apply (.insert l w)
  have hkv : (i.put k v).HasValue k v :=
    (i.hasValue_put k k v v).mpr (Or.inl ⟨Std.ReflCmp.compare_self, rfl⟩)
  have hlv : ((i.put k v).put l w).HasValue l v := by
    rw [hasValue_put, Contents.order_congr (i.ordering_put k v)]
    exact Or.inl ⟨hwv, rfl⟩
  -- `k` makes the entry, `l` joins it, and keeps it when `k` leaves
  rw [run_joinAndLeave hu, h2.mem_values_drop_iff, h1.mem_values_put_iff, h.mem_values_put_iff]
  refine ⟨Or.inl ⟨Or.inr ⟨rfl, ?_⟩, k, hkl.symm, hkv⟩, l, hkl, hlv⟩
  rintro other _ ⟨u, hu, _⟩
  exact hempty other u hu

end joinAndLeave

/-! ### Which indexes report only values of keys -/

/-- **An ordered index reports only values of keys, whatever is written, if it is unique or its comparator
separates values.** -/
theorem reportsCurrent_run (spec : IndexSpec) {c : Option (Comparator E)}
    (hc : (SafeComparator.ensure c).Lawful)
    (h : spec.unique = true ∨ (SafeComparator.ensure c).Separates) (writes : List (Write K E)) :
    ((Index.ordered spec c : Index K E).run writes).ReportsCurrent := by
  have hcoherent : (Index.ordered spec c : Index K E).Coherent := Coherent.ordered spec hc
  cases h with
  | inl hu =>
      have hempty : (Index.ordered spec c : Index K E).ReportsCurrent :=
        reportsCurrent_of_listed fun v hv => by cases hv
      exact hempty.run_of_unique hcoherent hu writes
  | inr hsep =>
      refine (hcoherent.run writes).reportsCurrent_of_separates fun v w hvw => ?_
      rw [(run_ordered_alike spec hc writes).2.2] at hvw
      exact (hsep.order_eq_iff hc v w).mp hvw

/-- If there are two keys, an ordered index that reports only values of keys, whatever is written,
is unique or has a comparator that separates values. -/
theorem unique_or_separates (spec : IndexSpec) {c : Option (Comparator E)}
    (hc : (SafeComparator.ensure c).Lawful) {k l : K} (hkl : k ≠ l)
    (hall : ∀ writes, ((Index.ordered spec c : Index K E).run writes).ReportsCurrent) :
    spec.unique = true ∨ (SafeComparator.ensure c).Separates := by
  by_contra hnot
  obtain ⟨hu, hsep⟩ := not_or.mp hnot
  obtain ⟨b, hb⟩ := not_forall.mp hsep
  obtain ⟨a, ha⟩ := not_forall.mp hb
  obtain ⟨hba, hne⟩ := Classical.not_imp.mp ha
  have h : (Index.ordered spec c : Index K E).Coherent := Coherent.ordered spec hc
  have hu : spec.unique = false := Bool.eq_false_iff.mpr hu
  have hempty := get_ofContents_ne (K := K) spec (.ordered { declared := c })
  have hlisted := h.mem_values_joinAndLeave (v := some a) (w := some b) hu hempty hkl hba
  obtain ⟨key, hkey⟩ := (hall (joinAndLeave k l (some a) (some b))).listed _ hlisted
  exact get_joinAndLeave_ne hu hempty (fun heq => hne (Option.some.inj heq)) key hkey

theorem reportsCurrent_run_unordered (spec : IndexSpec) (writes : List (Write K E)) :
    ((Index.unordered spec : Index K E).run writes).ReportsCurrent := by
  refine ((Coherent.unordered spec).run writes).reportsCurrent_of_separates fun v w hvw => ?_
  have hframe := (run_frame (Index.unordered spec : Index K E) writes).2
  rw [Contents.order_congr hframe] at hvw
  exact Std.LawfulEqOrd.eq_of_compare hvw

end Index

end PartitionedIndex
