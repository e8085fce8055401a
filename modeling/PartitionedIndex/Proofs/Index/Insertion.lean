import PartitionedIndex.Proofs.Index.Reachable

/-! # What an insertion does

An insertion into an index, of either kind, has two outcomes (`Settled`). It is refused exactly if
the index is unique and another key has a value that the index holds for equal (`Taken`), and then
nothing changes, so the key keeps the value it had. Otherwise the key has the new value (`Gives`): it
is listed in one entry, which is the one found for the value, and what is known of the other keys and
where they are listed stays as it was, although the key may have left an entry for good.
Main statement: `Coherent.settled`. -/

namespace PartitionedIndex.Index

variable {K E : Type} [Ord K] [Ord E] [Std.TransOrd K] [Std.TransOrd E]

/-- A value must not be given to a key: the index is unique, and another key has a value that it holds
for equal. -/
def Taken (i : Index K E) (key : K) (value : Option E) : Prop :=
  i.spec.unique = true ∧
    ∃ other w, other ≠ key ∧ i.get other = .indexed w ∧ i.contents.Equates w value

/-- The index `j` is the index `i` with a value given to a key. The key is in one entry of the
contents, where the value is found, and no other key changes. -/
structure Gives (i : Index K E) (key : K) (value : Option E) (j : Index K E) : Prop where
  spec_eq : j.spec = i.spec
  ordering_eq : j.contents.ordering = i.contents.ordering
  isPartial_eq : j.isPartial = i.isPartial
  get_key : j.get key = .indexed value
  get_other : ∀ other, other ≠ key → j.get other = i.get other
  listed : ∃ e ∈ j.contents.entries, j.contents.get? value = some e.2 ∧ key ∈ e.2 ∧
    ∀ d ∈ j.contents.entries, key ∈ d.2 → d = e
  lists_other : ∀ other, other ≠ key → ∀ w, j.contents.Lists w other ↔ i.contents.Lists w other

/-- What an insertion answers and leaves. -/
inductive Settled (i : Index K E) (key : K) (value : Option E) :
    Except Error Outcome × Index K E → Prop
  /-- A value that is taken is refused, and the index is left as it was. -/
  | refused (h : i.Taken key value) :
      Settled i key value (.error (.uniqueViolation i.spec.extractor.name), i)
  /-- Any other value is given to the key. -/
  | accepted (h : ¬ i.Taken key value) {j : Index K E} (hj : i.Gives key value j) :
      Settled i key value (.ok .done, j)

theorem apply_of_error {i : Index K E} {w : Write K E} {e : Error} (h : (i.apply w).1 = .error e) :
    (i.apply w).2 = i := by
  have hinsert : ∀ key value, (i.apply (.insert key value)).1 = .error e →
      (i.apply (.insert key value)).2 = i := by
    intro key value h
    rw [apply_insert] at h ⊢
    split at h
    next hc => rw [if_pos hc]
    next => cases h
  cases w with
  | insert key value => exact hinsert key value h
  | update key value => exact hinsert key value h
  | delete key => cases h
  | markUnindexable key => cases h

namespace Coherent

variable {i : Index K E}

theorem entry_unique (h : i.Coherent) {d e : Option E × KeySet K} (hd : d ∈ i.contents.entries)
    (he : e ∈ i.contents.entries) {key : K} (hkd : key ∈ d.2) (hke : key ∈ e.2) : d = e := by
  have := h.wellFormed.transCmp
  obtain ⟨v, hv, hvd⟩ := h.hasValue_of_mem hd hkd
  obtain ⟨w, hw, hwe⟩ := h.hasValue_of_mem he hke
  obtain rfl := Lookup.indexed.inj (hv.symm.trans hw)
  exact h.wellFormed.ascending.eq_of_mem hd he
    (Std.TransCmp.eq_trans (Std.OrientedCmp.eq_symm hvd) hwe)

theorem conflicts_iff_taken [Std.LawfulEqOrd E] (h : i.Coherent) (key : K) (value : Option E) :
    i.conflicts key value = true ↔ i.Taken key value := by
  rw [h.conflicts_iff]
  refine and_congr_right fun _ => exists_congr fun other => ?_
  rw [HasValue, ← exists_and_left]
  refine exists_congr fun w => and_congr_right fun _ => and_congr_right fun _ => ?_
  rw [i.contents.equates_iff]

variable [Std.LawfulEqOrd K]

theorem gives_put (h : i.Coherent) {key : K} {value : Option E}
    (hc : i.conflicts key value = false) : i.Gives key value (i.put key value) := by
  have hput := h.put hc
  have hkey : (i.put key value).get key = .indexed value := by
    rw [get_put, if_pos Std.ReflCmp.compare_self]
  refine ⟨i.spec_put key value, i.ordering_put key value, i.isPartial_put key value, hkey, ?_, ?_, ?_⟩
  · intro other hne
    rw [get_put, if_neg fun heq => hne (Std.LawfulEqOrd.eq_of_compare heq).symm]
  · obtain ⟨e, he, heq, hk⟩ := hput.exists_entry hkey
    refine ⟨e, he, ?_, hk, fun d hd hkd => hput.entry_unique hd he hkd hk⟩
    exact (hput.wellFormed.get?_eq_some_iff value e.2).mpr ⟨e.1, he, heq⟩
  · intro other hne w
    rw [hput.lists_iff, h.lists_iff, hasValue_put]
    simp [hne.symm]

/-- **An insertion is refused or done.** It is refused, and changes nothing, if the value is taken;
else it gives the value to the key, and changes nothing else. -/
theorem settled [Std.LawfulEqOrd E] (h : i.Coherent) (key : K) (value : Option E) :
    i.Settled key value (i.apply (.insert key value)) := by
  rw [apply_insert]
  cases hc : i.conflicts key value with
  | true => exact .refused ((h.conflicts_iff_taken key value).mp hc)
  | false =>
      refine .accepted ?_ (h.gives_put hc)
      rw [← h.conflicts_iff_taken, hc]
      exact Bool.false_ne_true

end Coherent

end PartitionedIndex.Index
