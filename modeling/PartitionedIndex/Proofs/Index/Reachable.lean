import PartitionedIndex.Proofs.Index.Coherence

/-! # Reachable indexes

An index is reachable if writes made it of an empty one, which was unordered or had a lawful
comparator. Rebuilding leads to no others (`Reachable.rebuild`). Reachable indexes may be of either
kind, and each may have a comparator of its own; what they have in common is that they are coherent
(`Reachable.coherent`), and that only keys which a write was given a value for get into them
(`get_run`). -/

namespace PartitionedIndex

variable {K E : Type} [Ord K] [Ord E]

/-- Contents hold two values for equal: unordered ones if they are the same, ordered ones if they
compare equal. -/
def Contents.Equates : Contents K E → Option E → Option E → Prop
  | unordered _, v, w => v = w
  | ordered s, v, w => s.order v w = .eq

theorem Contents.equates_iff [Std.LawfulEqOrd E] (c : Contents K E) (v w : Option E) :
    c.Equates v w ↔ c.order v w = .eq := by
  cases c with
  | unordered g => exact Std.LawfulEqOrd.compare_eq_iff_eq.symm
  | ordered s => exact Iff.rfl

/-- The key that a write gives a value. -/
def Write.given? : Write K E → Option K
  | .insert key _ => some key
  | .update key _ => some key
  | .delete _ => none
  | .markUnindexable _ => none

namespace Index

variable [Std.TransOrd K] [Std.TransOrd E]

/-- What writes make of an empty index that is unordered or has a lawful comparator. -/
inductive Reachable : Index K E → Prop
  | unordered (spec : IndexSpec) : Reachable (Index.unordered spec)
  | ordered (spec : IndexSpec) {c : Option (Comparator E)}
      (hc : (SafeComparator.ensure c).Lawful) : Reachable (Index.ordered spec c)
  | apply {i : Index K E} (h : Reachable i) (w : Write K E) : Reachable (i.apply w).2

/-! ### Which keys are in -/

theorem get_of_get_drop {i : Index K E} {key k : K} {v : Option E}
    (h : (i.drop key).get k = .indexed v) : i.get k = .indexed v := by
  rw [get_drop] at h
  split at h
  · cases h
  · exact h

theorem get_of_get_put [Std.LawfulEqOrd K] {i : Index K E} {key k : K} {value v : Option E}
    (hk : key ≠ k) (h : (i.put key value).get k = .indexed v) : i.get k = .indexed v := by
  rw [get_put, if_neg fun heq => hk (Std.LawfulEqOrd.eq_of_compare heq)] at h
  exact h

theorem get_apply [Std.LawfulEqOrd K] {i : Index K E} {w : Write K E} {k : K} {v : Option E}
    (h : (i.apply w).2.get k = .indexed v) : i.get k = .indexed v ∨ w.given? = some k := by
  have hinsert : ∀ key value, (i.apply (.insert key value)).2.get k = .indexed v →
      i.get k = .indexed v ∨ some key = some k := by
    intro key value h
    rw [apply_insert] at h
    split at h
    · exact Or.inl h
    · by_cases hk : key = k
      · exact Or.inr (congrArg some hk)
      · exact Or.inl (get_of_get_put hk h)
  cases w with
  | insert key value => exact hinsert key value h
  | update key value => exact hinsert key value h
  | delete key => exact Or.inl (get_of_get_drop h)
  | markUnindexable key => exact Or.inl (get_of_get_drop h)

theorem get_run [Std.LawfulEqOrd K] {i : Index K E} {writes : List (Write K E)} {k : K}
    {v : Option E} (h : (i.run writes).get k = .indexed v) :
    i.get k = .indexed v ∨ ∃ w ∈ writes, w.given? = some k := by
  induction writes generalizing i with
  | nil => exact Or.inl h
  | cons w rest ih =>
      rcases ih (i := (i.apply w).2) h with hw | ⟨u, hu, hk⟩
      · rcases get_apply hw with hi | hk
        · exact Or.inl hi
        · exact Or.inr ⟨w, List.mem_cons_self, hk⟩
      · exact Or.inr ⟨u, List.mem_cons_of_mem w hu, hk⟩

theorem given_of_get_run [Std.LawfulEqOrd K] {spec : IndexSpec} {c : Contents K E}
    {writes : List (Write K E)} {k : K} {v : Option E}
    (h : ((ofContents spec c).run writes).get k = .indexed v) :
    ∃ w ∈ writes, w.given? = some k := by
  rcases get_run h with hempty | hgiven
  · exact absurd hempty (get_ofContents_ne spec c k v)
  · exact hgiven

theorem insertOrMark_eq_apply (i : Index K E) (entry : K × Option E) :
    ∃ w, i.insertOrMark entry = (i.apply w).2 := by
  unfold insertOrMark
  cases h : i.insert entry.1 entry.2 with
  | ok done =>
      refine ⟨.insert entry.1 entry.2, ?_⟩
      rw [apply, h, settle]
  | error e => exact ⟨.markUnindexable entry.1, rfl⟩

/-- What every write keeps holds after an index is rebuilt, if it holds of the index without its
keys. -/
theorem rebuild_induction {P : Index K E → Prop} (hstep : ∀ i w, P i → P (i.apply w).2)
    (i : Index K E) (h : P (ofContents i.spec i.contents.clear)) (entries : List (K × Option E)) :
    P (i.rebuild entries) := by
  unfold rebuild
  generalize ofContents i.spec i.contents.clear = start at h
  induction entries generalizing start with
  | nil => exact h
  | cons entry rest ih =>
      obtain ⟨w, hw⟩ := start.insertOrMark_eq_apply entry
      rw [List.foldl_cons, hw]
      exact ih _ (hstep start w h)

namespace Reachable

variable {i : Index K E}

theorem new (spec : IndexSpec) (kind : IndexKind) : (Index.new spec kind : Index K E).Reachable := by
  cases kind with
  | unordered => exact Reachable.unordered spec
  | ordered => exact Reachable.ordered spec (c := none) SafeComparator.lawful_natural

theorem run (h : i.Reachable) (writes : List (Write K E)) : (i.run writes).Reachable :=
  run_induction (fun _ w hj => hj.apply w) i h writes

/-- Reachable indexes are coherent, whatever their kind and their comparator. -/
theorem coherent [Std.LawfulEqOrd K] (h : i.Reachable) : i.Coherent := by
  induction h with
  | unordered spec => exact Coherent.unordered spec
  | ordered spec hc => exact Coherent.ordered spec hc
  | apply _ w ih => exact ih.apply w

theorem clear (h : i.Reachable) : (ofContents i.spec i.contents.clear).Reachable := by
  induction h with
  | unordered spec => exact Reachable.unordered spec
  | ordered spec hc => exact Reachable.ordered spec hc
  | @apply i _ w ih =>
      rw [(i.apply_frame w).1, Contents.clear_congr (i.apply_frame w).2]
      exact ih

theorem rebuild (h : i.Reachable) (entries : List (K × Option E)) :
    (i.rebuild entries).Reachable :=
  rebuild_induction (fun _ w hj => hj.apply w) i h.clear entries

end Reachable

theorem run_ordered_alike (spec : IndexSpec) {c : Option (Comparator E)}
    (hc : (SafeComparator.ensure c).Lawful) (writes : List (Write K E)) :
    ((Index.ordered spec c).run writes).Reachable ∧
      ((Index.ordered spec c).run writes).isOrdered = true ∧
      ((Index.ordered spec c).run writes).contents.order = (SafeComparator.ensure c).order := by
  obtain ⟨s, hs, hd⟩ := exists_run_ordered spec c writes
  refine ⟨(Reachable.ordered spec hc).run writes, ?_, ?_⟩
  · rw [isOrdered, hs]
    rfl
  · rw [hs, Contents.order_ordered, Sorted.order, hd]

end Index

end PartitionedIndex
