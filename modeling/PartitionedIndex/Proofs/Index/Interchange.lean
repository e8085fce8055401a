import PartitionedIndex.Proofs.Comparator.Named
import PartitionedIndex.Proofs.Index.Coherence

/-! # Unordered and ordered indexes are interchangeable

Two coherent indexes that are for the same, have the same values for all keys and hold the same values
for equal are twins (`Twins`), however their contents are kept. Twins answer every write alike and
stay twins (`Twins.apply`), and they find the same keys under every value (`Twins.get?_eq`), as lookups
settle both what conflicts and what is listed. An ordered index whose comparator separates values
starts as the twin of an unordered one, so the two cannot be told apart but by the order in which
they list values. Main statement: `run_interchangeable`. -/

namespace PartitionedIndex.Index

variable {K E : Type} [Ord K] [Ord E] [Std.TransOrd K] [Std.TransOrd E]

namespace Coherent

variable [Std.LawfulEqOrd K] {i : Index K E} (h : i.Coherent)
include h

theorem get?_eq_some_iff (value : Option E) (keys : KeySet K) :
    i.contents.get? value = some keys ↔
      (∃ key, key ∈ keys) ∧ ∀ key, key ∈ keys ↔ i.HasValue key value := by
  constructor
  · intro hk
    exact ⟨KeySet.isEmpty_eq_false_iff.mp (h.wellFormed.isEmpty_of_get? hk), h.mem_iff hk⟩
  · intro ⟨⟨key, hkey⟩, hkeys⟩
    obtain ⟨found, hfound, _⟩ := (h.lists_iff value key).mpr ((hkeys key).mp hkey)
    rw [hfound, Option.some.injEq]
    apply Std.ExtTreeSet.ext_mem
    intro k
    rw [h.mem_iff hfound, hkeys]

omit [Std.LawfulEqOrd K] in
theorem mem_values_iff (hsep : ∀ v w, i.contents.order v w = .eq ↔ v = w) (value : Option E) :
    value ∈ i.contents.values ↔ ∃ key, i.get key = .indexed value := by
  have hclass := h.exists_class_iff value
  unfold HasValue at hclass
  simpa [hsep, Contents.values, List.mem_map] using hclass

end Coherent

/-! ### Twins -/

/-- Coherent indexes for the same, with the same values of all keys and the same classes of values. -/
structure Twins (i j : Index K E) : Prop where
  left : i.Coherent
  right : j.Coherent
  spec_eq : i.spec = j.spec
  get_eq : ∀ key, i.get key = j.get key
  isPartial_eq : i.isPartial = j.isPartial
  order_iff : ∀ v w, i.contents.order v w = .eq ↔ j.contents.order v w = .eq

namespace Twins

variable {i j : Index K E} (h : Twins i j)
include h

theorem hasValue_iff (key : K) (value : Option E) : i.HasValue key value ↔ j.HasValue key value := by
  unfold HasValue
  rw [h.get_eq]
  exact exists_congr fun w => and_congr_right fun _ => h.order_iff w value

theorem conflicts_eq (key : K) (value : Option E) : i.conflicts key value = j.conflicts key value := by
  rw [Bool.eq_iff_iff, h.left.conflicts_iff, h.right.conflicts_iff, h.spec_eq]
  simp only [h.hasValue_iff]

variable [Std.LawfulEqOrd K]

theorem forward_eq : i.forward = j.forward := Index.forward_eq h.get_eq

theorem apply_eq (w : Write K E) :
    (i.apply w).1 = (j.apply w).1 ∧ (∀ key, (i.apply w).2.get key = (j.apply w).2.get key) ∧
      (i.apply w).2.isPartial = (j.apply w).2.isPartial := by
  have hinsert : ∀ key value,
      (i.apply (.insert key value)).1 = (j.apply (.insert key value)).1 ∧
        (∀ k, (i.apply (.insert key value)).2.get k = (j.apply (.insert key value)).2.get k) ∧
        (i.apply (.insert key value)).2.isPartial = (j.apply (.insert key value)).2.isPartial := by
    intro key value
    rw [apply_insert, apply_insert, h.conflicts_eq, h.spec_eq]
    cases j.conflicts key value with
    | true => exact ⟨rfl, h.get_eq, h.isPartial_eq⟩
    | false =>
        refine ⟨rfl, fun k => ?_, ?_⟩
        · simp [get_put, h.get_eq]
        · simp [h.isPartial_eq]
  have hdrop : ∀ key k, (i.drop key).get k = (j.drop key).get k := by
    intro key k
    rw [get_drop, get_drop, h.get_eq]
  cases w with
  | insert key value => exact hinsert key value
  | update key value => exact hinsert key value
  | delete key =>
      refine ⟨?_, hdrop key, ?_⟩
      · exact congrArg (fun f => Except.ok (Outcome.found (f.contains key))) h.forward_eq
      · simp [apply, delete, h.isPartial_eq]
  | markUnindexable key => exact ⟨rfl, hdrop key, rfl⟩

theorem apply (w : Write K E) : Twins (i.apply w).2 (j.apply w).2 := by
  obtain ⟨_, hget, hpartial⟩ := h.apply_eq w
  obtain ⟨hspec, horder⟩ := i.apply_frame w
  obtain ⟨hspec', horder'⟩ := j.apply_frame w
  refine ⟨h.left.apply w, h.right.apply w, ?_, hget, hpartial, ?_⟩
  · rw [hspec, hspec', h.spec_eq]
  · rw [Contents.order_congr horder, Contents.order_congr horder']
    exact h.order_iff

theorem run (writes : List (Write K E)) : Twins (i.run writes) (j.run writes) := by
  induction writes generalizing i j with
  | nil => exact h
  | cons w rest ih => exact ih (h.apply w)

theorem get?_eq (value : Option E) : i.contents.get? value = j.contents.get? value := by
  apply Option.ext
  intro keys
  rw [h.left.get?_eq_some_iff, h.right.get?_eq_some_iff]
  simp only [h.hasValue_iff]

/-- Twins that are ordered alike, and hold only the same values for equal, are the same. -/
theorem eq (ho : i.contents.ordering = j.contents.ordering)
    (hsep : ∀ v w, i.contents.order v w = .eq → v = w) : i = j := by
  have hforward := h.forward_eq
  have hcontents : i.contents = j.contents :=
    h.left.wellFormed.ext_get? h.right.wellFormed.toAscends ho hsep h.get?_eq
  have hspec := h.spec_eq
  have hpartial := h.isPartial_eq
  obtain ⟨spec, forward, contents, isPartial⟩ := i
  obtain ⟨spec', forward', contents', isPartial'⟩ := j
  subst hspec hforward hcontents hpartial
  rfl

end Twins

/-! ### Comparators that separate values -/

/-- An ordered index `o` does what an unordered index `u` does, and lists the same values, ascending
under its comparator. -/
structure Interchangeable (c : SafeComparator E) (u o : Index K E) : Prop where
  answers : ∀ w, (u.apply w).1 = (o.apply w).1
  get_eq : ∀ key, u.get key = o.get key
  keyCount_eq : u.keyCount = o.keyCount
  isPartial_eq : u.isPartial = o.isPartial
  units_eq : ∀ [Stored K] [Stored E], u.units = o.units
  size_eq : u.contents.size = o.contents.size
  isEmpty_eq : u.contents.isEmpty = o.contents.isEmpty
  contains_eq : ∀ v, u.contents.contains v = o.contents.contains v
  get?_eq : ∀ v, u.contents.get? v = o.contents.get? v
  ascending : o.contents.values.Pairwise fun v w => c.order v w = .lt
  values_perm : o.contents.values.Perm u.contents.values

variable [Std.LawfulEqOrd K]

theorem Twins.interchangeable {c : SafeComparator E} {u o : Index K E} (h : Twins u o)
    (ho : o.contents.order = c.order) (hsep : ∀ v w, o.contents.order v w = .eq ↔ v = w) :
    Interchangeable c u o := by
  have hasc := h.right.wellFormed.values
  have := h.right.wellFormed.transCmp
  have := h.left.wellFormed.transCmp
  have hkeys : u.keyCount = o.keyCount := congrArg Std.ExtTreeMap.size h.forward_eq
  have hperm : o.contents.values.Perm u.contents.values := by
    rw [List.perm_ext_iff_of_nodup hasc.nodup h.left.wellFormed.values.nodup]
    intro v
    rw [h.right.mem_values_iff hsep,
      h.left.mem_values_iff fun v w => (h.order_iff v w).trans (hsep v w)]
    simp only [h.get_eq]
  have hsize : u.contents.size = o.contents.size := by
    have hlength := hperm.length_eq
    rw [Contents.values, Contents.values, List.length_map, List.length_map] at hlength
    rw [Contents.size_eq_length, Contents.size_eq_length, hlength]
  refine ⟨fun w => (h.apply_eq w).1, h.get_eq, hkeys, h.isPartial_eq, ?_, hsize, ?_, ?_, h.get?_eq,
    ?_, hperm⟩
  · intro _ _
    rw [units, units, hkeys, hsize]
  · rw [Contents.isEmpty, Contents.isEmpty, hsize]
  · intro v
    rw [Contents.contains, Contents.contains, h.get?_eq]
  · exact ho ▸ hasc

variable [Std.LawfulEqOrd E]

omit [Std.LawfulEqOrd K] in
/-- Empty indexes are twins if the comparator of the ordered one separates values. -/
theorem twins_empty (spec : IndexSpec) {c : Option (Comparator E)}
    (hc : (SafeComparator.ensure c).Lawful) (hs : (SafeComparator.ensure c).Separates) :
    Twins (Index.unordered spec : Index K E) (Index.ordered spec c) := by
  refine ⟨Coherent.unordered spec, Coherent.ordered spec hc, rfl, fun _ => rfl, rfl, fun v w => ?_⟩
  exact Std.LawfulEqOrd.compare_eq_iff_eq.trans (hs.order_eq_iff hc v w).symm

/-- **Unordered and ordered indexes are interchangeable** if the comparator separates values: after
the same writes, whichever they are, each further write has the same answer, and lookups, counts and
contents are the same, except that the ordered index lists its values ascending. -/
theorem run_interchangeable (spec : IndexSpec) (c : Option (Comparator E))
    (hc : (SafeComparator.ensure c).Lawful) (hs : (SafeComparator.ensure c).Separates)
    (writes : List (Write K E)) :
    Interchangeable (SafeComparator.ensure c) ((Index.unordered spec).run writes)
      ((Index.ordered spec c).run writes) := by
  have horder : ((Index.ordered spec c : Index K E).run writes).contents.order =
      (SafeComparator.ensure c).order :=
    Contents.order_of_ordering (run_frame _ writes).2
  refine ((twins_empty spec hc hs).run writes).interchangeable horder fun v w => ?_
  rw [horder]
  exact hs.order_eq_iff hc v w

theorem run_interchangeable_backwards :
    (SafeComparator.ensure (some Comparator.backwards)).Lawful ∧
      (SafeComparator.ensure (some Comparator.backwards)).Separates ∧
      Interchangeable (SafeComparator.ensure (some Comparator.backwards))
        ((Index.unordered ⟨⟨"age"⟩, true⟩).run
          [.insert (1 : UInt64) (some 30), .insert 2 (some 30), .insert 3 none,
            .update 1 (some 20), .insert 2 (some 30), .markUnindexable 3, .delete 4])
        ((Index.ordered ⟨⟨"age"⟩, true⟩ (some .backwards)).run
          [.insert (1 : UInt64) (some 30), .insert 2 (some 30), .insert 3 none,
            .update 1 (some 20), .insert 2 (some 30), .markUnindexable 3, .delete 4]) :=
  ⟨Comparator.backwards_lawful, Comparator.backwards_separates,
    run_interchangeable _ _ Comparator.backwards_lawful Comparator.backwards_separates _⟩

end PartitionedIndex.Index
