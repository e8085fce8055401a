import PartitionedIndex.Proofs.Index.Reported
import PartitionedIndex.Proofs.View.ListedValues

/-! # The values that composites report

Composites, ordered or not, list values that indexes in scope store (`Composite.stores_of_mem_values`),
so what is said of the values that an index reports passes on to them: each is of the class of a value
that some key in scope has, and each is the value of a key if the indexes report only such values
(`Composite.ReportsStored`). Main statement: `Index.reported_values`. -/

namespace PartitionedIndex

variable {K E : Type} [Ord K] [Ord E] [Std.TransOrd K] [Std.TransOrd E]

namespace Composite

/-- The values listed, in order or not, are stored in scope. A value that is stored is of the class of the
value of a key there; it is the value of a key if all indexes in scope report only such values. -/
structure ReportsStored (c : Composite K E) : Prop where
  stored : ∀ v, v ∈ c.contents.values ∨ v ∈ c.contents.base.values → c.view.Stores c.extractor v
  equates : ∀ v, c.view.Stores c.extractor v → ∃ id i, c.view.indexAt? id c.extractor = some i ∧
    v ∈ i.contents.values ∧ ∃ key w, i.get key = .indexed w ∧ i.contents.Equates w v
  current : (∀ id i, c.view.indexAt? id c.extractor = some i → i.ReportsCurrent) →
    ∀ v, c.view.Stores c.extractor v →
      ∃ id i key, c.view.indexAt? id c.extractor = some i ∧ i.get key = .indexed v

variable [Std.LawfulEqOrd E]

omit [Std.TransOrd K] in
/-- What is listed in order is one value of each class of those gathered. -/
theorem stores_of_mem_values (c : Composite K E) {v : Option E} (hv : v ∈ c.contents.values) :
    c.view.Stores c.extractor v := by
  have hgathered : v ∈ Merged.values ⟨c.view, c.extractor⟩ := by
    rw [← Std.ExtTreeSet.mem_toList]
    unfold contents at hv
    cases hc : c.comparator with
    | none =>
        rw [hc] at hv
        exact hv
    | some s =>
        rw [hc] at hv
        exact OrderedValues.mem_of_mem_ofSet (c := s) _ hv
  exact (Merged.mem_values_iff_stores ⟨c.view, c.extractor⟩ v).mp
    (Std.ExtTreeSet.mem_toList.mpr hgathered)

theorem reportsStored [Std.LawfulEqOrd K] {c : Composite K E} (h : c.view.Coherent c.extractor) :
    c.ReportsStored := by
  refine ⟨?_, ?_, ?_⟩
  · rintro v (hv | hv)
    · exact c.stores_of_mem_values hv
    · rw [base_contents, ← Std.ExtTreeSet.mem_toList] at hv
      exact (Merged.mem_values_iff_stores ⟨c.view, c.extractor⟩ v).mp hv
  · rintro v ⟨id, i, hi, hv⟩
    obtain ⟨key, w, hw, heq⟩ := (h id i hi).exists_hasValue hv
    exact ⟨id, i, hi, hv, key, w, hw, (i.contents.equates_iff w v).mpr heq⟩
  · rintro hcurrent v ⟨id, i, hi, hv⟩
    obtain ⟨key, hkey⟩ := (hcurrent id i hi).listed v hv
    exact ⟨id, i, key, hi, hkey⟩

end Composite

variable [Std.LawfulEqOrd K] [Std.LawfulEqOrd E]

/-- **The values that are reported.** Whatever is written, an ordered index reports only values of keys if
it is unique or its comparator separates values, and, if there are two keys, only then; an unordered one
always does. Any value that an ordered index reports was the value of a key, and since then some key has
always had a value of its class. Composites report what the indexes in scope do. -/
theorem Index.reported_values (spec : IndexSpec) (c : Option (Comparator E))
    (hc : (SafeComparator.ensure c).Lawful) :
    (spec.unique = true ∨ (SafeComparator.ensure c).Separates →
        ∀ writes, ((Index.ordered spec c : Index K E).run writes).ReportsCurrent) ∧
      (∀ k l : K, k ≠ l →
        (∀ writes, ((Index.ordered spec c : Index K E).run writes).ReportsCurrent) →
          spec.unique = true ∨ (SafeComparator.ensure c).Separates) ∧
      (∀ writes v, v ∈ ((Index.ordered spec c : Index K E).run writes).contents.values →
        (Index.ordered spec c).Lingers writes v) ∧
      (∀ writes, ((Index.unordered spec : Index K E).run writes).ReportsCurrent) ∧
      ∀ (view : View K E) (x : Extractor),
        (∀ id i, view.indexAt? id x = some i → i.Reachable) →
        ∀ o d, (Composite.ofView view x o d).ReportsStored := by
  refine ⟨reportsCurrent_run spec hc, fun k l hkl => unique_or_separates spec hc hkl, ?_,
    reportsCurrent_run_unordered spec, ?_⟩
  · exact fun writes v hv => (Coherent.ordered spec hc).lingers_of_mem_run rfl writes hv
  · exact fun view x hr o d =>
      Composite.reportsStored (c := .ofView view x o d) fun id i hi => (hr id i hi).coherent

/-! ### An age that is left over -/

namespace Leftover

/-- The keys one and two are given ages of one ten, and the first is taken out. -/
def ages : Index UInt64 Int64 :=
  (Index.ordered ⟨⟨"age"⟩, false⟩ (some .tens)).run (Index.joinAndLeave 1 2 (some 12) (some 17))

def view : View UInt64 Int64 where
  table := (∅ : Table UInt64 Int64).putIndex ⟨0⟩ ⟨"age"⟩ ages
  scope := .owned
  owner := .modulo 1
  sampler := .first

theorem indexAt?_view {id : PartitionId} {i : Index UInt64 Int64} :
    view.indexAt? id ⟨"age"⟩ = some i ↔ id = ⟨0⟩ ∧ i = ages := by
  rw [View.indexAt?_eq_some_iff]
  simp only [view, View.covers, Table.contains_putIndex, Table.contains_empty, Table.index?_putIndex,
    Table.index?_empty, and_true]
  by_cases hid : (⟨0⟩ : PartitionId) = id
  · simp [hid, eq_comm]
  · simp [hid, Ne.symm hid]

theorem get_ages_ne (key : UInt64) : ages.get key ≠ .indexed (some 12) :=
  Index.get_joinAndLeave_ne rfl (Index.get_ofContents_ne _ _) (by decide) key

theorem reachable (id : PartitionId) (i : Index UInt64 Int64)
    (hi : view.indexAt? id ⟨"age"⟩ = some i) : i.Reachable := by
  obtain ⟨_, rfl⟩ := indexAt?_view.mp hi
  exact (Index.Reachable.ordered _ Comparator.tens_lawful).run _

end Leftover

/-- A unique index by tens reports only values of keys; in another one the age of a key that was taken
out may linger. -/
theorem Index.reported_values_tens :
    (SafeComparator.ensure (some Comparator.tens)).Lawful ∧ (1 : UInt64) ≠ 2 ∧
      (∀ writes, ((Index.ordered ⟨⟨"age"⟩, true⟩ (some .tens) : Index UInt64 Int64).run
        writes).ReportsCurrent) ∧
      (¬ ∀ writes, ((Index.ordered ⟨⟨"age"⟩, false⟩ (some .tens) : Index UInt64 Int64).run
        writes).ReportsCurrent) ∧
      some 12 ∈ Leftover.ages.contents.values ∧
      (Index.ordered ⟨⟨"age"⟩, false⟩ (some .tens)).Lingers
        (joinAndLeave (1 : UInt64) 2 (some 12) (some 17)) (some 12) ∧
      (∀ id i, Leftover.view.indexAt? id ⟨"age"⟩ = some i → i.Reachable) ∧
      (Composite.ofView Leftover.view ⟨"age"⟩ true (some .tens)).ReportsStored := by
  obtain ⟨hunique, _⟩ :=
    reported_values (K := UInt64) ⟨⟨"age"⟩, true⟩ (some .tens) Comparator.tens_lawful
  obtain ⟨_, honly, hlingers, _, hcomposite⟩ :=
    reported_values (K := UInt64) ⟨⟨"age"⟩, false⟩ (some .tens) Comparator.tens_lawful
  have hkeys : (1 : UInt64) ≠ 2 := by decide
  have hlisted : some 12 ∈ Leftover.ages.contents.values := by decide +kernel
  refine ⟨Comparator.tens_lawful, hkeys, hunique (Or.inl rfl), fun hall => ?_, hlisted,
    hlingers _ _ hlisted, Leftover.reachable,
    hcomposite Leftover.view ⟨"age"⟩ Leftover.reachable true (some .tens)⟩
  rcases honly 1 2 hkeys hall with hu | hseparates
  · cases hu
  · exact absurd (hseparates 12 17 (by decide)) (by decide)

/-- **An age is reported that no key has.** The least value, the greatest one and the only one listed, by
the index and by a composite over it, is the age of a key that was taken out. -/
theorem Index.leftover_reported :
    (SafeComparator.ensure (some Comparator.tens)).Lawful ∧
      (∃ s, Leftover.ages.contents = .ordered s ∧ s.values = [some 12] ∧
        s.least? = some (some 12) ∧ s.greatest? = some (some 12)) ∧
      (∀ key, Leftover.ages.get key ≠ .indexed (some 12)) ∧ ¬ Leftover.ages.ReportsCurrent ∧
      some 12 ∈ (Composite.ofView Leftover.view ⟨"age"⟩ true (some .tens)).contents.values ∧
      ∀ id i key, Leftover.view.indexAt? id ⟨"age"⟩ = some i → i.get key ≠ .indexed (some 12) := by
  obtain ⟨s, hs, _⟩ := exists_run_ordered (K := UInt64) ⟨⟨"age"⟩, false⟩ (some Comparator.tens)
    (joinAndLeave 1 2 (some 12) (some 17))
  have hs : Leftover.ages.contents = .ordered s := hs
  have hvalues : s.values = [some 12] := by
    have hlisted : Leftover.ages.contents.values = [some 12] := by decide +kernel
    rw [hs] at hlisted
    exact hlisted
  refine ⟨Comparator.tens_lawful, ⟨s, hs, hvalues, ?_, ?_⟩, Leftover.get_ages_ne, ?_, ?_, ?_⟩
  · rw [Sorted.least?, hvalues]
    rfl
  · rw [Sorted.greatest?, hvalues]
    rfl
  · intro hcurrent
    obtain ⟨key, hkey⟩ := hcurrent.scanned s hs (some 12) (by rw [hvalues]; exact List.mem_cons_self)
    exact Leftover.get_ages_ne key hkey
  · decide +kernel
  · intro id i key hi
    obtain ⟨_, rfl⟩ := Leftover.indexAt?_view.mp hi
    exact Leftover.get_ages_ne key

end PartitionedIndex
