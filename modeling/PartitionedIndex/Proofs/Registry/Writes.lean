import PartitionedIndex.Proofs.Index.Insertion
import PartitionedIndex.Proofs.Registry.Ownership

/-! # What a write to a registry does

A registry carries out a write in one index, that of the owner of the key for the extractor, and has
three outcomes (`Registry.Written`). If the index is missing, or refuses the write, then the registry
stays as it was, since an index that refuses a write does (`Index.apply_of_error`). Otherwise the index
is replaced by what the write leaves of it (`Registry.Replaces`), and nothing else changes.
Main statement: `written_or_unchanged`. -/

namespace PartitionedIndex

variable {K E : Type} [Ord K] [Ord E]

namespace Registry

/-- The registry `s` is the registry `r` with an index in the place of the one that a partition has for
an extractor. -/
structure Replaces (r : Registry K E) (id : PartitionId) (x : Extractor) (j : Index K E)
    (s : Registry K E) : Prop where
  owner_eq : s.owner = r.owner
  sampler_eq : s.sampler = r.sampler
  settings_eq : s.settings = r.settings
  contains_eq : ∀ p, s.table.contains p = r.table.contains p
  placed : s.table.index? id x = some j
  elsewhere : ∀ p y, ¬ (p = id ∧ y = x) → s.table.index? p y = r.table.index? p y

theorem replaces_setIndex {r : Registry K E} {id : PartitionId} {x : Extractor} {i : Index K E}
    (hi : r.table.index? id x = some i) (j : Index K E) :
    r.Replaces id x j { r with table := r.table.setIndex id x j } := by
  refine ⟨rfl, rfl, rfl, fun p => r.table.contains_setIndex id p x j, ?_, ?_⟩
  · rw [Table.index?_setIndex, if_pos ⟨rfl, rfl⟩, hi, Option.map_some]
  · intro p y hne
    rw [Table.index?_setIndex, if_neg fun heq => hne ⟨heq.1.symm, heq.2.symm⟩]

theorem index_eq_ok_iff (r : Registry K E) (id : PartitionId) (x : Extractor) (i : Index K E) :
    r.index id x = .ok i ↔ r.table.index? id x = some i := by
  unfold index
  cases hi : r.table.index? id x with
  | none => split <;> simp
  | some found =>
      rw [if_pos (Table.contains_of_index? hi)]
      simp

variable [Std.TransOrd K] [Std.TransOrd E]

/-- What a registry answers to a write in the index of the owner of a key, and what it becomes. -/
inductive Written (r : Registry K E) (key : K) (x : Extractor) (w : Write K E) :
    Except Error Outcome × Registry K E → Prop
  /-- The owner is not registered or has no index for the extractor: nothing changes. -/
  | missing {e : Error} (h : r.index (r.owner key) x = .error e) : Written r key x w (.error e, r)
  /-- The index refuses the write: nothing changes. -/
  | refused {i : Index K E} (hi : r.table.index? (r.owner key) x = some i) {e : Error}
      (h : (i.apply w).1 = .error e) : Written r key x w (.error e, r)
  /-- The index carries out the write: it is replaced, and nothing else changes. -/
  | done {i : Index K E} (hi : r.table.index? (r.owner key) x = some i) {o : Outcome}
      (h : (i.apply w).1 = .ok o) {s : Registry K E}
      (hs : r.Replaces (r.owner key) x (i.apply w).2 s) : Written r key x w (.ok o, s)

/-- Every write is refused or done, and a refused one leaves the registry as it was. -/
theorem written (r : Registry K E) (key : K) (x : Extractor) (w : Write K E) :
    r.Written key x w (r.write key x w) := by
  unfold write withIndex
  cases hindex : r.index (r.owner key) x with
  | error e => exact .missing hindex
  | ok i =>
      have hi := (r.index_eq_ok_iff _ x i).mp hindex
      have hs := replaces_setIndex hi (i.apply w).2
      cases ha : (i.apply w).1 with
      | ok o =>
          have hdone := Written.done hi ha hs
          rw [← ha] at hdone
          exact hdone
      | error e =>
          have hrefused := Written.refused hi ha
          rw [← ha] at hrefused
          simp only [Index.apply_of_error ha, Table.setIndex_self hi]
          exact hrefused

/-- **A write is done or changes nothing.** An insertion into a reachable index, of either kind, is
refused exactly if it breaks uniqueness, and then nothing changes; otherwise it changes the one key
only. An insertion or a removal in a registry changes the one index only, and nothing at all if it ends
in an error. -/
theorem written_or_unchanged [Std.LawfulEqOrd K] [Std.LawfulEqOrd E] :
    (∀ i : Index K E, i.Reachable → ∀ key value,
        i.Settled key value (i.apply (.insert key value)) ∧
        i.Settled key value (i.apply (.update key value))) ∧
      ∀ (r : Registry K E) key x,
        (∀ value, r.Written key x (.insert key value) (r.indexEntry key x value)) ∧
        r.Written key x (.delete key) (r.removeEntry key x) := by
  refine ⟨fun i hi key value => ?_, fun r key x => ?_⟩
  · have hsettled := hi.coherent.settled key value
    exact ⟨hsettled, hsettled⟩
  · exact ⟨fun value => r.written key x _, r.written key x _⟩

/-- Ages by their tens, which no two keys may share. -/
def decades : Index UInt64 Int64 :=
  (Index.ordered ⟨⟨"age"⟩, true⟩ (some .tens)).run [.insert 1 (some 31), .insert 2 (some 45)]

theorem written_or_unchanged_decades :
    decades.Reachable ∧
      decades.Settled 2 (some 38) (.error (.uniqueViolation "age"), decades) ∧
      decades.Settled 1 (some 38) (.ok .done, decades.put 1 (some 38)) := by
  have hreachable : decades.Reachable := (Index.Reachable.ordered _ Comparator.tens_lawful).run _
  have hsettled := written_or_unchanged.1 decades hreachable
  have hspec : decades.spec = ⟨⟨"age"⟩, true⟩ := (Index.run_frame _ _).1
  have hrefused : decades.apply (.insert 2 (some 38)) =
      (.error (.uniqueViolation "age"), decades) := by
    rw [Index.apply_insert, if_pos (by decide +kernel), hspec]
  have hdone : decades.apply (.update 1 (some 38)) = (.ok .done, decades.put 1 (some 38)) :=
    (Index.apply_insert _ _ _).trans (if_neg (by decide +kernel))
  exact ⟨hreachable, hrefused ▸ (hsettled 2 (some 38)).1, hdone ▸ (hsettled 1 (some 38)).2⟩

end Registry

end PartitionedIndex
