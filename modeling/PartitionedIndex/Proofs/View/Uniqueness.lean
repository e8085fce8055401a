import PartitionedIndex.Proofs.Index.Rebuilding
import PartitionedIndex.Proofs.Index.Representation
import PartitionedIndex.Proofs.View.Lookup

/-! # Unique indexes stay unique

The test for a conflict looks at the keys of one class before the key that is given a value leaves the
class it was in. It suffices: whatever is changed, a refused or a repeated value, one just freed, or all
of them by rebuilding, no two keys of a unique index have values that it holds for equal
(`Index.Unshared`). So every set of keys in its contents has one key, and a chain over several such
indexes has one key for each of its members (`Composite.Unshared`). Main statement:
`changes_keep_unique`. -/

namespace PartitionedIndex

namespace Index

variable {K E : Type} [Ord K] [Ord E] [Std.TransOrd K] [Std.TransOrd E]

/-- An empty index of values that must be unique; if it is ordered, its comparator is lawful. -/
inductive EmptyUnique : Index K E → Prop
  | unordered {spec : IndexSpec} (hu : spec.unique = true) : EmptyUnique (Index.unordered spec)
  | ordered {spec : IndexSpec} {c : Option (Comparator E)} (hu : spec.unique = true)
      (hc : (SafeComparator.ensure c).Lawful) : EmptyUnique (Index.ordered spec c)

/-- No two keys share a value: every key set has one key, so there are as many distinct values as keys,
and keys that have values which are held for equal are the same. -/
structure Unshared (i : Index K E) : Prop where
  size_entries : ∀ e ∈ i.contents.entries, e.2.size = 1
  size_get? : ∀ v keys, i.contents.get? v = some keys → keys.size = 1
  size_eq : i.contents.size = i.keyCount
  key_eq : ∀ key other v w, i.get key = .indexed v → i.get other = .indexed w →
    i.contents.Equates v w → key = other

/-! ### Changes keep what an index is for -/

/-- A reachable index of values that must be unique. -/
structure ReachableUnique (i : Index K E) : Prop where
  reachable : i.Reachable
  unique : i.spec.unique = true

theorem EmptyUnique.reachableUnique {i : Index K E} (h : i.EmptyUnique) : i.ReachableUnique := by
  cases h with
  | unordered hu => exact ⟨.unordered _, hu⟩
  | ordered hu hc => exact ⟨.ordered _ hc, hu⟩

namespace ReachableUnique

variable {i : Index K E} (h : i.ReachableUnique)
include h

theorem apply (w : Write K E) : (i.apply w).2.ReachableUnique :=
  ⟨h.reachable.apply w, by rw [(i.apply_frame w).1, h.unique]⟩

theorem change (c : Change K E) : (i.change c).2.ReachableUnique := by
  cases c with
  | write w => exact h.apply w
  | rebuild entries =>
      exact rebuild_induction (fun _ w hj => hj.apply w) i ⟨h.reachable.clear, h.unique⟩ entries

theorem replay (changes : List (Change K E)) :
    (PartitionedIndex.replay Index.change i changes).2.ReachableUnique :=
  replay_induction (fun _ hj c _ => hj.change c) h

variable [Std.LawfulEqOrd K]

/-- An entry has one key, as all its keys have values of its class. -/
theorem size_of_mem {e : Option E × KeySet K} (he : e ∈ i.contents.entries) : e.2.size = 1 := by
  have hcoherent := h.reachable.coherent
  obtain ⟨key, hk, hvalue⟩ := hcoherent.exists_key he
  refine KeySet.size_eq_one hk fun other ho => ?_
  exact hcoherent.exclusive h.unique e.1 other key (hcoherent.hasValue_of_mem he ho) hvalue

/-- A reachable index of values that must be unique has no two keys that share one. -/
theorem unshared [Std.LawfulEqOrd E] : i.Unshared := by
  have hcoherent := h.reachable.coherent
  have := hcoherent.wellFormed.transCmp
  refine ⟨fun e he => h.size_of_mem he, ?_, ?_, ?_⟩
  · intro v keys hkeys
    obtain ⟨w, hw, _⟩ := (hcoherent.wellFormed.get?_eq_some_iff v keys).mp hkeys
    exact h.size_of_mem hw
  · have hones : (i.contents.entries.map fun e => e.2.size) =
        List.replicate i.contents.entries.length 1 :=
      List.map_eq_replicate_iff.mpr fun e he => h.size_of_mem he
    rw [Contents.size_eq_length, ← hcoherent.sum_sizes, hones, List.sum_replicate_nat, Nat.mul_one]
  · intro key other v w hv hw hvw
    have heq : i.contents.order v w = .eq := (i.contents.equates_iff v w).mp hvw
    exact hcoherent.exclusive h.unique w key other ⟨v, hv, heq⟩ ⟨w, hw, Std.ReflCmp.compare_self⟩

end ReachableUnique

end Index

theorem View.length_indexes {K E : Type} [Ord K] [Ord E] (v : View K E) (x : Extractor) :
    (v.indexes x).length = {id | ∃ i, v.indexAt? id x = some i}.ncard := by
  have hasc : Ascending compare id ((v.indexes x).map Prod.fst) :=
    List.pairwise_map.mpr (v.indexes_ascending x)
  have hset : {id | ∃ i, v.indexAt? id x = some i} =
      (((v.indexes x).map Prod.fst).toFinset : Set PartitionId) := by
    ext id
    simp [View.mem_indexes_iff]
  rw [hset, Set.ncard_coe_finset, List.toFinset_card_of_nodup hasc.nodup, List.length_map]

namespace Composite

variable {K E : Type} [Ord K] [Ord E] [Std.TransOrd K] [Std.TransOrd E]

/-- Every member of a chain has one key, so the size of a chain is the number of its members, and it has
no more members than there are partitions in scope with an index. -/
structure Unshared (c : Composite K E) : Prop where
  size_members : ∀ v, ∀ keys ∈ (c.contents.get v).members, keys.size = 1
  size_eq : ∀ v, (c.contents.get v).size = (c.contents.get v).memberCount
  memberCount_le : ∀ v, (c.contents.get v).memberCount ≤
    {id | ∃ i, c.view.indexAt? id c.extractor = some i}.ncard

/-- Chains over indexes whose keys share no value have one key in each member. -/
theorem unshared [Std.LawfulEqOrd K] [Std.LawfulEqOrd E] {c : Composite K E}
    (h : ∀ id i, c.view.indexAt? id c.extractor = some i → i.ReachableUnique) : c.Unshared := by
  have hmembers : ∀ v, (c.contents.get v).members =
      (c.view.indexes c.extractor).filterMap fun p => p.2.contents.get? v := by
    intro v
    rw [MergedContents.get, base_contents]
    exact Merged.get_members_eq_filterMap (fun id i hi => (h id i hi).reachable.coherent) v
  have hsize : ∀ v, ∀ keys ∈ (c.contents.get v).members, keys.size = 1 := by
    intro v keys hkeys
    rw [hmembers] at hkeys
    obtain ⟨⟨id, i⟩, hi, hget⟩ := List.mem_filterMap.mp hkeys
    have hi := (c.view.mem_indexes_iff _ _ _).mp hi
    exact (h id i hi).unshared.size_get? v keys hget
  refine ⟨hsize, fun v => Chain.size_eq_memberCount _ (hsize v), fun v => ?_⟩
  rw [Chain.memberCount, hmembers, ← View.length_indexes]
  exact List.length_filterMap_le _ _

/-- **Changes keep unique indexes unique.** Whatever changes are made to an empty unique index, of either
kind and with any lawful comparator, no two of its keys share a value; and a chain of a composite over such
indexes has one key in each of its members, of which there is at most one for each partition that has an
index. -/
theorem changes_keep_unique [Std.LawfulEqOrd K] [Std.LawfulEqOrd E] :
    (∀ (start : Index K E) (changes : List (Change K E)), start.EmptyUnique →
      (replay Index.change start changes).2.Unshared) ∧
    ∀ (view : View K E) (x : Extractor), (∀ id i, view.indexAt? id x = some i →
        ∃ start changes, start.EmptyUnique ∧ i = (replay Index.change start changes).2) →
      ∀ isOrdered comparator, (ofView view x isOrdered comparator).Unshared := by
  constructor
  · intro start changes hstart
    exact (hstart.reachableUnique.replay changes).unshared
  · intro view x h isOrdered comparator
    refine unshared fun id i hi => ?_
    obtain ⟨start, changes, hstart, rfl⟩ := h id i hi
    exact hstart.reachableUnique.replay changes

end Composite

/-! ### Badges that are handed out once -/

namespace Badges

/-- Badges by number; the index is rebuilt from entries that repeat a key and a badge. -/
def numbered : Index UInt64 Int64 :=
  (replay Index.change (Index.unordered ⟨⟨"badge"⟩, true⟩)
    [.write (.insert 1 (some 30)), .write (.insert 2 (some 30)),
      .rebuild [(1, some 30), (2, some 20), (2, some 30), (3, none)]]).2

/-- Badges by their tens; one is handed on to a key that could not have it before, and then moves within
its class. -/
def byTens : Index UInt64 Int64 :=
  (replay Index.change (Index.ordered ⟨⟨"badge"⟩, true⟩ (some .tens))
    [.write (.insert 4 (some 30)), .write (.insert 5 (some 35)), .write (.delete 4),
      .write (.insert 5 (some 35)), .write (.update 5 (some 31))]).2

def view : View UInt64 Int64 where
  table := ((∅ : Table UInt64 Int64).putIndex ⟨0⟩ ⟨"badge"⟩ numbered).putIndex ⟨1⟩ ⟨"badge"⟩ byTens
  scope := .owned
  owner := .modulo 2
  sampler := .first

theorem exists_changes (id : PartitionId) (i : Index UInt64 Int64)
    (hi : view.indexAt? id ⟨"badge"⟩ = some i) :
    ∃ start changes, start.EmptyUnique ∧ i = (replay Index.change start changes).2 := by
  rcases (View.indexAt?_pair rfl rfl (by decide)).mp hi with ⟨_, rfl⟩ | ⟨_, rfl⟩
  · exact ⟨_, _, .unordered rfl, rfl⟩
  · exact ⟨_, _, .ordered rfl Comparator.tens_lawful, rfl⟩

end Badges

theorem Composite.changes_keep_unique_badges :
    (Index.unordered ⟨⟨"badge"⟩, true⟩ : Index UInt64 Int64).EmptyUnique ∧
      (Index.ordered ⟨⟨"badge"⟩, true⟩ (some .tens) : Index UInt64 Int64).EmptyUnique ∧
      Badges.numbered.Unshared ∧ Badges.byTens.Unshared ∧
      (∀ id i, Badges.view.indexAt? id ⟨"badge"⟩ = some i →
        ∃ start changes, start.EmptyUnique ∧ i = (replay Index.change start changes).2) ∧
      (ofView Badges.view ⟨"badge"⟩ true (some .tens)).Unshared :=
  have hnumbered := Index.EmptyUnique.unordered rfl
  have hbyTens := Index.EmptyUnique.ordered rfl Comparator.tens_lawful
  ⟨hnumbered, hbyTens, changes_keep_unique.1 _ _ hnumbered, changes_keep_unique.1 _ _ hbyTens,
    Badges.exists_changes,
    changes_keep_unique.2 Badges.view ⟨"badge"⟩ Badges.exists_changes true (some .tens)⟩

end PartitionedIndex
