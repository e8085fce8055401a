import Mathlib.Data.List.Nodup
import Mathlib.Data.List.Perm.Subperm
import PartitionedIndex.Chain

/-! # Keys of a chain

A chain has the keys of its members. If no two members share a key, it lists each of its keys once, and
the sum of the sizes of the members is the number of its keys. -/

namespace PartitionedIndex

variable {K : Type} [Ord K] [Std.TransOrd K]

theorem KeySet.isEmpty_eq_false_iff {keys : KeySet K} : keys.isEmpty = false ↔ ∃ key, key ∈ keys := by
  rw [Std.ExtTreeSet.isEmpty_eq_false_iff, Std.ExtTreeSet.eq_empty_iff_forall_not_mem,
    Classical.not_forall]
  exact exists_congr fun key => Classical.not_not

theorem KeySet.nodup_toList (keys : KeySet K) : keys.toList.Nodup := by
  refine Std.ExtTreeSet.distinct_toList.imp ?_
  rintro a b hab rfl
  exact hab Std.ReflCmp.compare_self

theorem KeySet.size_eq_one [Std.LawfulEqOrd K] {keys : KeySet K} {key : K} (hk : key ∈ keys)
    (h : ∀ other, other ∈ keys → other = key) : keys.size = 1 := by
  have hlist : keys.toList.Perm [key] := by
    rw [List.perm_ext_iff_of_nodup keys.nodup_toList (List.nodup_singleton key)]
    intro other
    rw [Std.ExtTreeSet.mem_toList, List.mem_singleton]
    exact ⟨h other, fun heq => heq ▸ hk⟩
  rw [← Std.ExtTreeSet.length_toList, hlist.length_eq, List.length_singleton]

namespace Chain

omit [Std.TransOrd K] in
theorem size_eq_memberCount (c : Chain K) (h : ∀ keys ∈ c.members, keys.size = 1) :
    c.size = c.memberCount := by
  unfold size memberCount
  generalize c.members = members at h
  induction members with
  | nil => rfl
  | cons keys rest ih =>
      obtain ⟨hkeys, hrest⟩ := List.forall_mem_cons.mp h
      rw [List.foldr_cons, hkeys, ih hrest, List.length_cons]
      omega

theorem size_eq_length (c : Chain K) : c.size = c.toList.length := by
  unfold size toList
  induction c.members with
  | nil => rfl
  | cons keys rest ih =>
      rw [List.foldr_cons, ih, List.flatMap_cons, List.length_append, Std.ExtTreeSet.length_toList]

theorem size_of_perm {c a b : Chain K}
    (h : c.members.Perm (a.members ++ b.members)) : c.size = a.size + b.size := by
  rw [size_eq_length, size_eq_length, size_eq_length, ← List.length_append]
  refine List.Perm.length_eq ?_
  unfold toList
  rw [← List.flatMap_append]
  exact h.flatMap_right _

theorem contains_iff (c : Chain K) (key : K) :
    c.contains key = true ↔ ∃ keys ∈ c.members, key ∈ keys := by
  unfold contains
  rw [List.any_eq_true]
  rfl

/-- Of disjoint members exactly one has a key that the chain has. -/
theorem countP_contains (c : Chain K)
    (h : c.members.Pairwise fun s t => ∀ key, key ∈ s → key ∉ t) {key : K}
    (hk : c.contains key = true) : (c.members.countP fun keys => keys.contains key) = 1 := by
  obtain ⟨keys, hmem, hk⟩ := (c.contains_iff key).mp hk
  generalize c.members = members at h hmem
  induction members with
  | nil => cases hmem
  | cons s rest ih =>
      obtain ⟨hs, hrest⟩ := List.pairwise_cons.mp h
      by_cases hin : s.contains key = true
      · have hnone : (rest.countP fun keys => keys.contains key) = 0 :=
          List.countP_eq_zero.mpr fun t ht hkt => hs t ht key hin hkt
        simp [hin, hnone]
      · have hmem : keys ∈ rest := by
          rcases List.mem_cons.mp hmem with rfl | hmem
          · exact absurd hk hin
          · exact hmem
        simp [hin, ih hrest hmem]

variable [Std.LawfulEqOrd K]

theorem mem_toList_iff (c : Chain K) (key : K) :
    key ∈ c.toList ↔ ∃ keys ∈ c.members, key ∈ keys := by
  unfold toList
  rw [List.mem_flatMap]
  exact exists_congr fun keys => and_congr_right fun _ => Std.ExtTreeSet.mem_toList

theorem mem_toKeySet_iff (c : Chain K) (key : K) :
    key ∈ c.toKeySet ↔ ∃ keys ∈ c.members, key ∈ keys := by
  rw [← c.mem_toList_iff]
  classical
  unfold toKeySet KeySet.ofList
  rw [Std.ExtTreeSet.mem_ofList, List.contains_iff_mem]

theorem nodup_toList (c : Chain K)
    (h : c.members.Pairwise fun s t => ∀ key, key ∈ s → key ∉ t) : c.toList.Nodup := by
  unfold toList
  rw [List.nodup_flatMap]
  refine ⟨fun keys _ => keys.nodup_toList, h.imp ?_⟩
  · intro s t hst key hs ht
    exact hst key (Std.ExtTreeSet.mem_toList.mp hs) (Std.ExtTreeSet.mem_toList.mp ht)

theorem size_toKeySet (c : Chain K)
    (h : c.members.Pairwise fun s t => ∀ key, key ∈ s → key ∉ t) : c.toKeySet.size = c.size := by
  rw [c.size_eq_length, ← Std.ExtTreeSet.length_toList]
  apply List.Perm.length_eq
  rw [List.perm_ext_iff_of_nodup (KeySet.nodup_toList _) (c.nodup_toList h)]
  intro key
  rw [Std.ExtTreeSet.mem_toList, mem_toKeySet_iff, mem_toList_iff]

/-- Disjoint members hold exactly the keys of a set if they are the same keys. -/
theorem holdsExactly_iff (c : Chain K)
    (h : c.members.Pairwise fun s t => ∀ key, key ∈ s → key ∉ t) (keys : KeySet K) :
    c.holdsExactly keys = true ↔ ∀ key, key ∈ c.toList ↔ key ∈ keys := by
  unfold holdsExactly
  rw [Bool.and_eq_true, beq_iff_eq, c.size_eq_length, ← Std.ExtTreeSet.length_toList,
    List.all_eq_true]
  constructor
  · rintro ⟨hlength, hall⟩ key
    have hsub : c.toList ⊆ keys.toList := fun k hk => Std.ExtTreeSet.mem_toList.mpr (hall k hk)
    have hsubperm := List.subperm_of_subset (c.nodup_toList h) hsub
    have hperm := hsubperm.perm_of_length_le (Nat.le_of_eq hlength.symm)
    rw [hperm.mem_iff, Std.ExtTreeSet.mem_toList]
  · intro hkeys
    refine ⟨List.Perm.length_eq ?_, fun key hk => (hkeys key).mp hk⟩
    rw [List.perm_ext_iff_of_nodup (c.nodup_toList h) keys.nodup_toList]
    exact fun key => (hkeys key).trans Std.ExtTreeSet.mem_toList.symm

end Chain

end PartitionedIndex
