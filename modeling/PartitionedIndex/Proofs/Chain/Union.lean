import PartitionedIndex.Proofs.Chain

/-! # Chains as unions

A chain is made of key sets and of other chains by any mixture of the operations (`Chain.Build`), and
may be put behind itself. Its members are the sets that went into it, in their order, and its keys are
the union of them. Its size is the sum of their sizes, so it counts a key once for each member that has
it: it is the number of keys exactly if the members are disjoint, and then a comparison by size and by
inclusion one way decides whether the chain has the keys of a set. Main statement: `build_unites`. -/

namespace PartitionedIndex.Chain

variable {K : Type} [Ord K]

/-! ### Putting chains together -/

theorem append_assoc (a b c : Chain K) : a ++ b ++ c = a ++ (b ++ c) :=
  congrArg mk (List.append_assoc a.members b.members c.members)

theorem empty_append (c : Chain K) : ∅ ++ c = c := rfl

theorem append_empty (c : Chain K) : c ++ ∅ = c :=
  congrArg mk (List.append_nil c.members)

/-- How a chain is made of key sets. -/
inductive Build (K : Type) [Ord K] where
  | empty
  | list (sets : List (KeySet K))
  | single (set : KeySet K)
  | pair (first second : KeySet K)
  | push (b : Build K) (set : KeySet K)
  | append (b d : Build K)

namespace Build

/-- The chain that a build makes. -/
def chain : Build K → Chain K
  | empty => .empty
  | list sets => ⟨sets⟩
  | single set => .single set
  | pair first second => .pair first second
  | push b set => b.chain.push set
  | append b d => b.chain ++ d.chain

/-- The sets that a build puts into its chain, from the first to the last. -/
def sets : Build K → List (KeySet K)
  | empty => []
  | list sets => sets
  | single set => [set]
  | pair first second => [first, second]
  | push b set => b.sets ++ [set]
  | append b d => b.sets ++ d.sets

/-- However a chain is made, its members are the sets put into it; it is never deeper than one
level. -/
theorem members_chain (b : Build K) : b.chain.members = b.sets := by
  induction b with
  | empty => rfl
  | list sets => rfl
  | single set => rfl
  | pair first second => rfl
  | push b set ih => rw [chain, members_push, ih, sets]
  | append b d ihb ihd => rw [chain, members_append, ihb, ihd, sets]

end Build

/-! ### Size and disjointness -/

theorem isEmpty_iff (c : Chain K) : c.isEmpty = true ↔ c.size = 0 := by
  unfold isEmpty size
  induction c.members with
  | nil => exact iff_of_true rfl rfl
  | cons set rest ih =>
      rw [List.all_cons, Bool.and_eq_true, ih, List.foldr_cons,
        Std.ExtTreeSet.isEmpty_eq_size_beq_zero, beq_iff_eq]
      omega

variable [Std.TransOrd K]

/-- No two members of a chain share a key. -/
def Disjoint (c : Chain K) : Prop :=
  c.members.Pairwise fun s t => ∀ key, key ∈ s → key ∉ t

theorem disjoint_of_perm {c d : Chain K} (h : c.members.Perm d.members) (hc : c.Disjoint) :
    d.Disjoint := by
  refine hc.perm h ?_
  intro s t hst key ht hs
  exact hst key hs ht

variable [Std.LawfulEqOrd K]

/-- The keys of the union are among those listed, each of them once. -/
theorem subperm_toList (c : Chain K) : c.toKeySet.toList.Subperm c.toList := by
  refine List.subperm_of_subset (KeySet.nodup_toList _) fun key hk => ?_
  rw [c.mem_toList_iff, ← c.mem_toKeySet_iff]
  exact Std.ExtTreeSet.mem_toList.mp hk

theorem size_toKeySet_le (c : Chain K) : c.toKeySet.size ≤ c.size := by
  rw [c.size_eq_length, ← Std.ExtTreeSet.length_toList]
  exact c.subperm_toList.length_le

/-- **The size of a chain is the number of its keys exactly if its members are disjoint.** -/
theorem size_eq_iff (c : Chain K) : c.size = c.toKeySet.size ↔ c.Disjoint := by
  constructor
  · intro hsize
    rw [c.size_eq_length, ← Std.ExtTreeSet.length_toList] at hsize
    have hperm := c.subperm_toList.perm_of_length_le (Nat.le_of_eq hsize)
    have hnodup : c.toList.Nodup := hperm.nodup_iff.mp (KeySet.nodup_toList _)
    refine (List.nodup_flatMap.mp hnodup).2.imp ?_
    intro s t hst key hs ht
    exact hst (Std.ExtTreeSet.mem_toList.mpr hs) (Std.ExtTreeSet.mem_toList.mpr ht)
  · exact fun h => (c.size_toKeySet h).symm

theorem holdsExactly_iff_toKeySet_eq {c : Chain K} (h : c.Disjoint) (keys : KeySet K) :
    c.holdsExactly keys = true ↔ c.toKeySet = keys := by
  rw [c.holdsExactly_iff h, Std.ExtTreeSet.ext_mem_iff]
  refine forall_congr' fun key => ?_
  rw [c.mem_toKeySet_iff, c.mem_toList_iff]

theorem toKeySet_of_perm {c d : Chain K} (h : c.members.Perm d.members) :
    c.toKeySet = d.toKeySet := by
  apply Std.ExtTreeSet.ext_mem
  intro key
  simp only [mem_toKeySet_iff, h.mem_iff]

/-! ### What a chain is -/

/-- The chain has the given sets as its members, and is the union of them. -/
structure Unites (c : Chain K) (sets : List (KeySet K)) : Prop where
  members_eq : c.members = sets
  toList_eq : c.toList = sets.flatMap fun set => set.toList
  contains_iff_mem : ∀ key, c.contains key = true ↔ key ∈ c.toKeySet
  mem_iff : ∀ key, key ∈ c.toKeySet ↔ ∃ set ∈ sets, key ∈ set
  isEmpty_iff : c.isEmpty = true ↔ c.size = 0
  size_le : c.toKeySet.size ≤ c.size
  size_eq_iff : c.size = c.toKeySet.size ↔ c.Disjoint
  holdsExactly_iff : c.Disjoint → ∀ keys, c.holdsExactly keys = true ↔ c.toKeySet = keys
  reordered : ∀ d : Chain K, d.members.Perm c.members →
    d.toKeySet = c.toKeySet ∧ (d.Disjoint ↔ c.Disjoint)
  resplit : c.Disjoint → ∀ d : Chain K, d.Disjoint → d.toKeySet = c.toKeySet →
    ∀ keys, d.holdsExactly keys = c.holdsExactly keys

theorem unites_members (c : Chain K) : c.Unites c.members := by
  refine ⟨rfl, rfl, ?_, c.mem_toKeySet_iff, c.isEmpty_iff, c.size_toKeySet_le, c.size_eq_iff, ?_, ?_, ?_⟩
  · intro key
    rw [c.contains_iff, c.mem_toKeySet_iff]
  · exact fun h keys => holdsExactly_iff_toKeySet_eq h keys
  · intro d hperm
    exact ⟨toKeySet_of_perm hperm, disjoint_of_perm hperm, disjoint_of_perm hperm.symm⟩
  · intro hc d hd heq keys
    rw [Bool.eq_iff_iff, holdsExactly_iff_toKeySet_eq hd, holdsExactly_iff_toKeySet_eq hc, heq]

/-- **A chain is the union of the sets it is made of.** However it is made, its members are these sets in
their order; putting chains together is associative, with the empty chain as unit, and adding a set is
putting the chain of the set behind. -/
theorem build_unites :
    (∀ b : Build K, b.chain.Unites b.sets) ∧
      (∀ a b c : Chain K, a ++ b ++ c = a ++ (b ++ c)) ∧
      (∀ c : Chain K, ∅ ++ c = c ∧ c ++ ∅ = c) ∧
      ∀ (c : Chain K) (set : KeySet K), c.push set = c ++ single set := by
  refine ⟨?_, append_assoc, fun c => ⟨c.empty_append, c.append_empty⟩, push_eq_append⟩
  intro b
  rw [← b.members_chain]
  exact b.chain.unites_members

/-! ### A chain put behind itself -/

namespace Twice

/-- Two sets without a common key, and an empty one. -/
def once : Build UInt64 := .push (.pair (.ofList [1, 2]) (.ofList [3])) ∅

/-- Two sets without a common key and an empty one, and the same three again. -/
def build : Build UInt64 := .append once once

end Twice

/-- With its copy behind it, a chain of disjoint sets has the same keys and twice the size. -/
theorem build_unites_twice :
    Twice.once.chain.Unites Twice.once.sets ∧ Twice.once.chain.Disjoint ∧
      Twice.once.chain.holdsExactly (.ofList [3, 2, 1]) = true ∧
      Twice.build.chain.Unites Twice.build.sets ∧ ¬ Twice.build.chain.Disjoint ∧
      Twice.build.chain.size = 6 ∧ Twice.build.chain.toKeySet = .ofList [3, 2, 1] := by
  have honce := build_unites.1 Twice.once
  have htwice := build_unites.1 Twice.build
  have hdisjoint : Twice.once.chain.Disjoint := honce.size_eq_iff.mp (by decide)
  have hkeys : Twice.once.chain.toKeySet = .ofList [3, 2, 1] := by decide
  refine ⟨honce, hdisjoint, (honce.holdsExactly_iff hdisjoint _).mpr hkeys, htwice, ?_, by decide,
    by decide⟩
  exact fun h => absurd (htwice.size_eq_iff.mpr h) (by decide)

end PartitionedIndex.Chain
