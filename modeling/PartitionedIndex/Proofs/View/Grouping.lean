import Mathlib.Algebra.Order.Ring.Nat
import PartitionedIndex.Proofs.Comparator.Named
import PartitionedIndex.Proofs.View.RangeResult

/-! # Merging neither loses, repeats nor reorders

What merging makes of entries in any order: one entry for each class of their values, found by the
values of the class (`Groups`). Each step of the loop that joins neighbours puts the key set it is
given behind those that it has, whatever the comparator says; so the chains hold the key sets that
were given, each as often as it was. Main statement: `merge_groups`. -/

namespace PartitionedIndex

variable {K E : Type} [Ord K]

namespace Gathered

variable {order : Option E → Option E → Ordering} {entries : List (Option E × KeySet K)}
variable {g : List (Option E × Chain K)}

theorem forall_iff (h : Gathered order entries g) {P : Option E → Prop}
    (hP : ∀ v w, order v w = .eq → P v → P w) :
    (∀ v ∈ g.map Prod.fst, P v) ↔ ∀ p ∈ entries, P p.1 := by
  constructor
  · intro hall p hp
    obtain ⟨e, he, heq⟩ := h.covers p hp
    exact hP e.1 p.1 heq (hall e.1 (List.mem_map_of_mem he))
  · intro hall v hv
    obtain ⟨e, he, rfl⟩ := List.mem_map.mp hv
    obtain ⟨p, hp, hpe⟩ := h.exists_given he
    exact hpe ▸ hall p hp

/-- A merged result has exactly one entry of the class of an entry given. -/
theorem existsUnique [Std.TransCmp order] (h : Gathered order entries g) {p : Option E × KeySet K}
    (hp : p ∈ entries) : ∃! e, e ∈ g ∧ order e.1 p.1 = .eq := by
  obtain ⟨e, he, hep⟩ := h.covers p hp
  refine ⟨e, ⟨he, hep⟩, ?_⟩
  rintro d ⟨hd, hdp⟩
  exact h.ascending.eq_of_mem hd he (Std.TransCmp.eq_trans hdp (Std.OrientedCmp.eq_symm hep))

end Gathered

namespace RangeResult

/-! ### The key sets gathered -/

section members

variable (order : Option E → Option E → Ordering)

theorem flatMap_members_join (gathered : Array (Option E × Chain K)) (entry : Option E × KeySet K) :
    ((join order gathered entry).toList.flatMap fun e => e.2.members) =
      (gathered.toList.flatMap fun e => e.2.members) ++ [entry.2] := by
  by_cases hempty : gathered = #[]
  · rw [hempty]
    rfl
  obtain ⟨front, ⟨last, chain⟩, rfl⟩ := Array.exists_push_of_ne_empty hempty
  rw [join_push]
  split
  · simp
  · simp

/-- All chains together have the key sets that were given, in their order. -/
theorem flatMap_members_gather (entries : List (Option E × KeySet K)) :
    ((gather order entries).toList.flatMap fun e => e.2.members) = entries.map Prod.snd := by
  induction entries using List.reverseRecOn with
  | nil => rfl
  | append_singleton given entry ih =>
      rw [gather_concat, flatMap_members_join, ih, List.map_append, List.map_singleton]

end members

/-! ### The result -/

variable [Ord E]

/-- The result `r` groups the entries by the classes of their values under `c`. Its values ascend,
every class given has one entry, with the first value and the key sets of the class in the order in
which they were given, and so all key sets are there as often as they were given. The values of the
class find that entry, and the ends of the list are the least and the greatest value. -/
structure Groups (c : SafeComparator E) (entries : List (Option E × KeySet K))
    (r : RangeResult K E) : Prop where
  ascending : r.values.Pairwise fun v w => c.order v w = .lt
  one_each : ∀ p ∈ entries, ∃! e, e ∈ r.entries.toList ∧ c.order e.1 p.1 = .eq
  first : ∀ e ∈ r.entries.toList, (classOf c.order e.1 entries).head?.map Prod.fst = some e.1
  members : ∀ e ∈ r.entries.toList, e.2.members = (classOf c.order e.1 entries).map Prod.snd
  members_perm : (r.entries.toList.flatMap fun e => e.2.members).Perm (entries.map Prod.snd)
  sum_memberCount : (r.entries.toList.map fun e => e.2.memberCount).sum = entries.length
  get?_of_given : ∀ v, (∃ p ∈ entries, c.order p.1 v = .eq) →
    r.get? v = some ⟨(classOf c.order v entries).map Prod.snd⟩
  get?_of_missing : ∀ v, (¬ ∃ p ∈ entries, c.order p.1 v = .eq) → r.get? v = none
  contains_iff : ∀ v, r.contains v = true ↔ ∃ p ∈ entries, c.order p.1 v = .eq
  first?_eq : r.first? = r.entries.toList.head?.map Prod.fst
  first?_least : ∀ v, r.first? = some v ↔ v ∈ r.values ∧ ∀ p ∈ entries, (c.order v p.1).isLE
  last?_eq : r.last? = r.entries.toList.getLast?.map Prod.fst
  last?_greatest : ∀ v, r.last? = some v ↔ v ∈ r.values ∧ ∀ p ∈ entries, (c.order p.1 v).isLE

theorem members_merge_perm (c : SafeComparator E) (entries : List (Option E × KeySet K)) :
    ((merge c entries).entries.toList.flatMap fun e => e.2.members).Perm (entries.map Prod.snd) := by
  rw [merge, flatMap_members_gather]
  exact (List.mergeSort_perm entries _).map Prod.snd

section lookup

variable {r : RangeResult K E} [Std.TransCmp r.comparator.order]
variable {entries : List (Option E × KeySet K)} {v : Option E}

theorem get?_of_given (h : Gathered r.comparator.order entries r.entries.toList)
    (hv : ∃ p ∈ entries, r.comparator.order p.1 v = .eq) :
    r.get? v = some ⟨(classOf r.comparator.order v entries).map Prod.snd⟩ := by
  obtain ⟨e, he, hev⟩ := (h.exists_iff v).mpr hv
  refine (get?_eq_some_iff h.ascending v _).mpr ⟨e, he, hev, ?_⟩
  rw [← classOf_congr hev, ← h.members e he]

theorem get?_of_missing (h : Gathered r.comparator.order entries r.entries.toList)
    (hv : ¬ ∃ p ∈ entries, r.comparator.order p.1 v = .eq) : r.get? v = none := by
  rw [Option.eq_none_iff_forall_ne_some]
  intro chain hchain
  obtain ⟨e, he, hev, _⟩ := (get?_eq_some_iff h.ascending v chain).mp hchain
  exact hv ((h.exists_iff v).mp ⟨e, he, hev⟩)

end lookup

/-- **Merging groups by class.** -/
theorem merge_groups {c : SafeComparator E} (hc : c.Lawful) (entries : List (Option E × KeySet K)) :
    Groups c entries (merge c entries) := by
  have := hc.transCmp
  have : Std.TransCmp (merge c entries).comparator.order := hc.transCmp
  have hall := merge_gathered c entries
  have hperm := members_merge_perm c entries
  have hvalues : Ascending c.order id (merge c entries).values :=
    List.pairwise_map.mpr hall.ascending
  refine ⟨hvalues, fun p hp => hall.existsUnique hp, hall.first, hall.members, hperm, ?_,
    fun v hv => get?_of_given hall hv, fun v hv => get?_of_missing hall hv, ?_, List.head?_map, ?_,
    List.getLast?_map, ?_⟩
  · have hlength := hperm.length_eq
    rw [List.length_flatMap, List.length_map] at hlength
    exact hlength
  · intro v
    exact (contains_iff hall.ascending v).trans (hall.exists_iff v)
  · intro v
    refine (hvalues.head?_eq_some_iff v).trans (and_congr_right fun _ => ?_)
    refine hall.forall_iff fun w u hwu hle => ?_
    rw [id_eq, id_eq, ← Std.TransCmp.congr_right hwu]
    exact hle
  · intro v
    refine (hvalues.getLast?_eq_some_iff v).trans (and_congr_right fun _ => ?_)
    refine hall.forall_iff fun w u hwu hle => ?_
    rw [id_eq, id_eq, ← Std.TransCmp.congr_left hwu]
    exact hle

/-- The values go by their tens: seventeen comes to twelve, which was given before it. -/
theorem merge_groups_tens :
    (SafeComparator.ensure (some Comparator.tens)).Lawful ∧
      Groups (SafeComparator.ensure (some Comparator.tens))
        [(some 25, KeySet.ofList [(2 : UInt64)]), (some 12, KeySet.ofList [1]),
          (none, KeySet.ofList [3]), (some 17, KeySet.ofList [4]), (some 25, KeySet.ofList [5])]
        (merge (SafeComparator.ensure (some Comparator.tens))
          [(some 25, KeySet.ofList [2]), (some 12, KeySet.ofList [1]),
            (none, KeySet.ofList [3]), (some 17, KeySet.ofList [4]), (some 25, KeySet.ofList [5])]) :=
  ⟨Comparator.tens_lawful, merge_groups Comparator.tens_lawful _⟩

end RangeResult

end PartitionedIndex
