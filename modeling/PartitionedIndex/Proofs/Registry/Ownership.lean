import Mathlib.Logic.Relation
import PartitionedIndex.Proofs.Registry.Ledger
import PartitionedIndex.Proofs.View.Lookup

/-! # Keys stay with their owners

A registry changes by commands, by indexes that are registered as they are, and by actions on an index
that it knows nothing of (`Registry.Step`). If those indexes have, and those actions give values to,
keys of their partition only, then so does every index after every step (`Step.housed`), whatever was
replaced, removed or refused. Hence no key is in two partitions, and the keys of every composite are
divided among them. Main statement: `keys_stay_with_owner`. -/

namespace PartitionedIndex

variable {K E : Type} [Ord K] [Ord E] [Std.TransOrd K] [Std.TransOrd E]

namespace Index

/-- A partition owns all keys of an index: those that have a value, and those listed under one. -/
structure OwnedBy (owner : Owner K) (id : PartitionId) (i : Index K E) : Prop where
  indexed : ∀ key v, i.get key = .indexed v → owner key = id
  listed : ∀ e ∈ i.contents.entries, ∀ key ∈ e.2, owner key = id

/-- A reachable index of any kind and comparator, with keys that a partition owns. -/
structure Housed (owner : Owner K) (id : PartitionId) (i : Index K E) : Prop where
  reachable : i.Reachable
  owned : ∀ key v, i.get key = .indexed v → owner key = id

variable [Std.LawfulEqOrd K] {owner : Owner K} {id : PartitionId} {i : Index K E}

theorem Housed.ownedBy (h : i.Housed owner id) : i.OwnedBy owner id := by
  refine ⟨h.owned, ?_⟩
  intro e he key hk
  obtain ⟨v, hv, _⟩ := h.reachable.coherent.hasValue_of_mem he hk
  exact h.owned key v hv

omit [Std.LawfulEqOrd K] in
theorem housed_new (spec : IndexSpec) (kind : IndexKind) :
    (Index.new spec kind : Index K E).Housed owner id :=
  ⟨Reachable.new spec kind, fun key v hv => absurd hv (get_ofContents_ne spec _ key v)⟩

theorem Housed.run (h : i.Housed owner id) {writes : List (Write K E)}
    (hw : ∀ w ∈ writes, ∀ key, w.given? = some key → owner key = id) :
    (i.run writes).Housed owner id := by
  refine ⟨h.reachable.run writes, ?_⟩
  intro key v hv
  rcases get_run hv with hv | ⟨w, hmem, hgiven⟩
  · exact h.owned key v hv
  · exact hw w hmem key hgiven

end Index

namespace Registry

/-- Every index of the registry is reachable and has only keys that its partition owns. -/
def Housed (r : Registry K E) : Prop :=
  ∀ id x i, r.table.index? id x = some i → i.Housed r.owner id

/-- What can happen to a registry: a command, the registration of an index, or an action on an index.
The index may be any reachable one and the action may do whatever it likes, also fail, as long as the
keys that get values belong to the partition. -/
inductive Step (r : Registry K E) : Registry K E → Prop
  | command (c : Command K E) : Step r (r.perform c).2
  | register (id : PartitionId) (x : Extractor) {i : Index K E} (hi : i.Housed r.owner id) :
      Step r (r.registerIndex id x i)
  | action {α : Type} (id : PartitionId) (x : Extractor)
      (act : Index K E → Except Error α × Index K E)
      (hact : ∀ i, r.table.index? id x = some i → ∃ writes, (act i).2 = i.run writes ∧
        ∀ w ∈ writes, ∀ key, w.given? = some key → r.owner key = id) :
      Step r (r.withIndex id x act).2

/-! ### What a step does to the indexes -/

omit [Std.TransOrd K] [Std.TransOrd E] in
/-- Work on an index that is not there changes nothing; otherwise it replaces the index. -/
theorem withIndex_cases {α : Type} (r : Registry K E) (id : PartitionId) (x : Extractor)
    (act : Index K E → Except Error α × Index K E) :
    (r.withIndex id x act).2 = r ∨ ∃ i, r.table.index? id x = some i ∧
      (r.withIndex id x act).2 = { r with table := r.table.setIndex id x (act i).2 } := by
  unfold withIndex index
  cases r.table.contains id with
  | false => exact Or.inl rfl
  | true =>
      cases hi : r.table.index? id x with
      | none => exact Or.inl rfl
      | some i => exact Or.inr ⟨i, rfl, rfl⟩

omit [Std.TransOrd K] [Std.TransOrd E] in
theorem owner_withIndex {α : Type} (r : Registry K E) (id : PartitionId) (x : Extractor)
    (act : Index K E → Except Error α × Index K E) : (r.withIndex id x act).2.owner = r.owner := by
  rcases r.withIndex_cases id x act with hsame | ⟨i, _, hset⟩
  · rw [hsame]
  · rw [hset]

theorem index?_perform {r : Registry K E} {c : Command K E} {id : PartitionId} {x : Extractor}
    {j : Index K E} (h : (r.perform c).2.table.index? id x = some j) :
    r.table.index? id x = some j ∨ (∃ spec kind, c = .createIndex id spec kind ∧ j = .new spec kind) ∨
      ∃ i w, r.table.index? id x = some i ∧ j = (i.apply w).2 := by
  have hwrite : ∀ key y w, (r.write key y w).2.table.index? id x = some j →
      r.table.index? id x = some j ∨ ∃ i w, r.table.index? id x = some i ∧ j = (i.apply w).2 := by
    intro key y w hj
    rcases r.withIndex_cases (r.owner key) y fun i => i.apply w with hsame | ⟨i, hi, hset⟩
    · rw [write, hsame] at hj
      exact Or.inl hj
    · rw [write, hset, Table.index?_setIndex] at hj
      split at hj
      next heq =>
        rw [← heq.1, ← heq.2, hi] at hj ⊢
        exact Or.inr ⟨i, w, rfl, (Option.some.inj hj).symm⟩
      next => exact Or.inl hj
  cases c with
  | addPartition p => exact Or.inl ((r.table.index?_addPartition p id x).symm.trans h)
  | removePartition p =>
      have hj := (r.table.index?_removePartition p id x).symm.trans h
      split at hj
      · cases hj
      · exact Or.inl hj
  | createIndex p spec kind =>
      have hj := (r.table.index?_putIndex p id spec.extractor x (.new spec kind)).symm.trans h
      split at hj
      next heq => exact Or.inr (Or.inl ⟨spec, kind, heq.1 ▸ rfl, (Option.some.inj hj).symm⟩)
      next => exact Or.inl hj
  | dropIndex p y =>
      have hj := (r.table.index?_removeIndex p id y x).symm.trans h
      split at hj
      · cases hj
      · exact Or.inl hj
  | indexEntry key y value => exact (hwrite key y _ h).imp_right Or.inr
  | removeEntry key y => exact (hwrite key y _ h).imp_right Or.inr

namespace Housed

variable {r : Registry K E} (h : r.Housed)
include h

/-- A registry stays housed under another table if the indexes of that are old ones or housed
themselves. -/
theorem change {t : Table K E} (ht : ∀ id x i, t.index? id x = some i →
    r.table.index? id x = some i ∨ i.Housed r.owner id) :
    Registry.Housed { r with table := t } := by
  intro id x i hi
  rcases ht id x i hi with hold | hnew
  · exact h id x i hold
  · exact hnew

theorem addPartition (id : PartitionId) : (r.addPartition id).Housed := by
  refine h.change fun p y i hi => Or.inl ?_
  rw [Table.index?_addPartition] at hi
  exact hi

theorem removePartition (id : PartitionId) : (r.removePartition id).2.Housed := by
  refine h.change fun p y i hi => Or.inl ?_
  rw [Table.index?_removePartition] at hi
  split at hi
  · cases hi
  · exact hi

theorem dropIndex (id : PartitionId) (x : Extractor) : (r.dropIndex id x).2.Housed := by
  refine h.change fun p y i hi => Or.inl ?_
  rw [Table.index?_removeIndex] at hi
  split at hi
  · cases hi
  · exact hi

theorem registerIndex {id : PartitionId} (x : Extractor) {i : Index K E}
    (hi : i.Housed r.owner id) : (r.registerIndex id x i).Housed := by
  refine h.change fun p y j hj => ?_
  rw [Table.index?_putIndex] at hj
  split at hj
  next hput =>
    cases hj
    exact Or.inr (hput.1 ▸ hi)
  next => exact Or.inl hj

theorem withIndex {α : Type} (id : PartitionId) (x : Extractor)
    {act : Index K E → Except Error α × Index K E}
    (hact : ∀ i, r.table.index? id x = some i → (act i).2.Housed r.owner id) :
    (r.withIndex id x act).2.Housed := by
  rcases r.withIndex_cases id x act with hsame | ⟨i, hi, hset⟩
  · rw [hsame]
    exact h
  · rw [hset]
    refine h.change fun p y j hj => ?_
    rw [Table.index?_setIndex] at hj
    split at hj
    next heq =>
      rw [← heq.1, ← heq.2, hi] at hj
      cases hj
      exact Or.inr (heq.1 ▸ hact i hi)
    next => exact Or.inl hj

variable [Std.LawfulEqOrd K]

theorem write {key : K} {w : Write K E} (hw : ∀ k, w.given? = some k → k = key) (x : Extractor) :
    (r.write key x w).2.Housed := by
  have hgiven : ∀ u ∈ [w], ∀ k, u.given? = some k → r.owner k = r.owner key := by
    intro u hu k hk
    obtain rfl := List.mem_singleton.mp hu
    rw [hw k hk]
  exact h.withIndex (r.owner key) x fun i hi => (h _ x i hi).run hgiven

theorem perform (c : Command K E) : (r.perform c).2.Housed := by
  cases c with
  | addPartition id => exact h.addPartition id
  | removePartition id => exact h.removePartition id
  | createIndex id spec kind => exact h.registerIndex _ (Index.housed_new spec kind)
  | dropIndex id x => exact h.dropIndex id x
  | indexEntry key x value =>
      exact h.write (w := .insert key value) (fun k hk => (Option.some.inj hk).symm) x
  | removeEntry key x => exact h.write (w := .delete key) (fun k hk => nomatch hk) x

end Housed

theorem Step.owner_eq {r s : Registry K E} (hs : r.Step s) : s.owner = r.owner := by
  cases hs with
  | command c =>
      cases c with
      | indexEntry key x value => exact r.owner_withIndex _ _ _
      | removeEntry key x => exact r.owner_withIndex _ _ _
      | _ => rfl
  | register id x hi => rfl
  | action id x act hact => exact r.owner_withIndex id x act

variable [Std.LawfulEqOrd K]

/-- A step leaves every index with keys of its partition only. -/
theorem Step.housed {r s : Registry K E} (hs : r.Step s) (h : r.Housed) : s.Housed := by
  cases hs with
  | command c => exact h.perform c
  | register id x hi => exact h.registerIndex x hi
  | action id x act hact =>
      refine h.withIndex id x fun i hi => ?_
      obtain ⟨writes, hrun, hw⟩ := hact i hi
      rw [hrun]
      exact (h id x i hi).run hw

theorem housed_of_steps {r s : Registry K E} (hs : Relation.ReflTransGen Step r s) (h : r.Housed) :
    s.owner = r.owner ∧ s.Housed := by
  induction hs with
  | refl => exact ⟨rfl, h⟩
  | tail _ hstep ih => exact ⟨hstep.owner_eq.trans ih.1, hstep.housed ih.2⟩

/-- **Keys stay with their owners.** However keys are divided, after any steps of an empty registry a
partition has only keys that it owns, both in the lookups and in the contents of its indexes; and the
keys of a composite over any scope, of any kind, are divided among the partitions. -/
theorem keys_stay_with_owner [Std.LawfulEqOrd E] (owner : Owner K) (sampler : Sampler)
    (settings : Settings) (r : Registry K E)
    (hr : Relation.ReflTransGen Step { owner, sampler, settings } r) :
    (∀ id x i, r.table.index? id x = some i → i.OwnedBy owner id) ∧
      ∀ scope x isOrdered comparator,
        (Composite.ofView (r.view scope) x isOrdered comparator).Partitioned := by
  have hempty : Housed ({ owner, sampler, settings } : Registry K E) := by
    intro id x i hi
    have hnone : (∅ : Table K E).index? id x = none := Table.index?_empty id x
    cases hnone.symm.trans hi
  obtain ⟨rfl, hhoused⟩ := housed_of_steps hr hempty
  refine ⟨fun id x i hi => (hhoused id x i hi).ownedBy, ?_⟩
  intro scope x isOrdered comparator
  have hin : ∀ id i, (r.view scope).indexAt? id x = some i → i.Housed r.owner id :=
    fun id i hi => hhoused id x i (((r.view scope).indexAt?_eq_some_iff id x i).mp hi).2
  refine Composite.partitioned ?_ ?_
  · exact fun id i hi => (hin id i hi).reachable.coherent
  · exact fun id i key v hi hv => (hin id i hi).owned key v hv

end Registry

/-! ### Ages in a registry -/

namespace Mixed

/-- An action that indexes an odd key, takes another out, and then fails. -/
def failing (i : Index UInt64 Int64) : Except Error Unit × Index UInt64 Int64 :=
  (.error (.uniqueViolation "age"), i.run [.insert 5 (some 19), .delete 1])

/-- The ages of odd keys were made elsewhere and are changed by an action that fails; those of even
keys are lost with their partition and begun anew. -/
def registry : Registry UInt64 Int64 :=
  let r : Registry UInt64 Int64 := { owner := .modulo 2, sampler := .first }
  let r := r.registerIndex ⟨1⟩ ⟨"age"⟩ odds
  let r := (r.withIndex ⟨1⟩ ⟨"age"⟩ failing).2
  let r := (r.perform (.createIndex ⟨0⟩ ⟨⟨"age"⟩, true⟩ .unordered)).2
  let r := (r.perform (.indexEntry 2 ⟨"age"⟩ (some 19))).2
  let r := (r.perform (.removePartition ⟨0⟩)).2
  let r := (r.perform (.createIndex ⟨0⟩ ⟨⟨"age"⟩, false⟩ .unordered)).2
  (r.perform (.indexEntry 4 ⟨"age"⟩ none)).2

theorem housed_odds : odds.Housed (.modulo 2) ⟨1⟩ :=
  have hin := indexAt?_view.mpr (Or.inr ⟨rfl, rfl⟩)
  ⟨reachable ⟨1⟩ odds hin, fun key v => routed ⟨1⟩ odds key v hin⟩

theorem steps_registry :
    Relation.ReflTransGen Registry.Step { owner := .modulo 2, sampler := .first } registry := by
  have hregister := Registry.Step.register (r := { owner := .modulo 2, sampler := .first }) ⟨1⟩
    ⟨"age"⟩ housed_odds
  have haction := Registry.Step.action ⟨1⟩ ⟨"age"⟩ failing
    (r := Registry.registerIndex { owner := .modulo 2, sampler := .first } ⟨1⟩ ⟨"age"⟩ odds) (by
      refine fun i _ => ⟨_, rfl, ?_⟩
      intro w hw key hk
      rcases List.mem_pair.mp hw with rfl | rfl <;> cases hk
      rfl)
  exact .tail (.tail (.tail (.tail (.tail (.tail (.single hregister) haction) (.command _))
    (.command _)) (.command _)) (.command _)) (.command _)

end Mixed

theorem Registry.keys_stay_with_owner_mixed :
    Relation.ReflTransGen Step { owner := .modulo 2, sampler := .first } Mixed.registry ∧
      (∀ id x i, Mixed.registry.table.index? id x = some i → i.OwnedBy (.modulo 2) id) ∧
      ∀ scope x isOrdered comparator,
        (Composite.ofView (Mixed.registry.view scope) x isOrdered comparator).Partitioned :=
  ⟨Mixed.steps_registry,
    keys_stay_with_owner (.modulo 2) .first {} Mixed.registry Mixed.steps_registry⟩

end PartitionedIndex
