import PartitionedIndex.Proofs.Registry.Refinement
import PartitionedIndex.Proofs.View.Lookup
import PartitionedIndex.Proofs.View.OrderedMerged

/-! # A composite reads the ledger

After any run of commands a composite over any scope, ordered or not, says what the sheets in scope
say (`Composite.Reads`): a lookup asks the sheet of the owner, the chain of a value has the keys that
have it, each once, and the values listed are those that keys have. Main statement: `replay_refines`. -/

namespace PartitionedIndex

variable {K E : Type} [Ord K] [Ord E] [Std.TransOrd K] [Std.TransOrd E]

/-- A composite says which value each key has, and nothing else. -/
structure Composite.Reads (c : Composite K E) (value? : K → Option (Option E)) : Prop where
  get_eq : ∀ key, c.get key = .ofOption (value? key)
  keys_iff : ∀ v key, key ∈ (c.contents.get v).toKeySet ↔ value? key = some v
  keys_nodup : ∀ v, (c.contents.get v).toList.Nodup
  keys_size : ∀ v, (c.contents.get v).size = (c.contents.get v).toKeySet.size
  contains_iff : ∀ v, c.contents.contains v = true ↔ ∃ key, value? key = some v
  isEmpty_iff : c.contents.isEmpty = true ↔ ∀ key, value? key = none
  containsKeys_iff : ∀ keys, c.contents.containsKeys keys = true ↔
    (∃ v, (∃ key, value? key = some v) ∧ ∀ key, key ∈ keys ↔ value? key = some v)
  values_iff : ∀ v, v ∈ c.contents.values ↔ ∃ key, value? key = some v
  values_nodup : c.contents.values.Nodup
  size_eq : c.contents.size = c.contents.values.length

namespace Composite

variable (view : View K E) (x : Extractor) (isOrdered : Bool)

omit [Std.TransOrd K] in
theorem nodup_values_natural : (ofView view x isOrdered none).contents.values.Nodup := by
  cases isOrdered with
  | false => exact KeySet.nodup_toList (Merged.values ⟨view, x⟩)
  | true =>
      have := (SafeComparator.lawful_natural (E := E)).transCmp
      exact (OrderedValues.ofSet_ascending (c := .natural) (Merged.values ⟨view, x⟩)).nodup

omit [Std.TransOrd K] in
theorem mem_values_natural_iff [Std.LawfulEqOrd E] (v : Option E) :
    v ∈ (ofView view x isOrdered none).contents.values ↔
      v ∈ (Merged.values ⟨view, x⟩).toList := by
  cases isOrdered with
  | false => exact Iff.rfl
  | true =>
      have := (SafeComparator.lawful_natural (E := E)).transCmp
      refine ⟨OrderedValues.mem_of_mem_ofSet _, fun hv => ?_⟩
      obtain ⟨w, hw, heq⟩ := OrderedValues.exists_mem_ofSet (c := .natural) _ hv
      rw [SafeComparator.order_natural] at heq
      rw [← Std.LawfulEqOrd.eq_of_compare heq]
      exact hw

end Composite

namespace Registry.Sound

variable {r : Registry K E} (h : r.Sound)
include h

theorem uniform (scope : Scope) (x : Extractor) : (r.view scope).Uniform x compare where
  transCmp := inferInstanceAs (Std.TransOrd (Option E))
  coherent id i hi := (h id x i (((r.view scope).indexAt?_eq_some_iff id x i).mp hi).2).coherent
  order_eq id i hi := (h id x i (((r.view scope).indexAt?_eq_some_iff id x i).mp hi).2).order_eq

theorem routed (scope : Scope) (x : Extractor) : (r.view scope).Routed x :=
  fun id i key v hi hv => (h id x i (((r.view scope).indexAt?_eq_some_iff id x i).mp hi).2).owned key v hv

omit [Std.TransOrd E] h in
theorem value?_ledger (r : Registry K E) (scope : Scope) (x : Extractor) (key : K) :
    r.ledger.value? r.owner scope x key =
      ((r.view scope).indexAt? (r.owner key) x).bind fun i => i.forward[key]? := by
  have hcovers : r.ledger.covers scope (r.owner key) = (r.view scope).covers (r.owner key) := by
    cases scope <;> rfl
  have htable : (r.view scope).table.index? (r.owner key) x = r.table.index? (r.owner key) x := rfl
  have hsheet : r.ledger.sheet? (r.owner key) x =
      (r.table.index? (r.owner key) x).map Index.sheet := rfl
  rw [Ledger.value?, View.indexAt?, hcovers, htable, hsheet]
  cases (r.view scope).covers (r.owner key) with
  | false => rfl
  | true => cases r.table.index? (r.owner key) x <;> rfl

omit [Std.TransOrd E] h in
theorem get_eq (r : Registry K E) (scope : Scope) (x : Extractor) (isOrdered : Bool)
    (c : Option (Comparator E)) (key : K) :
    (Composite.ofView (r.view scope) x isOrdered c).get key =
      .ofOption (r.ledger.value? r.owner scope x key) := by
  rw [value?_ledger]
  cases hi : (r.view scope).indexAt? (r.owner key) x with
  | none => exact Composite.get_of_none hi
  | some i => exact Composite.get_of_some hi

theorem value?_eq_some_iff (scope : Scope) (x : Extractor) (key : K) (v : Option E) :
    r.ledger.value? r.owner scope x key = some v ↔
      ∃ id i, (r.view scope).indexAt? id x = some i ∧ i.get key = .indexed v := by
  rw [value?_ledger, Option.bind_eq_some_iff]
  constructor
  · rintro ⟨i, hi, hv⟩
    exact ⟨r.owner key, i, hi, (i.get_eq_indexed_iff key v).mpr hv⟩
  · rintro ⟨id, i, hi, hv⟩
    obtain rfl := h.routed scope x id i key v hi hv
    exact ⟨i, hi, (i.get_eq_indexed_iff key v).mp hv⟩

variable [Std.LawfulEqOrd E]

theorem exists_pooled_iff (scope : Scope) (x : Extractor) (v : Option E) :
    (∃ e ∈ Merged.pooled ⟨r.view scope, x⟩, e.1 = v) ↔
      ∃ key, r.ledger.value? r.owner scope x key = some v := by
  have hclass : (∃ e ∈ Merged.pooled ⟨r.view scope, x⟩, e.1 = v) ↔
      ∃ e ∈ Merged.pooled ⟨r.view scope, x⟩, compare e.1 v = .eq :=
    exists_congr fun e => and_congr_right fun _ => Std.LawfulEqOrd.compare_eq_iff_eq.symm
  rw [hclass, Merged.exists_pooled_iff (h.uniform scope x)]
  constructor
  · rintro ⟨id, i, hi, key, w, hw, heq⟩
    refine ⟨key, (h.value?_eq_some_iff scope x key v).mpr ⟨id, i, hi, ?_⟩⟩
    rw [← Std.LawfulEqOrd.eq_of_compare heq]
    exact hw
  · rintro ⟨key, hv⟩
    obtain ⟨id, i, hi, hw⟩ := (h.value?_eq_some_iff scope x key v).mp hv
    exact ⟨id, i, hi, key, v, hw, Std.ReflCmp.compare_self⟩

variable [Std.LawfulEqOrd K]

/-- A chain has the keys that have the value on the sheets in scope. -/
theorem mem_get_iff (scope : Scope) (x : Extractor) (v : Option E) (key : K) :
    key ∈ (Merged.get ⟨r.view scope, x⟩ v).toList ↔
      r.ledger.value? r.owner scope x key = some v := by
  rw [Chain.mem_toList_iff, Merged.exists_member_iff (h.uniform scope x), h.value?_eq_some_iff]
  refine exists_congr fun id => exists_congr fun i => and_congr_right fun _ => ?_
  constructor
  · rintro ⟨w, hw, heq⟩
    rw [← Std.LawfulEqOrd.eq_of_compare heq]
    exact hw
  · exact fun hv => ⟨v, hv, Std.ReflCmp.compare_self⟩

/-- A composite in natural order says what the sheets in scope say. -/
theorem reads (scope : Scope) (x : Extractor) (isOrdered : Bool) :
    (Composite.ofView (r.view scope) x isOrdered none).Reads
      (r.ledger.value? r.owner scope x) := by
  have hbase : (Composite.ofView (r.view scope) x isOrdered none).contents.base =
      ⟨r.view scope, x⟩ := Composite.base_contents _
  have hu : View.Uniform (Merged.view ⟨r.view scope, x⟩) (Merged.extractor ⟨r.view scope, x⟩)
    compare := h.uniform scope x
  have hdisjoint := Merged.get_disjoint hu.coherent (h.routed scope x).disjoint
  have hvalues : ∀ v, v ∈ (Merged.values ⟨r.view scope, x⟩).toList ↔
      ∃ key, r.ledger.value? r.owner scope x key = some v :=
    fun v => (Merged.mem_values_iff _ v).trans (h.exists_pooled_iff scope x v)
  refine ⟨get_eq r scope x isOrdered none, ?_, ?_, ?_, ?_, ?_, ?_, ?_,
    Composite.nodup_values_natural _ x isOrdered, MergedContents.size_eq_length _⟩
  · intro v key
    rw [MergedContents.get, hbase, Chain.mem_toKeySet_iff, ← Chain.mem_toList_iff]
    exact h.mem_get_iff scope x v key
  · intro v
    rw [MergedContents.get, hbase]
    exact Chain.nodup_toList _ (hdisjoint v)
  · intro v
    rw [MergedContents.get, hbase]
    exact (Chain.size_toKeySet _ (hdisjoint v)).symm
  · intro v
    rw [MergedContents.contains, hbase, Merged.contains_iff hu, ← hvalues, Merged.mem_values_iff]
    exact exists_congr fun e => and_congr_right fun _ => Std.LawfulEqOrd.compare_eq_iff_eq
  · rw [MergedContents.isEmpty, hbase, Merged.isEmpty_iff, List.eq_nil_iff_forall_not_mem]
    constructor
    · intro hnone key
      cases hv : r.ledger.value? r.owner scope x key with
      | none => rfl
      | some v =>
          obtain ⟨e, he, _⟩ := (h.exists_pooled_iff scope x v).mpr ⟨key, hv⟩
          exact absurd he (hnone e)
    · intro hnone e he
      obtain ⟨key, hv⟩ := (h.exists_pooled_iff scope x e.1).mp ⟨e, he, rfl⟩
      rw [hnone key] at hv
      cases hv
  · intro keys
    rw [MergedContents.containsKeys, hbase, Merged.containsKeys, Merged.keySets, List.any_map,
      List.any_eq_true]
    refine exists_congr fun v => and_congr (hvalues v) ?_
    rw [Function.comp_apply, Chain.holdsExactly_iff _ (hdisjoint v)]
    exact forall_congr' fun key => iff_comm.trans (iff_congr Iff.rfl (h.mem_get_iff scope x v key))
  · intro v
    rw [Composite.mem_values_natural_iff, hvalues]

end Registry.Sound

/-- **A registry is a ledger.** However keys are divided among partitions, a run of commands on an
empty registry answers as it does on an empty ledger, and afterwards a composite over any scope, ordered
or not, says what the sheets in scope say. -/
theorem Registry.replay_refines [Std.LawfulEqOrd K] [Std.LawfulEqOrd E] [DecidableEq K]
    [DecidableEq E] (owner : Owner K) (sampler : Sampler) (settings : Settings)
    (commands : List (Command K E)) :
    (replay perform { owner, sampler, settings } commands).1 =
        (replay (Ledger.perform owner) {} commands).1 ∧
      ∀ scope x isOrdered,
        (Composite.ofView ((replay perform { owner, sampler, settings } commands).2.view scope) x
          isOrdered none).Reads
          ((replay (Ledger.perform owner) {} commands).2.value? owner scope x) := by
  have hempty : InStep owner {} ({ owner, sampler, settings } : Registry K E) := by
    refine ⟨rfl, Ledger.ext ?_ ?_, ?_⟩
    · funext p
      exact Table.contains_empty (K := K) (E := E) p
    · funext p y
      exact congrArg (Option.map Index.sheet) (Table.index?_empty (K := K) (E := E) p y)
    · intro id x i hi
      have hnone : (∅ : Table K E).index? id x = none := Table.index?_empty id x
      cases hnone.symm.trans hi
  obtain ⟨hanswers, howner, hledger, hsound⟩ := hempty.replay commands
  refine ⟨hanswers, fun scope x isOrdered => ?_⟩
  have hreads := hsound.reads scope x isOrdered
  rw [howner, hledger] at hreads
  exact hreads

/-- Even keys belong to partition zero, odd ones to partition one, which alone has ages. -/
def Command.ages : List (Command UInt64 Int64) :=
  [.indexEntry 1 ⟨"age"⟩ (some 30), .createIndex ⟨1⟩ ⟨⟨"age"⟩, true⟩ .ordered, .addPartition ⟨0⟩,
    .indexEntry 1 ⟨"age"⟩ (some 30), .indexEntry 3 ⟨"age"⟩ (some 30), .indexEntry 2 ⟨"age"⟩ none,
    .indexEntry 1 ⟨"age"⟩ none, .indexEntry 3 ⟨"age"⟩ (some 30), .removeEntry 5 ⟨"age"⟩]

theorem Registry.replay_refines_ages :
    (replay perform { owner := .modulo 2, sampler := .first } Command.ages).1 =
        [.error (.partitionNotFound 1), .ok .done, .ok .done, .ok .done,
          .error (.uniqueViolation "age"), .error (.indexNotFound 0 "age"), .ok .done, .ok .done,
          .ok (.found false)] ∧
      ∀ scope x isOrdered,
        (Composite.ofView
          ((replay perform { owner := .modulo 2, sampler := .first } Command.ages).2.view scope) x
          isOrdered none).Reads
          ((replay (Ledger.perform (.modulo 2)) {} Command.ages).2.value? (.modulo 2) scope x) := by
  obtain ⟨hanswers, hreads⟩ := replay_refines (.modulo 2) .first {} Command.ages
  exact ⟨hanswers.trans rfl, hreads⟩

end PartitionedIndex
