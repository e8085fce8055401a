import PartitionedIndex.Proofs.Registry.Ledger
import PartitionedIndex.Proofs.Index.Reachable

/-! # A registry goes with its ledger

The forward maps of the indexes of a registry are the sheets of a ledger (`Registry.ledger`). Every
command answers on both alike and leaves them in step (`Sound.perform`), because every index is
coherent and has only keys that its partition owns (`Registry.Sound`), which every command restores.
By induction so does every run of commands (`InStep.replay`). -/

namespace PartitionedIndex

variable {K E : Type} [Ord K] [Ord E] [Std.TransOrd K] [Std.TransOrd E]

/-- The sheet of an index is its forward map. -/
def Index.sheet (i : Index K E) : Sheet K E where
  unique := i.spec.unique
  values := i.forward

/-- The ledger of a registry. -/
def Registry.ledger (r : Registry K E) : Ledger K E where
  registered := r.table.contains
  sheet? id x := (r.table.index? id x).map Index.sheet

/-- An index is where it belongs: coherent, in natural order, under its own extractor, and with keys
that its partition owns. -/
structure Index.InPlace (owner : Owner K) (id : PartitionId) (x : Extractor) (i : Index K E) :
    Prop where
  coherent : i.Coherent
  order_eq : i.contents.order = compare
  extractor_eq : i.spec.extractor = x
  owned : ∀ key value, i.get key = .indexed value → owner key = id

/-- Every index of the registry is in its place. -/
def Registry.Sound (r : Registry K E) : Prop :=
  ∀ id x i, r.table.index? id x = some i → i.InPlace r.owner id x

namespace Index

variable [Std.LawfulEqOrd K] {owner : Owner K} {id : PartitionId} {x : Extractor} {i : Index K E}

theorem inPlace_new (spec : IndexSpec) (kind : IndexKind) :
    (Index.new spec kind : Index K E).InPlace owner id spec.extractor := by
  refine ⟨(Reachable.new spec kind).coherent, ?_, rfl,
    fun key value hv => absurd hv (get_ofContents_ne spec _ key value)⟩
  cases kind with
  | unordered => rfl
  | ordered =>
      funext v w
      exact SafeComparator.order_natural v w

theorem sheet_drop (i : Index K E) (key : K) :
    (i.drop key).sheet = { i.sheet with values := i.forward.erase key } := by
  have hforward : (i.drop key).forward = i.forward.erase key := by
    apply forward_eq
    intro k
    rw [get_drop, Std.ExtTreeMap.getElem?_erase]
    split <;> rfl
  unfold sheet
  rw [spec_drop, hforward]

theorem sheet_put (i : Index K E) (key : K) (value : Option E) :
    (i.put key value).sheet = { i.sheet with values := i.forward.insert key value } := by
  have hforward : (i.put key value).forward = i.forward.insert key value := by
    apply forward_eq
    intro k
    rw [get_put, Std.ExtTreeMap.getElem?_insert]
    split <;> rfl
  unfold sheet
  rw [spec_put, hforward]

namespace InPlace

theorem drop (h : i.InPlace owner id x) (key : K) : (i.drop key).InPlace owner id x := by
  refine ⟨h.coherent.drop key, ?_, ?_, ?_⟩
  · rw [Contents.order_congr (i.ordering_drop key)]
    exact h.order_eq
  · rw [spec_drop]
    exact h.extractor_eq
  · intro k v hv
    rw [get_drop] at hv
    split at hv
    next => cases hv
    next => exact h.owned k v hv

theorem put (h : i.InPlace owner id x) {key : K} (hk : owner key = id) {value : Option E}
    (hc : i.conflicts key value = false) : (i.put key value).InPlace owner id x := by
  refine ⟨h.coherent.put hc, ?_, ?_, ?_⟩
  · rw [Contents.order_congr (i.ordering_put key value)]
    exact h.order_eq
  · rw [spec_put]
    exact h.extractor_eq
  · intro k v hv
    rw [get_put] at hv
    split at hv
    next heq =>
      obtain rfl := Std.LawfulEqOrd.eq_of_compare heq
      exact hk
    next => exact h.owned k v hv

variable [DecidableEq K] [DecidableEq E] [Std.LawfulEqOrd E]

theorem conflicts_eq (h : i.InPlace owner id x) (key : K) (value : Option E) :
    i.conflicts key value = (i.sheet.unique && i.sheet.taken key value) := by
  rw [Bool.eq_iff_iff, h.coherent.conflicts_iff, Bool.and_eq_true, Sheet.taken_iff]
  refine and_congr_right fun _ => exists_congr fun other => and_congr_right fun _ => ?_
  rw [HasValue, h.order_eq]
  constructor
  · rintro ⟨w, hw, heq⟩
    rw [← Std.LawfulEqOrd.eq_of_compare heq]
    exact (i.get_eq_indexed_iff other w).mp hw
  · intro hvalue
    exact ⟨value, (i.get_eq_indexed_iff other value).mpr hvalue, Std.ReflCmp.compare_self⟩

theorem apply_insert (h : i.InPlace owner id x) {key : K} (hk : owner key = id)
    (value : Option E) :
    (i.apply (.insert key value)).1 = (i.sheet.enter x key value).1 ∧
      (i.apply (.insert key value)).2.sheet = (i.sheet.enter x key value).2 ∧
      (i.apply (.insert key value)).2.InPlace owner id x := by
  rw [Index.apply_insert, Sheet.enter, ← h.conflicts_eq, h.extractor_eq]
  cases hc : i.conflicts key value with
  | true => exact ⟨rfl, rfl, h⟩
  | false => exact ⟨rfl, i.sheet_put key value, h.put hk hc⟩

omit [DecidableEq K] [DecidableEq E] [Std.LawfulEqOrd E] in
theorem apply_delete (h : i.InPlace owner id x) (key : K) :
    (i.apply (.delete key)).1 = (i.sheet.strike key).1 ∧
      (i.apply (.delete key)).2.sheet = (i.sheet.strike key).2 ∧
      (i.apply (.delete key)).2.InPlace owner id x :=
  ⟨rfl, i.sheet_drop key, h.drop key⟩

end InPlace

end Index

/-! ### Changes of the table -/

/-- A registry has a ledger, divides keys like an owner, and every index is in its place. -/
structure Registry.InStep (owner : Owner K) (l : Ledger K E) (r : Registry K E) : Prop where
  owner_eq : r.owner = owner
  ledger_eq : r.ledger = l
  sound : r.Sound

namespace Registry.Sound

variable {r : Registry K E} (h : r.Sound)
include h

/-- A change of the table that replaces or takes away some indexes leaves registry and ledger in
step, if the ledger replaces or takes away the same sheets. -/
theorem change {t : Table K E} {l : Ledger K E} (i? : Option (Index K E))
    (changes : PartitionId → Extractor → Prop) [∀ p y, Decidable (changes p y)]
    (hcontains : ∀ p, t.contains p = l.registered p)
    (hindex : ∀ p y, t.index? p y = if changes p y then i? else r.table.index? p y)
    (hsheet : ∀ p y, l.sheet? p y = if changes p y then i?.map Index.sheet else r.ledger.sheet? p y)
    (hplace : ∀ p y i, changes p y → i? = some i → i.InPlace r.owner p y) :
    Registry.InStep r.owner l { r with table := t } := by
  refine ⟨rfl, Ledger.ext (funext hcontains) ?_, ?_⟩
  · funext p y
    refine (congrArg (Option.map Index.sheet) (hindex p y)).trans ?_
    rw [hsheet, apply_ite (Option.map Index.sheet)]
    rfl
  · intro p y i hi
    rw [hindex] at hi
    split at hi
    next hchanges => exact hplace p y i hchanges hi
    next => exact h p y i hi

theorem addPartition (id : PartitionId) :
    (r.addPartition id).InStep r.owner (r.ledger.addPartition id) :=
  h.change none (fun _ _ => False) (r.table.contains_addPartition id)
    (fun p y => (r.table.index?_addPartition id p y).trans (if_neg not_false).symm)
    (fun _ _ => (if_neg not_false).symm) (fun _ _ _ hfalse => hfalse.elim)

theorem removePartition (id : PartitionId) :
    (r.removePartition id).2.InStep r.owner (r.ledger.removePartition id) :=
  h.change none (fun p _ => id = p) (r.table.contains_removePartition id)
    (r.table.index?_removePartition id) (fun _ _ => rfl) (fun _ _ _ _ hnone => nomatch hnone)

theorem registerIndex {id : PartitionId} {x : Extractor} {i : Index K E}
    (hi : i.InPlace r.owner id x) :
    (r.registerIndex id x i).InStep r.owner
      ((r.ledger.addPartition id).setSheet id x (some i.sheet)) := by
  refine h.change (some i) (fun p y => id = p ∧ x = y) (r.table.contains_putIndex id · x i)
    (r.table.index?_putIndex id · x · i) (fun _ _ => rfl) ?_
  rintro p y j ⟨rfl, rfl⟩ hj
  cases hj
  exact hi

theorem dropIndex (id : PartitionId) (x : Extractor) :
    (r.dropIndex id x).2.InStep r.owner (r.ledger.setSheet id x none) :=
  h.change none (fun p y => id = p ∧ x = y) (r.table.contains_removeIndex id · x)
    (r.table.index?_removeIndex id · x) (fun _ _ => rfl) (fun _ _ _ _ hnone => nomatch hnone)

theorem setIndex {id : PartitionId} {x : Extractor} {i j : Index K E}
    (hi : r.table.index? id x = some i) (hj : j.InPlace r.owner id x) :
    Registry.InStep r.owner (r.ledger.setSheet id x (some j.sheet))
      { r with table := r.table.setIndex id x j } := by
  refine h.change (some j) (fun p y => id = p ∧ x = y) (r.table.contains_setIndex id · x j) ?_
    (fun _ _ => rfl) ?_
  · intro p y
    rw [Table.index?_setIndex]
    split
    next heq => rw [← heq.1, ← heq.2, hi, Option.map_some]
    next => rfl
  · rintro p y k ⟨rfl, rfl⟩ hk
    cases hk
    exact hj

theorem withIndex (id : PartitionId) (x : Extractor)
    {action : Index K E → Except Error Outcome × Index K E}
    {work : Sheet K E → Except Error Outcome × Sheet K E}
    (hwork : ∀ i, i.InPlace r.owner id x → (action i).1 = (work i.sheet).1 ∧
      (action i).2.sheet = (work i.sheet).2 ∧ (action i).2.InPlace r.owner id x) :
    (r.withIndex id x action).1 = (r.ledger.onSheet id x work).1 ∧
      (r.withIndex id x action).2.InStep r.owner (r.ledger.onSheet id x work).2 := by
  unfold Registry.withIndex Registry.index Ledger.onSheet
  have hregistered : r.ledger.registered id = r.table.contains id := rfl
  have hsheet : r.ledger.sheet? id x = (r.table.index? id x).map Index.sheet := rfl
  rw [hregistered, hsheet]
  cases r.table.contains id with
  | false => exact ⟨rfl, rfl, rfl, h⟩
  | true =>
      cases hi : r.table.index? id x with
      | none => exact ⟨rfl, rfl, rfl, h⟩
      | some i =>
          obtain ⟨hanswer, hleft, hplace⟩ := hwork i (h id x i hi)
          have hstep := h.setIndex hi hplace
          rw [hleft] at hstep
          exact ⟨hanswer, hstep⟩

end Registry.Sound

/-! ### Commands and runs -/

namespace Registry

variable [Std.LawfulEqOrd K] [Std.LawfulEqOrd E] [DecidableEq K] [DecidableEq E]

/-- Each command answers as on the ledger and leaves registry and ledger in step. -/
theorem Sound.perform {r : Registry K E} (h : r.Sound) (c : Command K E) :
    (r.perform c).1 = (r.ledger.perform r.owner c).1 ∧
      (r.perform c).2.InStep r.owner (r.ledger.perform r.owner c).2 := by
  cases c with
  | addPartition id => exact ⟨rfl, h.addPartition id⟩
  | removePartition id => exact ⟨rfl, h.removePartition id⟩
  | createIndex id spec kind => exact ⟨rfl, h.registerIndex (Index.inPlace_new spec kind)⟩
  | dropIndex id x =>
      refine ⟨?_, h.dropIndex id x⟩
      have hsome : ((r.table.index? id x).map Index.sheet).isSome = (r.table.index? id x).isSome :=
        Option.isSome_map
      exact congrArg (fun found => Except.ok (Outcome.found found)) hsome.symm
  | indexEntry key x value =>
      exact h.withIndex (r.owner key) x fun i hi => hi.apply_insert rfl value
  | removeEntry key x =>
      exact h.withIndex (r.owner key) x fun i hi => hi.apply_delete key

/-- A run of commands answers as on the ledger and leaves registry and ledger in step. -/
theorem InStep.replay {owner : Owner K} {r : Registry K E} {l : Ledger K E} (h : r.InStep owner l)
    (commands : List (Command K E)) :
    (PartitionedIndex.replay perform r commands).1 =
        (PartitionedIndex.replay (Ledger.perform owner) l commands).1 ∧
      (PartitionedIndex.replay perform r commands).2.InStep owner
        (PartitionedIndex.replay (Ledger.perform owner) l commands).2 := by
  refine replay_related (R := fun r l => InStep owner l r) (fun r l hstep c => ?_) h commands
  obtain ⟨rfl, rfl, hsound⟩ := hstep
  exact hsound.perform c

end Registry

end PartitionedIndex
