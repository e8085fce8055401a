import PartitionedIndex.Registry

/-! # Ledgers

What a registry does, on paper. A ledger has a sheet for each extractor of each registered partition,
and a sheet says which value each key has. A key is entered on the one sheet of the partition that owns
it and of the extractor; if the sheet is for unique values, no two keys on it have the same. There is no
inverse of a sheet, no kind of index and no view.

Commands are the operations of a registry as values, so that a registry and a ledger can carry out the
same list of them (`replay`). -/

namespace PartitionedIndex

/-- An operation of a registry. -/
inductive Command (K E : Type) where
  | addPartition (id : PartitionId)
  | removePartition (id : PartitionId)
  | createIndex (id : PartitionId) (spec : IndexSpec) (kind : IndexKind)
  | dropIndex (id : PartitionId) (x : Extractor)
  | indexEntry (key : K) (x : Extractor) (value : Option E)
  | removeEntry (key : K) (x : Extractor)
  deriving DecidableEq, Repr

/-- Carries out commands in turn and collects the answers. -/
def replay {S C A : Type} (perform : S → C → A × S) : S → List C → List A × S
  | s, [] => ([], s)
  | s, c :: rest =>
    let (answer, next) := perform s c
    let (answers, last) := replay perform next rest
    (answer :: answers, last)

theorem getElem?_replay {S C A : Type} (perform : S → C → A × S) (s : S) (commands : List C)
    (n : Nat) : (replay perform s commands).1[n]? =
      commands[n]?.map fun c => (perform (replay perform s (commands.take n)).2 c).1 := by
  induction commands generalizing s n with
  | nil => rfl
  | cons c rest ih =>
      cases n with
      | zero => rfl
      | succ n => exact ih (perform s c).2 n

theorem replay_induction {S C A : Type} {perform : S → C → A × S} {P : S → Prop} {s : S}
    {commands : List C} (hstep : ∀ s, P s → ∀ c ∈ commands, P (perform s c).2) (h : P s) :
    P (replay perform s commands).2 := by
  induction commands generalizing s with
  | nil => exact h
  | cons c rest ih =>
      exact ih (fun t ht d hd => hstep t ht d (List.mem_cons_of_mem c hd))
        (hstep s h c List.mem_cons_self)

/-- If two systems answer every command alike and stay related, they answer every run of commands alike
and stay related. -/
theorem replay_related {S T C A : Type} {perform : S → C → A × S} {work : T → C → A × T}
    {R : S → T → Prop}
    (hstep : ∀ s t, R s t → ∀ c, (perform s c).1 = (work t c).1 ∧ R (perform s c).2 (work t c).2)
    {s : S} {t : T} (h : R s t) (commands : List C) :
    (replay perform s commands).1 = (replay work t commands).1 ∧
      R (replay perform s commands).2 (replay work t commands).2 := by
  induction commands generalizing s t with
  | nil => exact ⟨rfl, h⟩
  | cons c rest ih =>
      obtain ⟨hanswer, hnext⟩ := hstep s t h c
      obtain ⟨hanswers, hlast⟩ := ih hnext
      exact ⟨List.cons_eq_cons.mpr ⟨hanswer, hanswers⟩, hlast⟩

/-- Carries out a command on a registry. -/
def Registry.perform {K E : Type} [Ord K] [Ord E] [Std.TransOrd K] [Std.TransOrd E]
    (r : Registry K E) : Command K E → Except Error Outcome × Registry K E
  | .addPartition id => (.ok .done, r.addPartition id)
  | .removePartition id => (.ok (.found (r.removePartition id).1), (r.removePartition id).2)
  | .createIndex id spec kind => (.ok .done, r.createIndex id spec kind)
  | .dropIndex id x => (.ok (.found (r.dropIndex id x).1), (r.dropIndex id x).2)
  | .indexEntry key x value => r.indexEntry key x value
  | .removeEntry key x => r.removeEntry key x

/-- The value of each key, and whether no two keys may have the same one. -/
structure Sheet (K E : Type) [Ord K] where
  unique : Bool
  values : Std.ExtTreeMap K (Option E) := ∅

namespace Sheet

variable {K E : Type} [Ord K] [Std.TransOrd K] [DecidableEq K] [DecidableEq E]

/-- Whether another key has a value. -/
def taken (s : Sheet K E) (key : K) (value : Option E) : Bool :=
  s.values.toList.any fun p => p.1 ≠ key ∧ p.2 = value

theorem taken_iff [Std.LawfulEqOrd K] (s : Sheet K E) (key : K) (value : Option E) :
    s.taken key value = true ↔ ∃ other, other ≠ key ∧ s.values[other]? = some value := by
  rw [taken, List.any_eq_true]
  constructor
  · rintro ⟨⟨other, w⟩, hmem, hother⟩
    obtain ⟨hne, rfl⟩ := of_decide_eq_true hother
    exact ⟨other, hne, Std.ExtTreeMap.mem_toList_iff_getElem?_eq_some.mp hmem⟩
  · rintro ⟨other, hne, hvalue⟩
    exact ⟨(other, value), Std.ExtTreeMap.mem_toList_iff_getElem?_eq_some.mpr hvalue,
      decide_eq_true ⟨hne, rfl⟩⟩

/-- Enters a key with a value, unless the value must be unique and is taken. -/
def enter (s : Sheet K E) (x : Extractor) (key : K) (value : Option E) :
    Except Error Outcome × Sheet K E :=
  if s.unique && s.taken key value then (.error (.uniqueViolation x.name), s)
  else (.ok .done, { s with values := s.values.insert key value })

/-- Strikes a key off and tells whether it was there. -/
def strike (s : Sheet K E) (key : K) : Except Error Outcome × Sheet K E :=
  (.ok (.found (s.values.contains key)), { s with values := s.values.erase key })

end Sheet

/-- Which partitions are registered, and the sheets they have. -/
@[ext] structure Ledger (K E : Type) [Ord K] where
  registered : PartitionId → Bool := fun _ => false
  sheet? : PartitionId → Extractor → Option (Sheet K E) := fun _ _ => none

namespace Ledger

variable {K E : Type} [Ord K]

def addPartition (l : Ledger K E) (id : PartitionId) : Ledger K E :=
  { l with registered := fun p => decide (id = p) || l.registered p }

def removePartition (l : Ledger K E) (id : PartitionId) : Ledger K E where
  registered p := !decide (id = p) && l.registered p
  sheet? p y := if id = p then none else l.sheet? p y

/-- Replaces the sheet of a partition for an extractor, or takes it away. -/
def setSheet (l : Ledger K E) (id : PartitionId) (x : Extractor) (s? : Option (Sheet K E)) :
    Ledger K E :=
  { l with sheet? := fun p y => if id = p ∧ x = y then s? else l.sheet? p y }

/-- Works on the sheet of a partition for an extractor, or says what is missing. -/
def onSheet (l : Ledger K E) (id : PartitionId) (x : Extractor)
    (work : Sheet K E → Except Error Outcome × Sheet K E) : Except Error Outcome × Ledger K E :=
  if l.registered id then
    match l.sheet? id x with
    | some s => ((work s).1, l.setSheet id x (some (work s).2))
    | none => (.error (.indexNotFound id.number x.name), l)
  else (.error (.partitionNotFound id.number), l)

/-- Whether a partition is in scope. -/
def covers (l : Ledger K E) (scope : Scope) (id : PartitionId) : Bool :=
  match scope with
  | .owned => l.registered id
  | .only ids => ids.contains id

variable [Std.TransOrd K]

/-- The value that a key has on the sheet of its owner, if the owner is in scope. -/
def value? (l : Ledger K E) (owner : Owner K) (scope : Scope) (x : Extractor) (key : K) :
    Option (Option E) :=
  if l.covers scope (owner key) then (l.sheet? (owner key) x).bind fun s => s.values[key]?
  else none

/-- Carries out a command on a ledger. -/
def perform [DecidableEq K] [DecidableEq E] (owner : Owner K) (l : Ledger K E) :
    Command K E → Except Error Outcome × Ledger K E
  | .addPartition id => (.ok .done, l.addPartition id)
  | .removePartition id => (.ok (.found (l.registered id)), l.removePartition id)
  | .createIndex id spec _ =>
    (.ok .done, (l.addPartition id).setSheet id spec.extractor (some { unique := spec.unique }))
  | .dropIndex id x => (.ok (.found (l.sheet? id x).isSome), l.setSheet id x none)
  | .indexEntry key x value => l.onSheet (owner key) x fun s => s.enter x key value
  | .removeEntry key x => l.onSheet (owner key) x fun s => s.strike key

end Ledger

end PartitionedIndex
