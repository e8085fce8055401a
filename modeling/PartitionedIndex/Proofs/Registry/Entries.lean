import PartitionedIndex.Proofs.Registry.Refinement
import PartitionedIndex.Proofs.Registry.Writes

/-! # Writes of entries

A write of an entry says what a key is to have under an extractor, if anything (`EntryWrite`). In a
registry without unique indexes (`Registry.Plain`) no such write is refused but for want of an index.
So lookups describe it: it answers by what was known of its entry (`answer_entry`), the entry has what
the write says and the lookups of all others are as they were (`lookup_entry`), and nothing about the
registry changes but the keys of its indexes (`shape_entry`). After a run of writes an entry has what
the last write to it says (`lookup_replay`). -/

namespace PartitionedIndex

/-- What a key is to have under an extractor: a value, or nothing. -/
structure EntryWrite (K E : Type) where
  key : K
  extractor : Extractor
  value? : Option (Option E)
  deriving DecidableEq, Repr

namespace EntryWrite

variable {K E : Type}

def write (w : EntryWrite K E) : Write K E :=
  match w.value? with
  | some value => .insert w.key value
  | none => .delete w.key

def command (w : EntryWrite K E) : Command K E :=
  match w.value? with
  | some value => .indexEntry w.key w.extractor value
  | none => .removeEntry w.key w.extractor

/-- What the write answers, given what was known of its key: only a removal tells. -/
def outcome (w : EntryWrite K E) (before : Lookup E) : Outcome :=
  match w.value? with
  | some _ => .done
  | none => .found !before.isAbsent

/-- The write is to the entry of a key under an extractor. -/
def IsTo (w : EntryWrite K E) (key : K) (x : Extractor) : Prop := w.key = key ∧ w.extractor = x

instance [DecidableEq K] (w : EntryWrite K E) (key : K) (x : Extractor) : Decidable (w.IsTo key x) :=
  inferInstanceAs (Decidable (_ ∧ _))

end EntryWrite

variable {K E : Type} [Ord K] [Ord E]

/-! ### Registries of one shape -/

/-- Everything about an index but its keys. -/
def Index.shape (i : Index K E) : IndexSpec × Option (Option (Comparator E)) × Bool :=
  (i.spec, i.contents.ordering, i.isPartial)

namespace Registry

/-- No index of the registry is unique. -/
def Plain (r : Registry K E) : Prop :=
  ∀ id x i, r.table.index? id x = some i → i.spec.unique = false

/-- The registry `s` is the registry `r` with other keys in its indexes. -/
structure SameShape (r s : Registry K E) : Prop where
  owner_eq : s.owner = r.owner
  sampler_eq : s.sampler = r.sampler
  settings_eq : s.settings = r.settings
  contains_eq : ∀ p, s.table.contains p = r.table.contains p
  shape_eq : ∀ p x, (s.table.index? p x).map Index.shape = (r.table.index? p x).map Index.shape

theorem SameShape.refl (r : Registry K E) : r.SameShape r :=
  ⟨rfl, rfl, rfl, fun _ => rfl, fun _ _ => rfl⟩

theorem SameShape.symm {r s : Registry K E} (h : r.SameShape s) : s.SameShape r where
  owner_eq := h.owner_eq.symm
  sampler_eq := h.sampler_eq.symm
  settings_eq := h.settings_eq.symm
  contains_eq p := (h.contains_eq p).symm
  shape_eq p x := (h.shape_eq p x).symm

theorem SameShape.trans {r s t : Registry K E} (hrs : r.SameShape s) (hst : s.SameShape t) :
    r.SameShape t where
  owner_eq := hst.owner_eq.trans hrs.owner_eq
  sampler_eq := hst.sampler_eq.trans hrs.sampler_eq
  settings_eq := hst.settings_eq.trans hrs.settings_eq
  contains_eq p := (hst.contains_eq p).trans (hrs.contains_eq p)
  shape_eq p x := (hst.shape_eq p x).trans (hrs.shape_eq p x)

theorem SameShape.exists_index {r s : Registry K E} (h : r.SameShape s) {p : PartitionId}
    {x : Extractor} {j : Index K E} (hj : s.table.index? p x = some j) :
    ∃ i, r.table.index? p x = some i ∧ i.shape = j.shape := by
  have hshape := h.shape_eq p x
  rw [hj, Option.map_some] at hshape
  exact Option.map_eq_some_iff.mp hshape.symm

theorem SameShape.plain {r s : Registry K E} (h : r.SameShape s) (hr : r.Plain) : s.Plain := by
  intro p x j hj
  obtain ⟨i, hi, hshape⟩ := h.exists_index hj
  have hspec : i.spec = j.spec := congrArg Prod.fst hshape
  rw [← hspec]
  exact hr p x i hi

theorem Replaces.index_eq {r s : Registry K E} {id : PartitionId} {x : Extractor} {j : Index K E}
    (h : r.Replaces id x j s) (p : PartitionId) (y : Extractor) :
    s.index p y = if p = id ∧ y = x then .ok j else r.index p y := by
  split
  next heq =>
    rw [heq.1, heq.2]
    exact (s.index_eq_ok_iff id x j).mpr h.placed
  next hne => rw [index, index, h.contains_eq, h.elsewhere p y hne]

theorem Replaces.sameShape {r s : Registry K E} {id : PartitionId} {x : Extractor}
    {i j : Index K E} (h : r.Replaces id x j s) (hi : r.table.index? id x = some i)
    (hshape : j.shape = i.shape) : r.SameShape s := by
  refine ⟨h.owner_eq, h.sampler_eq, h.settings_eq, h.contains_eq, fun p y => ?_⟩
  by_cases hplace : p = id ∧ y = x
  · rw [hplace.1, hplace.2, h.placed, hi, Option.map_some, Option.map_some, hshape]
  · rw [h.elsewhere p y hplace]

end Registry

/-! ### Writes of entries to an index -/

variable [Std.TransOrd K] [Std.TransOrd E]

namespace Index

variable [Std.LawfulEqOrd K] [DecidableEq K]

theorem apply_entry {i : Index K E} (hu : i.spec.unique = false) (w : EntryWrite K E) :
    (i.apply w.write).1 = .ok (w.outcome (i.get w.key)) ∧
      (∀ key, (i.apply w.write).2.get key =
        if w.key = key then .ofOption w.value? else i.get key) ∧
      (i.apply w.write).2.shape = i.shape := by
  obtain ⟨key, x, value?⟩ := w
  have hcompare : ∀ k, compare key k = .eq ↔ key = k := fun k => Std.LawfulEqOrd.compare_eq_iff_eq
  cases value? with
  | some value =>
      have hfree : i.conflicts key value = false := by rw [conflicts, hu, Bool.false_and]
      have happly : i.apply (.insert key value) = (.ok .done, i.put key value) := by
        rw [apply_insert, hfree, if_neg Bool.false_ne_true]
      refine ⟨congrArg Prod.fst happly, fun k => ?_, ?_⟩
      · refine (congrArg (fun a => Index.get a.2 k) happly).trans ?_
        simp only [get_put, hcompare, Lookup.ofOption]
      · refine (congrArg (fun a => Index.shape a.2) happly).trans ?_
        simp only [shape, spec_put, ordering_put, isPartial_put]
  | none =>
      refine ⟨?_, fun k => ?_, ?_⟩
      · have hfound : i.forward.contains key = !(i.get key).isAbsent := by
          rw [get, Lookup.isAbsent, Lookup.value?_ofOption, Option.not_isNone,
            Std.ExtTreeMap.contains_eq_isSome_getElem?]
        exact congrArg (fun found => Except.ok (Outcome.found found)) hfound
      · refine (i.get_drop key k).trans ?_
        simp only [hcompare, Lookup.ofOption]
      · have hshape : (i.drop key).shape = i.shape := by
          simp only [shape, spec_drop, ordering_drop, isPartial_drop]
        exact hshape

end Index

namespace Registry

/-- What the owner of a key knows about it under an extractor, or what is missing. -/
def lookup (r : Registry K E) (key : K) (x : Extractor) : Except Error (Lookup E) :=
  (r.index (r.owner key) x).map (·.get key)

omit [Std.TransOrd E] in
theorem lookup_of_index? {r : Registry K E} {key : K} {x : Extractor} {i : Index K E}
    (hi : r.table.index? (r.owner key) x = some i) : r.lookup key x = .ok (i.get key) := by
  rw [lookup, (r.index_eq_ok_iff _ x i).mpr hi]
  rfl

omit [Std.TransOrd E] in
theorem exists_index?_of_lookup {r : Registry K E} {key : K} {x : Extractor} {known : Lookup E}
    (h : r.lookup key x = .ok known) :
    ∃ i, r.table.index? (r.owner key) x = some i ∧ i.get key = known := by
  rw [lookup] at h
  cases hi : r.index (r.owner key) x with
  | error e =>
      rw [hi] at h
      cases h
  | ok i =>
      rw [hi] at h
      exact ⟨i, (r.index_eq_ok_iff _ x i).mp hi, Except.ok.inj h⟩

/-! ### One write -/

theorem perform_command (r : Registry K E) (w : EntryWrite K E) :
    r.perform w.command = r.write w.key w.extractor w.write := by
  obtain ⟨key, x, value?⟩ := w
  cases value? <;> rfl

namespace Plain

variable [Std.LawfulEqOrd K] [DecidableEq K] {r : Registry K E} (h : r.Plain)
include h

/-- A write of an entry finds no index and changes nothing, or it replaces the one it finds. -/
theorem perform_entry (w : EntryWrite K E) :
    (∃ e, r.index (r.owner w.key) w.extractor = .error e ∧ r.perform w.command = (.error e, r)) ∨
      ∃ i, r.table.index? (r.owner w.key) w.extractor = some i ∧
        (r.perform w.command).1 = .ok (w.outcome (i.get w.key)) ∧
        r.Replaces (r.owner w.key) w.extractor (i.apply w.write).2 (r.perform w.command).2 := by
  have hwritten := r.written w.key w.extractor w.write
  rw [r.perform_command]
  generalize r.write w.key w.extractor w.write = result at hwritten
  cases hwritten with
  | missing he => exact Or.inl ⟨_, he, rfl⟩
  | refused hi he =>
      rw [(Index.apply_entry (h _ _ _ hi) w).1] at he
      cases he
  | done hi ho hs =>
      refine Or.inr ⟨_, hi, ?_, hs⟩
      rw [← (Index.apply_entry (h _ _ _ hi) w).1, ho]

theorem answer_entry (w : EntryWrite K E) :
    (r.perform w.command).1 = (r.lookup w.key w.extractor).map w.outcome := by
  rw [lookup]
  rcases h.perform_entry w with ⟨e, he, hsame⟩ | ⟨i, hi, hanswer, _⟩
  · rw [he, hsame]
    rfl
  · rw [(r.index_eq_ok_iff _ _ i).mpr hi, hanswer]
    rfl

theorem lookup_entry (w : EntryWrite K E) (key : K) (x : Extractor) :
    (r.perform w.command).2.lookup key x =
      (r.lookup key x).map fun l => if w.IsTo key x then .ofOption w.value? else l := by
  rw [lookup, lookup]
  rcases h.perform_entry w with ⟨e, he, hsame⟩ | ⟨i, hi, _, hs⟩
  · rw [hsame]
    by_cases hto : w.IsTo key x
    · rw [← hto.1, ← hto.2, he]
      rfl
    · simp only [hto, if_false]
      cases r.index (r.owner key) x <;> rfl
  · rw [hs.owner_eq, hs.index_eq]
    have hget := (Index.apply_entry (h _ _ _ hi) w).2.1 key
    by_cases hplace : r.owner key = r.owner w.key ∧ x = w.extractor
    · rw [if_pos hplace, hplace.1, hplace.2, (r.index_eq_ok_iff _ _ i).mpr hi]
      refine congrArg Except.ok (hget.trans (if_congr ?_ rfl rfl))
      exact ⟨fun hkey => ⟨hkey, rfl⟩, And.left⟩
    · have hto : ¬ w.IsTo key x := fun hto => hplace ⟨congrArg r.owner hto.1.symm, hto.2.symm⟩
      simp only [hplace, hto, if_false]
      cases r.index (r.owner key) x <;> rfl

theorem shape_entry (w : EntryWrite K E) : r.SameShape (r.perform w.command).2 := by
  rcases h.perform_entry w with ⟨e, _, hsame⟩ | ⟨i, hi, _, hs⟩
  · rw [hsame]
    exact SameShape.refl r
  · exact hs.sameShape hi (Index.apply_entry (h _ _ _ hi) w).2.2

/-! ### Runs of writes -/

theorem shape_replay (writes : List (EntryWrite K E)) :
    r.SameShape (replay perform r (writes.map EntryWrite.command)).2 := by
  refine replay_induction (P := r.SameShape) (fun s hs c hc => ?_) (SameShape.refl r)
  obtain ⟨w, _, rfl⟩ := List.mem_map.mp hc
  exact hs.trans ((hs.plain h).shape_entry w)

/-- After a run of writes an entry has what the last write to it says, or what it had. -/
theorem lookup_replay (writes : List (EntryWrite K E)) (key : K) (x : Extractor) :
    (replay perform r (writes.map EntryWrite.command)).2.lookup key x =
      (r.lookup key x).map fun l =>
        (writes.filter (·.IsTo key x)).foldl (fun _ w => .ofOption w.value?) l := by
  induction writes generalizing r with
  | nil => cases hr : r.lookup key x <;> exact hr
  | cons w rest ih =>
      refine (ih ((h.shape_entry w).plain h)).trans ?_
      rw [h.lookup_entry, List.filter_cons]
      cases r.lookup key x with
      | error e => rfl
      | ok l =>
          by_cases hto : w.IsTo key x
          · simp [hto, Except.map]
          · simp [hto, Except.map]

/-- In a run of writes each answers by what its entry had and the writes to the entry before it. -/
theorem answer_replay {writes : List (EntryWrite K E)} {n : Nat} {w : EntryWrite K E}
    (hw : writes[n]? = some w) :
    (replay perform r (writes.map EntryWrite.command)).1[n]? =
      some ((r.lookup w.key w.extractor).map fun l =>
        w.outcome (((writes.take n).filter (·.IsTo w.key w.extractor)).foldl
          (fun _ w => .ofOption w.value?) l)) := by
  rw [getElem?_replay, List.getElem?_map, hw, Option.map_some, Option.map_some, ← List.map_take,
    ((h.shape_replay _).plain h).answer_entry, h.lookup_replay]
  cases r.lookup w.key w.extractor <;> rfl

end Plain

/-! ### Registries that commands lead to -/

omit [Std.TransOrd K] [Std.TransOrd E] in
theorem index?_ne_some (owner : Owner K) (sampler : Sampler) (settings : Settings)
    (id : PartitionId) (x : Extractor) (i : Index K E) :
    ({ owner, sampler, settings } : Registry K E).table.index? id x ≠ some i := by
  have hnone : (∅ : Table K E).index? id x = none := Table.index?_empty id x
  exact fun hi => nomatch hnone.symm.trans hi

theorem plain_replay (owner : Owner K) (sampler : Sampler) (settings : Settings)
    {commands : List (Command K E)}
    (hcommands : ∀ id spec kind, .createIndex id spec kind ∈ commands → spec.unique = false) :
    (replay perform { owner, sampler, settings } commands).2.Plain := by
  refine replay_induction (fun s hs c hc => ?_)
    fun id x i hi => absurd hi (index?_ne_some owner sampler settings id x i)
  intro id x j hj
  rcases index?_perform hj with hold | ⟨spec, kind, rfl, rfl⟩ | ⟨i, w, hi, rfl⟩
  · exact hs id x j hold
  · exact hcommands id spec kind hc
  · rw [(i.apply_frame w).1]
    exact hs id x i hi

variable [Std.LawfulEqOrd K] [Std.LawfulEqOrd E]

theorem Sound.replay {r : Registry K E} (h : r.Sound) (commands : List (Command K E)) :
    (PartitionedIndex.replay Registry.perform r commands).2.Sound := by
  classical
  exact replay_induction (fun s hs c _ => (hs.perform c).2.sound) h

theorem sound_replay (owner : Owner K) (sampler : Sampler) (settings : Settings)
    (commands : List (Command K E)) :
    (replay perform { owner, sampler, settings } commands).2.Sound :=
  Sound.replay (fun id x i hi => absurd hi (index?_ne_some owner sampler settings id x i)) commands

end Registry

end PartitionedIndex
