import PartitionedIndex.Proofs.Index.Interchange
import PartitionedIndex.Proofs.Index.MarkedSheet
import PartitionedIndex.Proofs.Registry.Refinement

/-! # Indexes that are rebuilt

An index of either kind, in natural order, follows a marked sheet (`Index.Follows`): they have the same
values, and the index is partial if the sheet is marked. Every change, rebuilding included, is answered by
both alike and leaves the index following (`Follows.change`), and so by induction is every run of changes
(`Follows.replay`). An index that follows a sheet shows what the sheet has and nothing else
(`Index.Mirrors`), and what it becomes when it is rebuilt is read off the entries (`Index.Renews`). Main
statement: `changes_mirror`. -/

namespace PartitionedIndex

def Index.change {K E : Type} [Ord K] [Ord E] [Std.TransOrd K] [Std.TransOrd E] (i : Index K E) :
    Change K E → Except Error Outcome × Index K E
  | .write w => i.apply w
  | .rebuild entries => (.ok .done, i.rebuild entries)

/-! ### An index follows its sheet -/

namespace Index

variable {K E : Type} [Ord K] [Ord E] [Std.TransOrd K] [Std.TransOrd E]

/-- An index is one of a kind for a purpose, has the values of a sheet, and is partial if the sheet
is marked. A single partition is taken to own every key. -/
structure Follows (spec : IndexSpec) (kind : IndexKind) (m : MarkedSheet K E) (i : Index K E) :
    Prop where
  inPlace : i.InPlace (.always ⟨0⟩) ⟨0⟩ spec.extractor
  spec_eq : i.spec = spec
  ordering_eq : i.contents.ordering = (Index.new spec kind : Index K E).contents.ordering
  sheet_eq : i.sheet = m.sheet
  isPartial_eq : i.isPartial = m.isMarked

variable {spec : IndexSpec} {kind : IndexKind} {m : MarkedSheet K E} {i : Index K E}

theorem follows_new [Std.LawfulEqOrd K] (spec : IndexSpec) (kind : IndexKind) :
    Follows spec kind (.blank spec.unique) (Index.new spec kind : Index K E) :=
  ⟨inPlace_new spec kind, rfl, rfl, rfl, rfl⟩

namespace Follows

variable (h : Follows spec kind m i)
include h

/-- Rebuilding an index is inserting entries into a new one. -/
theorem rebuild_eq (entries : List (K × Option E)) :
    i.rebuild entries = entries.foldl insertOrMark (Index.new spec kind) := by
  have hclear : i.contents.clear = (Index.new spec kind : Index K E).contents := by
    rw [Contents.clear_congr h.ordering_eq]
    cases kind <;> rfl
  rw [rebuild, hclear, h.spec_eq]
  rfl

variable [Std.LawfulEqOrd K]

theorem drop (key : K) :
    Follows spec kind { m with sheet := (m.sheet.strike key).2 } (i.drop key) where
  inPlace := h.inPlace.drop key
  spec_eq := (i.spec_drop key).trans h.spec_eq
  ordering_eq := (i.ordering_drop key).trans h.ordering_eq
  sheet_eq := by rw [← h.sheet_eq, sheet_drop]; rfl
  isPartial_eq := (i.isPartial_drop key).trans h.isPartial_eq

theorem put {key : K} {value : Option E} (hfree : i.conflicts key value = false) :
    Follows spec kind
      { m with sheet := { m.sheet with values := m.values.insert key value } } (i.put key value) where
  inPlace := h.inPlace.put rfl hfree
  spec_eq := (i.spec_put key value).trans h.spec_eq
  ordering_eq := (i.ordering_put key value).trans h.ordering_eq
  sheet_eq := by rw [sheet_put, MarkedSheet.values, ← h.sheet_eq]; rfl
  isPartial_eq := (i.isPartial_put key value).trans h.isPartial_eq

theorem markUnindexable (key : K) : Follows spec kind (m.mark key) (i.markUnindexable key) where
  inPlace :=
    have hdrop := h.inPlace.drop key
    ⟨⟨hdrop.coherent.wellFormed, hdrop.coherent.lists_iff, hdrop.coherent.exclusive⟩,
      hdrop.order_eq, hdrop.extractor_eq, hdrop.owned⟩
  spec_eq := (h.drop key).spec_eq
  ordering_eq := (h.drop key).ordering_eq
  sheet_eq := (h.drop key).sheet_eq
  isPartial_eq := rfl

variable [Std.LawfulEqOrd E] [DecidableEq K] [DecidableEq E]

theorem conflicts_eq (key : K) (value : Option E) :
    i.conflicts key value = (m.sheet.unique && m.sheet.taken key value) := by
  rw [h.inPlace.conflicts_eq, h.sheet_eq]

theorem insert (key : K) (value : Option E) :
    (i.apply (.insert key value)).1 = (m.sheet.enter spec.extractor key value).1 ∧
      Follows spec kind (m.work (m.sheet.enter spec.extractor key value)).2
        (i.apply (.insert key value)).2 := by
  rw [apply_insert, Sheet.enter, ← h.conflicts_eq, h.spec_eq]
  cases hc : i.conflicts key value with
  | true => exact ⟨rfl, h⟩
  | false => exact ⟨rfl, h.put hc⟩

theorem insertOrMark (entry : K × Option E) :
    Follows spec kind (m.enterOrMark spec.extractor entry) (i.insertOrMark entry) := by
  rw [MarkedSheet.enterOrMark_eq, ← h.conflicts_eq, Index.insertOrMark, Index.insert]
  cases hc : i.conflicts entry.1 entry.2 with
  | true => exact h.markUnindexable entry.1
  | false => exact h.put hc

omit h in
theorem fill (entries : List (K × Option E)) :
    Follows spec kind (.fill spec.extractor spec.unique entries)
      (entries.foldl Index.insertOrMark (Index.new spec kind : Index K E)) := by
  have hfold : ∀ (m : MarkedSheet K E) i, Follows spec kind m i →
      Follows spec kind (entries.foldl (.enterOrMark spec.extractor) m)
        (entries.foldl Index.insertOrMark i) := by
    induction entries with
    | nil => exact fun _ _ hi => hi
    | cons entry rest ih => exact fun _ _ hi => ih _ _ (hi.insertOrMark entry)
  exact hfold _ _ (follows_new spec kind)

theorem rebuild (entries : List (K × Option E)) :
    Follows spec kind (.fill spec.extractor spec.unique entries) (i.rebuild entries) :=
  h.rebuild_eq entries ▸ Follows.fill entries

/-- **Every change is one of the sheet**, and the index follows the sheet through it. -/
theorem change (c : Change K E) :
    (i.change c).1 = (m.perform spec.extractor c).1 ∧
      Follows spec kind (m.perform spec.extractor c).2 (i.change c).2 := by
  cases c with
  | write w =>
      cases w with
      | insert key value => exact h.insert key value
      | update key value => exact h.insert key value
      | delete key =>
          refine ⟨?_, h.drop key⟩
          have hvalues : i.forward = m.sheet.values := congrArg Sheet.values h.sheet_eq
          exact congrArg (fun f => Except.ok (Outcome.found (f.contains key))) hvalues
      | markUnindexable key => exact ⟨rfl, h.markUnindexable key⟩
  | rebuild entries =>
      refine ⟨rfl, ?_⟩
      have hunique : m.sheet.unique = spec.unique := by
        rw [← h.sheet_eq, ← h.spec_eq]
        rfl
      have hrebuilt := h.rebuild entries
      rw [← hunique] at hrebuilt
      exact hrebuilt

end Follows

end Index

/-! ### Indexes mirror their sheets -/

namespace Index

variable {K E : Type} [Ord K] [Ord E] [Std.TransOrd K] [Std.TransOrd E]

/-- What an index shows is what its sheet has: the value of each key, how many keys there are, whether
it is partial, and in its contents exactly the values that keys have, each once and with exactly the keys
that have it. -/
structure Mirrors (m : MarkedSheet K E) (i : Index K E) : Prop where
  get_eq : ∀ key, i.get key = .ofOption m.values[key]?
  isPartial_eq : i.isPartial = m.isMarked
  keyCount_eq : i.keyCount = m.values.size
  mem_values_iff : ∀ value, value ∈ i.contents.values ↔ ∃ key : K, m.values[key]? = some value
  nodup_values : i.contents.values.Nodup
  get?_iff : ∀ value keys, i.contents.get? value = some keys ↔
    (∃ key, key ∈ keys) ∧ ∀ key : K, key ∈ keys ↔ m.values[key]? = some value
  mem_entries_iff : ∀ value keys,
    (value, keys) ∈ i.contents.entries ↔ i.contents.get? value = some keys

/-- Rebuilding an index from entries forgets what it was. If it is not unique, every key has the value
of its last entry, and it is not partial. If it is unique and no key is repeated, it has exactly the first
entry of each value, and it is partial if a value is repeated. -/
structure Renews [DecidableEq K] [DecidableEq E] (spec : IndexSpec) (kind : IndexKind)
    (entries : List (K × Option E)) (i : Index K E) : Prop where
  rebuild_eq : i.rebuild entries = (Index.new spec kind).rebuild entries
  of_not_unique : spec.unique = false → (i.rebuild entries).isPartial = false ∧
    ∀ key, (i.rebuild entries).get key =
      .ofOption ((entries.reverse.find? fun e => e.1 = key).map Prod.snd)
  of_unique : spec.unique = true → (entries.map Prod.fst).Nodup →
    ((i.rebuild entries).isPartial = true ↔ ¬ (entries.map Prod.snd).Nodup) ∧
      ∀ key value, (i.rebuild entries).get key = .indexed value ↔
        (entries.find? fun e => e.2 = value) = some (key, value)

variable {spec : IndexSpec} {kind : IndexKind} {m : MarkedSheet K E} {i : Index K E}

namespace Follows

variable (h : Follows spec kind m i)
include h

theorem forward_eq : i.forward = m.values := congrArg Sheet.values h.sheet_eq

theorem get_eq (key : K) : i.get key = .ofOption m.values[key]? := by
  rw [get, h.forward_eq]

theorem get_eq_indexed_iff (key : K) (value : Option E) :
    i.get key = .indexed value ↔ m.values[key]? = some value := by
  rw [Index.get_eq_indexed_iff, h.forward_eq]

variable [Std.LawfulEqOrd K] [Std.LawfulEqOrd E]

omit [Std.LawfulEqOrd K] in
theorem order_iff (v w : Option E) : i.contents.order v w = .eq ↔ v = w := by
  rw [h.inPlace.order_eq]
  exact Std.LawfulEqOrd.compare_eq_iff_eq

omit [Std.LawfulEqOrd K] in
theorem hasValue_iff (key : K) (value : Option E) :
    i.HasValue key value ↔ m.values[key]? = some value := by
  simp [HasValue, h.order_iff, h.get_eq_indexed_iff]

theorem mirrors : Mirrors m i where
  get_eq := h.get_eq
  isPartial_eq := h.isPartial_eq
  keyCount_eq := congrArg Std.ExtTreeMap.size h.forward_eq
  mem_values_iff value := by
    rw [h.inPlace.coherent.mem_values_iff h.order_iff]
    exact exists_congr fun key => h.get_eq_indexed_iff key value
  nodup_values :=
    have := h.inPlace.coherent.wellFormed.transCmp
    h.inPlace.coherent.wellFormed.values.nodup
  get?_iff value keys := by
    rw [h.inPlace.coherent.get?_eq_some_iff]
    refine and_congr_right fun _ => forall_congr' fun key => iff_congr Iff.rfl ?_
    exact h.hasValue_iff key value
  mem_entries_iff :=
    h.inPlace.coherent.wellFormed.mem_entries_iff fun v w heq => (h.order_iff v w).mp heq

variable [DecidableEq K] [DecidableEq E]

theorem renews (entries : List (K × Option E)) : Renews spec kind entries i := by
  have hrebuilt := h.rebuild entries
  refine ⟨(h.rebuild_eq entries).trans ((follows_new spec kind).rebuild_eq entries).symm, ?_, ?_⟩
  · intro hunique
    rw [hunique] at hrebuilt
    obtain ⟨hmarked, hvalues⟩ := MarkedSheet.fill_of_not_unique spec.extractor entries
    refine ⟨hrebuilt.isPartial_eq.trans hmarked, fun key => ?_⟩
    rw [hrebuilt.get_eq, hvalues]
  · intro hunique hkeys
    rw [hunique] at hrebuilt
    obtain ⟨hmarked, hfirsts⟩ := MarkedSheet.fill_of_unique spec.extractor hkeys
    refine ⟨?_, fun key value => (hrebuilt.get_eq_indexed_iff key value).trans (hfirsts key value)⟩
    rw [hrebuilt.isPartial_eq]
    exact hmarked

/-- An index answers a run of changes like the sheet, and follows it through the run. -/
theorem replay (changes : List (Change K E)) :
    (PartitionedIndex.replay Index.change i changes).1 =
        (PartitionedIndex.replay (MarkedSheet.perform spec.extractor) m changes).1 ∧
      Follows spec kind (PartitionedIndex.replay (MarkedSheet.perform spec.extractor) m changes).2
        (PartitionedIndex.replay Index.change i changes).2 :=
  replay_related (R := fun i m => Follows spec kind m i)
    (fun _ _ hstep c => hstep.change c) h changes

end Follows

variable [Std.LawfulEqOrd K] [Std.LawfulEqOrd E] [DecidableEq K] [DecidableEq E]

/-- **An index and its sheet are changed alike**, rebuilding included: a new index answers every run
of changes like a blank sheet, mirrors it afterwards, and is as good as new when it is rebuilt. -/
theorem changes_mirror (spec : IndexSpec) (kind : IndexKind) (changes : List (Change K E)) :
    (replay change (Index.new spec kind) changes).1 =
        (replay (MarkedSheet.perform spec.extractor) (.blank spec.unique) changes).1 ∧
      Mirrors (replay (MarkedSheet.perform spec.extractor) (.blank spec.unique) changes).2
        (replay change (Index.new spec kind) changes).2 ∧
      ∀ entries, Renews spec kind entries (replay change (Index.new spec kind) changes).2 := by
  obtain ⟨hanswers, hfollows⟩ := (follows_new spec kind).replay changes
  exact ⟨hanswers, hfollows.mirrors, hfollows.renews⟩

/-- An index of unique ages that is rebuilt from entries which repeat a key and a value. -/
def remade : List (Except Error Outcome) × Index UInt64 Nat :=
  replay change (Index.new ⟨⟨"age"⟩, true⟩ .unordered)
    [.write (.insert 1 (some 30)), .write (.insert 2 (some 30)),
      .rebuild [(1, some 30), (2, some 20), (2, some 30), (3, none)], .write (.delete 2)]

/-- The refused entry has taken key 2 away, and the index stays partial until it is rebuilt again. -/
theorem changes_mirror_remade :
    remade.1 = [.ok .done, .error (.uniqueViolation "age"), .ok .done, .ok (.found false)] ∧
      remade.2.get 2 = .absent ∧ remade.2.isPartial = true ∧
      (remade.2.rebuild [(4, some 30), (1, some 20)]).isPartial = false ∧
      (remade.2.rebuild [(4, some 30), (1, some 20)]).get 1 = .indexed (some 20) := by
  obtain ⟨hanswers, hmirrors, hrenews⟩ :
      _ ∧ Mirrors _ remade.2 ∧ ∀ entries, Renews _ _ entries remade.2 :=
    changes_mirror ⟨⟨"age"⟩, true⟩ .unordered _
  obtain ⟨hpartial, hget⟩ := (hrenews [(4, some 30), (1, some 20)]).of_unique rfl (by decide)
  refine ⟨hanswers.trans (by decide +kernel), (hmirrors.get_eq 2).trans (by decide +kernel),
    hmirrors.isPartial_eq.trans (by decide +kernel), ?_, (hget 1 (some 20)).mpr (by decide)⟩
  exact Bool.eq_false_iff.mpr fun hrepeated => hpartial.mp hrepeated (by decide)

end Index

end PartitionedIndex
