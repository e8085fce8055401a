import PartitionedIndex.Layout
import PartitionedIndex.Proofs.Registry.Entries

/-! # Layouts as registries and tables

The registry of a layout is what some commands make of an empty one: they create an index in every
partition (`vacant`) and then index the entries in turn (`filled`). The owner of each key is one of the
partitions, so no entry is without an index, and the indexes are not unique, so none is refused: the
registry and the table are filled without failing, and alike (`Inhabited.filled_eq_ok`). If no
key is repeated, the filled registry knows of each key what the layout says (`lookup_filled`). -/

namespace PartitionedIndex.Layout

variable {l : Layout}

/-! ### Owners -/

/-- The layout has a partition. -/
def Inhabited (l : Layout) : Prop := 1 ≤ l.partitionCount

theorem inhabited_new (count : UInt32) (entries : List (UInt64 × Option Int64)) :
    (new count entries).Inhabited := by
  change 1 ≤ if count ≤ 1 then 1 else count
  split
  · exact UInt32.le_refl 1
  · rw [UInt32.le_iff_toNat_le] at *
    omega

theorem Inhabited.divider_eq (h : l.Inhabited) : l.divider = l.owner := by
  have hcount : max l.partitionCount 1 = l.partitionCount := by
    change (if l.partitionCount ≤ 1 then 1 else l.partitionCount) = l.partitionCount
    split
    next hle => exact UInt32.le_antisymm h hle
    next => rfl
  funext key
  unfold divider Owner.modulo Owner.atLeastOne
  rw [hcount]
  rfl

theorem Inhabited.owner_mem (h : l.Inhabited) (key : UInt64) : l.owner key ∈ l.ids := by
  have hpos : 1 ≤ l.partitionCount.toNat := UInt32.le_iff_toNat_le.mp h
  have hrest : (key % l.partitionCount.toUInt64).toNat < l.partitionCount.toNat := by
    rw [UInt64.toNat_mod, UInt32.toNat_toUInt64]
    exact Nat.mod_lt _ hpos
  have hbound := l.partitionCount.toNat_lt
  refine List.mem_map.mpr ⟨(key % l.partitionCount.toUInt64).toUInt32.toNat, ?_, ?_⟩
  · rw [List.mem_range, UInt64.toNat_toUInt32]
    omega
  · rw [UInt32.ofNat_toNat]
    rfl

/-! ### Indexes in every partition -/

/-- The registry of the layout before it is filled. -/
def vacant (l : Layout) (kind : IndexKind) : Registry UInt64 Int64 :=
  l.ids.foldl (fun r id => r.createIndex id { extractor } kind)
    { owner := l.divider, sampler := .first }

/-- The table with a new index in each of some partitions. -/
def furnish (kind : IndexKind) (ids : List PartitionId) (t : Table UInt64 Int64) :
    Table UInt64 Int64 :=
  ids.foldl (fun t id => t.putIndex id extractor (newIndex kind)) t

theorem foldl_createIndex (kind : IndexKind) (ids : List PartitionId) (r : Registry UInt64 Int64) :
    ids.foldl (fun r id => r.createIndex id { extractor } kind) r =
      { r with table := furnish kind ids r.table } := by
  induction ids generalizing r with
  | nil => rfl
  | cons id rest ih => exact ih _

theorem foldl_createIndex_eq_replay (kind : IndexKind) (ids : List PartitionId)
    (r : Registry UInt64 Int64) :
    ids.foldl (fun r id => r.createIndex id { extractor } kind) r =
      (replay Registry.perform r (ids.map fun id => .createIndex id { extractor } kind)).2 := by
  induction ids generalizing r with
  | nil => rfl
  | cons id rest ih => exact ih _

theorem index?_furnish (kind : IndexKind) (ids : List PartitionId) (t : Table UInt64 Int64)
    (p : PartitionId) (x : Extractor) :
    (furnish kind ids t).index? p x =
      if p ∈ ids ∧ x = extractor then some (newIndex kind) else t.index? p x := by
  induction ids generalizing t with
  | nil => simp [furnish]
  | cons id rest ih =>
      refine (ih _).trans ?_
      rw [Table.index?_putIndex]
      by_cases hx : x = extractor
      · by_cases hp : id = p
        · simp [hx, hp]
        · simp [hx, hp, Ne.symm hp]
      · simp [hx, Ne.symm hx]

theorem contains_furnish (kind : IndexKind) (ids : List PartitionId) (t : Table UInt64 Int64)
    (p : PartitionId) :
    (furnish kind ids t).contains p = (decide (p ∈ ids) || t.contains p) := by
  induction ids generalizing t with
  | nil => simp [furnish]
  | cons id rest ih =>
      refine (ih _).trans ?_
      rw [Table.contains_putIndex]
      by_cases hp : id = p
      · simp [hp]
      · simp [hp, Ne.symm hp]

theorem contains_vacant (l : Layout) (kind : IndexKind) (p : PartitionId) :
    (l.vacant kind).table.contains p = decide (p ∈ l.ids) := by
  rw [vacant, foldl_createIndex, contains_furnish]
  exact (congrArg _ (Table.contains_empty p)).trans (Bool.or_false _)

theorem index?_vacant (l : Layout) (kind : IndexKind) (p : PartitionId) (x : Extractor) :
    (l.vacant kind).table.index? p x =
      if p ∈ l.ids ∧ x = extractor then some (newIndex kind) else none := by
  rw [vacant, foldl_createIndex, index?_furnish]
  exact if_congr Iff.rfl rfl (Table.index?_empty p x)

theorem Inhabited.owner_vacant (h : l.Inhabited) (kind : IndexKind) :
    (l.vacant kind).owner = l.owner := by
  rw [vacant, foldl_createIndex, ← h.divider_eq]

theorem plain_vacant (l : Layout) (kind : IndexKind) : (l.vacant kind).Plain := by
  intro p x i hi
  rw [index?_vacant] at hi
  split at hi
  next =>
    cases hi
    rfl
  next => cases hi

theorem Inhabited.lookup_vacant (h : l.Inhabited) (kind : IndexKind) (key : UInt64) :
    (l.vacant kind).lookup key extractor = .ok .absent := by
  have hi : (l.vacant kind).table.index? ((l.vacant kind).owner key) extractor =
      some (newIndex kind) := by
    rw [h.owner_vacant, index?_vacant, if_pos ⟨h.owner_mem key, rfl⟩]
  rw [Registry.lookup_of_index? hi]
  exact congrArg Except.ok (Index.get_ofContents _ _ key)

/-! ### Filling -/

/-- Indexing an entry, as a write. -/
def entryWrite (entry : UInt64 × Option Int64) : EntryWrite UInt64 Int64 :=
  ⟨entry.1, extractor, some entry.2⟩

/-- The registry of the layout with its entries. -/
def filled (l : Layout) (kind : IndexKind) : Registry UInt64 Int64 :=
  (replay Registry.perform (l.vacant kind)
    ((l.entries.map entryWrite).map EntryWrite.command)).2

/-- An entry that has an index is entered in the registry and placed in its table. -/
theorem enter_place_eq_ok {r : Registry UInt64 Int64} (hplain : r.Plain) (howner : r.owner = l.owner)
    {entry : UInt64 × Option Int64} {known : Lookup Int64}
    (hknown : r.lookup entry.1 extractor = .ok known) :
    enter r entry = .ok (r.perform (entryWrite entry).command).2 ∧
      l.place r.table entry = .ok (r.perform (entryWrite entry).command).2.table := by
  obtain ⟨i, hi, _⟩ := Registry.exists_index?_of_lookup hknown
  have hu := hplain _ _ i hi
  have hinsert : i.insert entry.1 entry.2 = .ok (i.put entry.1 entry.2) := by
    unfold Index.insert
    rw [Index.conflicts, hu, Bool.false_and, if_neg Bool.false_ne_true]
  have happly : i.apply (.insert entry.1 entry.2) = (.ok .done, i.put entry.1 entry.2) := by
    rw [Index.apply, hinsert, Index.settle]
  have hperform : r.indexEntry entry.1 extractor entry.2 = (.ok .done,
      { r with table := r.table.setIndex (r.owner entry.1) extractor (i.put entry.1 entry.2) }) := by
    unfold Registry.indexEntry Registry.write Registry.withIndex
    rw [(r.index_eq_ok_iff _ _ i).mpr hi]
    exact congrArg (fun a : Except Error Outcome × Index UInt64 Int64 =>
      (a.1, { r with table := r.table.setIndex (r.owner entry.1) extractor a.2 })) happly
  have hcommand : r.perform (entryWrite entry).command = r.indexEntry entry.1 extractor entry.2 := rfl
  constructor
  · rw [enter, hcommand, hperform]
  · rw [hcommand, hperform, place, ← howner, hi]
    exact congrArg (Except.map _) hinsert

theorem foldlM_eq_ok {r : Registry UInt64 Int64} (hplain : r.Plain) (howner : r.owner = l.owner)
    (hknown : ∀ key, ∃ known, r.lookup key extractor = .ok known)
    (entries : List (UInt64 × Option Int64)) :
    entries.foldlM enter r =
        .ok (replay Registry.perform r ((entries.map entryWrite).map EntryWrite.command)).2 ∧
      entries.foldlM l.place r.table =
        .ok (replay Registry.perform r ((entries.map entryWrite).map EntryWrite.command)).2.table := by
  induction entries generalizing r with
  | nil => exact ⟨rfl, rfl⟩
  | cons entry rest ih =>
      obtain ⟨known, hentry⟩ := hknown entry.1
      obtain ⟨henter, hplace⟩ := enter_place_eq_ok hplain howner hentry
      have hshape := hplain.shape_entry (entryWrite entry)
      have hnext := ih (hshape.plain hplain) (hshape.owner_eq.trans howner) fun key => by
        obtain ⟨k, hk⟩ := hknown key
        rw [hplain.lookup_entry, hk]
        exact ⟨_, rfl⟩
      rw [List.foldlM_cons, List.foldlM_cons, henter, hplace]
      exact hnext

/-- **Layouts fill without failing**, a registry and a table alike. -/
theorem Inhabited.filled_eq_ok (h : l.Inhabited) (kind : IndexKind) :
    l.registry kind = .ok (l.filled kind) ∧ l.table kind = .ok (l.filled kind).table := by
  have hfilled := foldlM_eq_ok (l.plain_vacant kind) (h.owner_vacant kind)
    (fun key => ⟨_, h.lookup_vacant kind key⟩) l.entries
  refine ⟨hfilled.1, ?_⟩
  have htable : (l.vacant kind).table = furnish kind l.ids ∅ := by
    rw [vacant, foldl_createIndex]
  rw [htable] at hfilled
  exact hfilled.2

theorem sound_filled (l : Layout) (kind : IndexKind) : (l.filled kind).Sound := by
  have hvacant : (l.vacant kind).Sound := by
    rw [vacant, foldl_createIndex_eq_replay]
    exact Registry.sound_replay l.divider .first {} _
  exact hvacant.replay _

theorem shape_filled (l : Layout) (kind : IndexKind) : (l.vacant kind).SameShape (l.filled kind) :=
  (l.plain_vacant kind).shape_replay _

theorem exists_index?_filled (l : Layout) (kind : IndexKind) (p : PartitionId) :
    (l.filled kind).table.contains p = true ↔ ∃ i,
      (l.filled kind).table.index? p extractor = some i ∧ i.shape = (newIndex kind).shape := by
  have hshape := l.shape_filled kind
  rw [hshape.contains_eq, contains_vacant, decide_eq_true_iff]
  constructor
  · intro hp
    have hi := hshape.shape_eq p extractor
    rw [index?_vacant, if_pos ⟨hp, rfl⟩] at hi
    exact Option.map_eq_some_iff.mp hi
  · rintro ⟨i, hi, _⟩
    have hp := Table.contains_of_index? hi
    rwa [hshape.contains_eq, contains_vacant, decide_eq_true_iff] at hp

/-! ### What is known of a key -/

/-- What is known of a key after some entries, if something was known before. -/
def knownAfter (entries : List (UInt64 × Option Int64)) (key : UInt64) (before : Lookup Int64) :
    Lookup Int64 :=
  ((entries.map entryWrite).filter (·.IsTo key extractor)).foldl (fun _ w => .ofOption w.value?) before

theorem knownAfter_cons (entry : UInt64 × Option Int64) (rest : List (UInt64 × Option Int64))
    (key : UInt64) (before : Lookup Int64) :
    knownAfter (entry :: rest) key before =
      knownAfter rest key (if entry.1 = key then .indexed entry.2 else before) := by
  unfold knownAfter
  by_cases hkey : entry.1 = key
  · simp [entryWrite, EntryWrite.IsTo, hkey, Lookup.ofOption]
  · simp [entryWrite, EntryWrite.IsTo, hkey]

theorem knownAfter_of_not_mem {entries : List (UInt64 × Option Int64)} {key : UInt64}
    (hkey : ∀ value, (key, value) ∉ entries) (before : Lookup Int64) :
    knownAfter entries key before = before := by
  induction entries with
  | nil => rfl
  | cons entry rest ih =>
      have hne : entry.1 ≠ key := by
        rintro rfl
        exact hkey entry.2 List.mem_cons_self
      rw [knownAfter_cons, if_neg hne]
      exact ih fun value hmem => hkey value (List.mem_cons_of_mem entry hmem)

theorem knownAfter_of_mem {entries : List (UInt64 × Option Int64)}
    (hnodup : (entries.map Prod.fst).Nodup) {key : UInt64} {value : Option Int64}
    (hmem : (key, value) ∈ entries) (before : Lookup Int64) :
    knownAfter entries key before = .indexed value := by
  induction entries generalizing before with
  | nil => cases hmem
  | cons entry rest ih =>
      obtain ⟨hfirst, hrest⟩ := List.nodup_cons.mp hnodup
      rw [knownAfter_cons]
      rcases List.mem_cons.mp hmem with rfl | hmem
      · rw [if_pos rfl]
        exact knownAfter_of_not_mem
          (fun value hmem => hfirst (List.mem_map.mpr ⟨(key, value), hmem, rfl⟩)) _
      · exact ih hrest hmem _

/-- If no key is repeated, the values known are those of the entries. -/
theorem knownAfter_eq_indexed_iff {entries : List (UInt64 × Option Int64)}
    (hnodup : (entries.map Prod.fst).Nodup) (key : UInt64) (value : Option Int64) :
    knownAfter entries key .absent = .indexed value ↔ (key, value) ∈ entries := by
  refine ⟨fun hknown => ?_, fun hmem => knownAfter_of_mem hnodup hmem _⟩
  by_cases hkey : ∃ w, (key, w) ∈ entries
  · obtain ⟨w, hmem⟩ := hkey
    rw [knownAfter_of_mem hnodup hmem] at hknown
    cases hknown
    exact hmem
  · rw [knownAfter_of_not_mem (not_exists.mp hkey)] at hknown
    cases hknown

/-- The filled registry knows what the entries tell. -/
theorem Inhabited.lookup_filled (h : l.Inhabited) (kind : IndexKind) (key : UInt64) :
    (l.filled kind).lookup key extractor = .ok (knownAfter l.entries key .absent) := by
  rw [filled, (l.plain_vacant kind).lookup_replay, h.lookup_vacant]
  rfl

end PartitionedIndex.Layout
