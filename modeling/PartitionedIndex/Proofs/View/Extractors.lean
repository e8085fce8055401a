import PartitionedIndex.Proofs.View.Scopes

/-! # The extractors of a view

To list its extractors, a view goes through the partitions in scope, through the extractors of each in
whatever order they come, and leaves out those it has met (`View.listing`). The list has each extractor
for which some partition in scope has an index, once (`listsExtractors`). To find the index for one, only
the partition that stands for the scope is asked. So what is found is listed, and what is listed is found
if the partitions in scope have indexes for the same extractors (`findsListed`). -/

namespace PartitionedIndex

/-! ### Leaving out what has been met -/

section unseen

variable {α : Type} [Ord α] [Std.TransOrd α]

/-- The items that are not among those met before, each noted when it is met. -/
def unseen (seen : Std.ExtTreeSet α) : List α → List α
  | [] => []
  | x :: rest => if seen.contains x then unseen seen rest else x :: unseen (seen.insert x) rest

variable [Std.LawfulEqOrd α]

theorem mem_unseen_iff (seen : Std.ExtTreeSet α) (items : List α) (x : α) :
    x ∈ unseen seen items ↔ x ∈ items ∧ x ∉ seen := by
  induction items generalizing seen with
  | nil => simp [unseen]
  | cons y rest ih =>
      rw [unseen]
      split
      next hy =>
        rw [ih, List.mem_cons, or_and_right]
        refine ⟨Or.inr, ?_⟩
        rintro (⟨rfl, hx⟩ | h)
        · exact absurd hy hx
        · exact h
      next hy =>
        rw [List.mem_cons, ih, List.mem_cons, Std.ExtTreeSet.mem_insert,
          Std.LawfulEqOrd.compare_eq_iff_eq, not_or]
        constructor
        · rintro (rfl | ⟨hx, _, hseen⟩)
          · exact ⟨Or.inl rfl, hy⟩
          · exact ⟨Or.inr hx, hseen⟩
        · rintro ⟨rfl | hx, hseen⟩
          · exact Or.inl rfl
          · by_cases heq : y = x
            · exact Or.inl heq.symm
            · exact Or.inr ⟨hx, heq, hseen⟩

theorem nodup_unseen (seen : Std.ExtTreeSet α) (items : List α) : (unseen seen items).Nodup := by
  induction items generalizing seen with
  | nil => exact List.nodup_nil
  | cons y rest ih =>
      rw [unseen]
      split
      next => exact ih seen
      next =>
        refine List.nodup_cons.mpr ⟨fun hmem => ?_, ih _⟩
        exact ((mem_unseen_iff _ _ _).mp hmem).2 Std.ExtTreeSet.mem_insert_self

end unseen

variable {K E : Type} [Ord K] [Ord E]

/-! ### The partition that stands for a scope -/

theorem Table.first?_eq_some_iff (t : Table K E) (id : PartitionId) :
    t.first? = some id ↔
      t.contains id = true ∧ ∀ other, t.contains other = true → (compare id other).isLE = true :=
  Std.ExtTreeMap.minKey?_eq_some_iff_mem_and_forall

theorem PartitionSet.ofList_size_eq_one_iff (ids : List PartitionId) :
    (ofList ids).size = 1 ↔ ∃ id ∈ ids, ∀ other ∈ ids, other = id := by
  constructor
  · intro hsize
    have hsome : (ofList ids).isEmpty = false := by
      rw [Std.ExtTreeSet.isEmpty_eq_size_beq_zero, hsize]
      rfl
    obtain ⟨id, hid⟩ := KeySet.isEmpty_eq_false_iff.mp hsome
    refine ⟨id, (mem_ofList_iff ids id).mp hid, fun other hother => ?_⟩
    exact eq_of_size_eq_one hsize ((mem_ofList_iff ids other).mpr hother) hid
  · rintro ⟨id, hid, hall⟩
    exact KeySet.size_eq_one ((mem_ofList_iff ids id).mpr hid)
      fun other hother => hall other ((mem_ofList_iff ids other).mp hother)

namespace View

variable {v : View K E}

theorem covers_representative (hfair : v.sampler.Fair) {id : PartitionId}
    (hid : v.representative? = some id) : v.covers id = true := by
  rw [representative?] at hid
  rw [covers]
  cases hscope : v.scope with
  | owned =>
      rw [hscope] at hid
      exact ((v.table.first?_eq_some_iff id).mp hid).1
  | only s =>
      rw [hscope] at hid
      exact hfair.mem hid

theorem exists_representative (hfair : v.sampler.Fair) {id : PartitionId}
    (hid : v.covers id = true) : ∃ p, v.representative? = some p := by
  rw [covers] at hid
  rw [representative?]
  cases hscope : v.scope with
  | owned =>
      rw [hscope] at hid
      exact Option.isSome_iff_exists.mp (Std.ExtTreeMap.isSome_minKey?_of_mem hid)
  | only s =>
      rw [hscope] at hid
      have hne : s ≠ ∅ := Std.ExtTreeSet.ne_empty_of_mem hid
      obtain ⟨p, _, hp⟩ := hfair.exists_mem hne
      exact ⟨p, hp⟩

theorem contains_iff_exists (v : View K E) (x : Extractor) : v.contains x = true ↔
    ∃ id, v.representative? = some id ∧ ∃ i, v.table.index? id x = some i := by
  rw [contains, index?_eq, Option.isSome_map, representativeIndex?]
  cases v.representative? with
  | none => simp
  | some id => simp [Option.isSome_iff_exists]

/-! ### The list -/

/-- The extractors for which a partition has an index. -/
def extractorsAt (v : View K E) (id : PartitionId) : List Extractor :=
  ((v.table.partition? id).map (·.keys)).getD []

/-- The extractors of each partition come in some order. -/
def Enumerates (v : View K E) (enumerate : PartitionId → List Extractor) : Prop :=
  ∀ id, (enumerate id).Perm (v.extractorsAt id)

/-- The extractors as a view goes through them, without those it has met. -/
def listing (v : View K E) (enumerate : PartitionId → List Extractor) : List Extractor :=
  unseen ∅ (v.partitions.flatMap enumerate)

theorem mem_extractorsAt_iff (id : PartitionId) (x : Extractor) :
    x ∈ v.extractorsAt id ↔ ∃ i, v.table.index? id x = some i := by
  rw [extractorsAt, Table.index?]
  cases v.table.partition? id with
  | none => simp
  | some indexes =>
      rw [Option.map_some, Option.getD_some, Option.bind_some, ← Option.isSome_iff_exists,
        ← Std.ExtTreeMap.contains_eq_isSome_getElem?]
      exact Std.ExtTreeMap.mem_keys

theorem exists_indexAt?_iff (v : View K E) (x : Extractor) :
    (∃ id i, v.indexAt? id x = some i) ↔ ∃ id ∈ v.partitions, x ∈ v.extractorsAt id := by
  simp only [indexAt?_eq_some_iff, mem_partitions_iff, mem_extractorsAt_iff, exists_and_left]

theorem mem_extractors_iff (v : View K E) (x : Extractor) :
    x ∈ v.extractors ↔ ∃ id i, v.indexAt? id x = some i := by
  rw [exists_indexAt?_iff, extractors, Std.ExtTreeSet.mem_ofList, List.contains_iff_mem,
    List.mem_flatMap]
  rfl

section enumerate

variable {enumerate : PartitionId → List Extractor} (h : v.Enumerates enumerate)
include h

theorem mem_listing_iff (x : Extractor) :
    x ∈ v.listing enumerate ↔ ∃ id i, v.indexAt? id x = some i := by
  rw [exists_indexAt?_iff, listing, mem_unseen_iff, List.mem_flatMap,
    and_iff_left Std.ExtTreeSet.not_mem_empty]
  exact exists_congr fun id => and_congr_right fun _ => (h id).mem_iff

/-- In whatever order they are gone through, the extractors are the same. -/
theorem listing_perm : (v.listing enumerate).Perm v.extractors.toList := by
  have hnodup : (v.listing enumerate).Nodup := nodup_unseen _ _
  rw [List.perm_ext_iff_of_nodup hnodup (KeySet.nodup_toList v.extractors)]
  intro x
  rw [Std.ExtTreeSet.mem_toList, mem_extractors_iff, mem_listing_iff h]

end enumerate

/-- The list has each extractor for which some partition in scope has an index, once. -/
structure ListsExtractors (v : View K E) (keys : List Extractor) : Prop where
  nodup : keys.Nodup
  mem_iff : ∀ x, x ∈ keys ↔ ∃ id i, v.indexAt? id x = some i
  perm : keys.Perm v.extractors.toList
  size_eq : v.size = keys.length
  isEmpty_iff : v.isEmpty = true ↔ keys = []

/-- What is found is listed. It is found if the partition that stands for the scope has it: the lowest of
all, or the one that is picked from those named. It is a partition's own index if one is named, however
often; else it is a composite. -/
structure FindsListed (v : View K E) (keys : List Extractor) : Prop where
  mem_of_index? : ∀ x a, v.index? x = some a → x ∈ keys
  contains_iff : ∀ x, v.contains x = true ↔ ∃ a, v.index? x = some a
  contains_of_owned : v.scope = .owned → ∀ x, v.contains x = true ↔
    ∃ id, (v.table.contains id = true ∧
        ∀ other, v.table.contains other = true → (compare id other).isLE = true) ∧
      ∃ i, v.table.index? id x = some i
  contains_of_only : ∀ s, v.scope = .only s → ∀ x, v.contains x = true ↔
    ∃ id ∈ s, v.sampler s = some id ∧ ∃ i, v.table.index? id x = some i
  own_iff : ∀ x i, v.index? x = some (.own i) ↔
    ∃ s, v.scope = .only s ∧ s.size = 1 ∧ ∃ id ∈ s, v.table.index? id x = some i
  own_of_ofList : ∀ ids, v.scope = .only (.ofList ids) → ∀ x i, v.index? x = some (.own i) ↔
    ∃ id ∈ ids, (∀ other ∈ ids, other = id) ∧ v.table.index? id x = some i
  contains_of_alike : (∃ id, v.covers id = true) →
    (∀ p q x, v.covers p = true → v.covers q = true →
      (v.table.index? p x).isSome = (v.table.index? q x).isSome) →
    ∀ x, v.contains x = true ↔ x ∈ keys

theorem listsExtractors {enumerate : PartitionId → List Extractor} (h : v.Enumerates enumerate) :
    v.ListsExtractors (v.listing enumerate) := by
  have hperm := listing_perm h
  refine ⟨nodup_unseen _ _, mem_listing_iff h, hperm, ?_, ?_⟩
  · rw [size, ← Std.ExtTreeSet.length_toList, hperm.length_eq]
  · rw [isEmpty, ← Std.ExtTreeSet.isEmpty_toList, ← hperm.isEmpty_eq, List.isEmpty_iff]

/-- A partition's own index is served just if the scope names this partition only; a fair sampler
picks it. -/
theorem index?_eq_own_iff (hfair : v.sampler.Fair) (x : Extractor) (i : Index K E) :
    v.index? x = some (.own i) ↔
      ∃ s, v.scope = .only s ∧ s.size = 1 ∧ ∃ id ∈ s, v.table.index? id x = some i := by
  rw [index?_eq, Option.map_eq_some_iff]
  cases hscope : v.scope with
  | owned =>
      constructor
      · rintro ⟨j, _, hj⟩
        cases hj
      · rintro ⟨s, hs, _⟩
        cases hs
  | only s =>
      have hsingle : (Scope.only s).isSingle = (s.size == 1) := rfl
      rw [hsingle, representativeIndex?_of_only hscope]
      constructor
      · rintro ⟨j, hj, hi⟩
        obtain ⟨id, hid, hj⟩ := Option.bind_eq_some_iff.mp hj
        split at hi
        next hone =>
          cases hi
          exact ⟨s, rfl, beq_iff_eq.mp hone, id, hfair.mem hid, hj⟩
        next => cases hi
      · rintro ⟨_, ⟨⟩, hone, id, hid, hi⟩
        obtain ⟨p, hp, hpick⟩ := hfair.exists_mem (Std.ExtTreeSet.ne_empty_of_mem hid)
        obtain rfl := PartitionSet.eq_of_size_eq_one hone hp hid
        rw [hpick, Option.bind_some, hone]
        exact ⟨i, hi, rfl⟩

theorem index?_eq_own_iff_of_ofList (hfair : v.sampler.Fair) {ids : List PartitionId}
    (hscope : v.scope = .only (.ofList ids)) (x : Extractor) (i : Index K E) :
    v.index? x = some (.own i) ↔
      ∃ id ∈ ids, (∀ other ∈ ids, other = id) ∧ v.table.index? id x = some i := by
  rw [index?_eq_own_iff hfair, hscope]
  constructor
  · rintro ⟨_, ⟨⟩, hone, p, hp, hi⟩
    obtain ⟨id, hid, hall⟩ := (PartitionSet.ofList_size_eq_one_iff ids).mp hone
    obtain rfl := hall p ((PartitionSet.mem_ofList_iff ids p).mp hp)
    exact ⟨p, hid, hall, hi⟩
  · rintro ⟨id, hid, hall, hi⟩
    exact ⟨_, rfl, (PartitionSet.ofList_size_eq_one_iff ids).mpr ⟨id, hid, hall⟩, id,
      (PartitionSet.mem_ofList_iff ids id).mpr hid, hi⟩

theorem findsListed (hfair : v.sampler.Fair) {keys : List Extractor} (h : v.ListsExtractors keys) :
    v.FindsListed keys := by
  have hcontains (x : Extractor) : v.contains x = true ↔ ∃ a, v.index? x = some a :=
    Option.isSome_iff_exists
  have hmem (x : Extractor) (hx : v.contains x = true) : x ∈ keys := by
    obtain ⟨id, hid, i, hi⟩ := (v.contains_iff_exists x).mp hx
    refine (h.mem_iff x).mpr ⟨id, i, ?_⟩
    exact (v.indexAt?_eq_some_iff id x i).mpr ⟨covers_representative hfair hid, hi⟩
  refine ⟨fun x a ha => hmem x ((hcontains x).mpr ⟨a, ha⟩), hcontains, ?_, ?_,
    index?_eq_own_iff hfair, ?_, ?_⟩
  · intro hscope x
    rw [contains_iff_exists, representative?, hscope]
    simp only [Table.first?_eq_some_iff]
  · intro s hscope x
    rw [contains_iff_exists, representative?, hscope]
    constructor
    · rintro ⟨id, hid, hi⟩
      exact ⟨id, hfair.mem hid, hid, hi⟩
    · rintro ⟨id, _, hid, hi⟩
      exact ⟨id, hid, hi⟩
  · exact fun ids => index?_eq_own_iff_of_ofList hfair
  · rintro ⟨id, hid⟩ halike x
    refine ⟨hmem x, fun hx => ?_⟩
    obtain ⟨p, i, hi⟩ := (h.mem_iff x).mp hx
    obtain ⟨hp, hi⟩ := (v.indexAt?_eq_some_iff p x i).mp hi
    obtain ⟨r, hr⟩ := exists_representative hfair hid
    have hsome := halike r p x (covers_representative hfair hr) hp
    rw [hi, Option.isSome_some, Option.isSome_iff_exists] at hsome
    exact (v.contains_iff_exists x).mpr ⟨r, hr, hsome⟩

/-- **The extractors listed are those for which there are indexes in scope, and a lookup finds only
these.** In whatever order the extractors of each partition come, the list has each extractor that some
partition in scope indexes, once; a lookup with a fair sampler asks one of these partitions. -/
theorem extractors_listed_and_found (v : View K E) (hfair : v.sampler.Fair)
    (enumerate : PartitionId → List Extractor) (h : v.Enumerates enumerate) :
    v.ListsExtractors (v.listing enumerate) ∧ v.FindsListed (v.listing enumerate) :=
  ⟨listsExtractors h, findsListed hfair (listsExtractors h)⟩

theorem enumerates_reverse (v : View K E) : v.Enumerates fun id => (v.extractorsAt id).reverse :=
  fun _ => List.reverse_perm _

end View

/-- The extractors of even keys. -/
def Mixed.evenKeys : List Extractor :=
  evenView.listing fun id => (evenView.extractorsAt id).reverse

/-- The extractors of a partition come in descending order here, and a partition that is named twice
is a single one. -/
theorem View.extractors_listed_and_found_mixed :
    Mixed.evenView.sampler.Fair ∧ Mixed.evenView.ListsExtractors Mixed.evenKeys ∧
      Mixed.evenView.FindsListed Mixed.evenKeys ∧ ⟨"age"⟩ ∈ Mixed.evenKeys ∧
      (Mixed.view.overSet (.ofList [⟨0⟩, ⟨0⟩])).index? ⟨"age"⟩ = some (.own Mixed.evens) := by
  obtain ⟨hlists, hfinds⟩ := extractors_listed_and_found Mixed.evenView Sampler.first_fair _
    (enumerates_reverse _)
  obtain ⟨_, htwice⟩ := extractors_listed_and_found (Mixed.view.overSet (.ofList [⟨0⟩, ⟨0⟩]))
    Sampler.first_fair _ (enumerates_reverse _)
  refine ⟨Sampler.first_fair, hlists, hfinds, ?_, ?_⟩
  · exact hfinds.mem_of_index? _ _ Mixed.index?_evenView
  · refine (htwice.own_of_ofList [⟨0⟩, ⟨0⟩] rfl _ _).mpr ⟨⟨0⟩, List.mem_cons_self, ?_, ?_⟩
    · simp
    · exact Mixed.index?_view.mpr (Or.inl ⟨rfl, rfl⟩)

end PartitionedIndex
