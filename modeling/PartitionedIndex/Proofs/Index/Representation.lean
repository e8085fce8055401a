import Mathlib.Data.Set.Card
import PartitionedIndex.Proofs.Comparator.Named
import PartitionedIndex.Proofs.Index.Coherence

/-! # What ordered contents represent

The entries of an ordered index after any run of writes: one for each class of the values that keys
have, ascending, each with the keys of its class and with at least one. Everything that is read off
the entries without looking at a key follows: their number is the number of classes, the sizes of
their key sets add up to the number of keys, and the first and the last of them compare equal to the
least and the greatest value. Main statement: `run_ordered_represents`. -/

namespace PartitionedIndex

/-- Ascending keys are in as many classes as there are items. -/
theorem Ascending.ncard_classes {V α : Type} {order : V → V → Ordering} [Std.TransCmp order]
    {key : α → V} {items : List α} (h : Ascending order key items) (classes : Setoid V)
    (hc : ∀ v w, classes.r v w ↔ order v w = .eq) :
    (Quotient.mk classes '' {v | ∃ a ∈ items, order (key a) v = .eq}).ncard = items.length := by
  classical
  have himage : Quotient.mk classes '' {v | ∃ a ∈ items, order (key a) v = .eq} =
      ((items.map fun a => Quotient.mk classes (key a)).toFinset : Set (Quotient classes)) := by
    ext q
    simp only [Set.mem_image, Set.mem_ofPred_eq, List.coe_toFinset, List.mem_map]
    constructor
    · rintro ⟨v, ⟨a, ha, hav⟩, rfl⟩
      exact ⟨a, ha, Quotient.sound ((hc _ _).mpr hav)⟩
    · rintro ⟨a, ha, rfl⟩
      exact ⟨key a, ⟨a, ha, Std.ReflCmp.compare_self⟩, rfl⟩
  have hnodup : (items.map fun a => Quotient.mk classes (key a)).Nodup := by
    rw [List.Nodup, List.pairwise_map]
    refine List.Pairwise.imp ?_ h
    intro a b hab heq
    have := (hc _ _).mp (Quotient.exact heq)
    rw [hab] at this
    cases this
  rw [himage, Set.ncard_coe_finset, List.toFinset_card_of_nodup hnodup, List.length_map]

namespace Index

variable {K E : Type} [Ord K] [Ord E] [Std.TransOrd K] [Std.TransOrd E]

namespace Coherent

variable {i : Index K E}

theorem values_classes (h : i.Coherent) (classes : Setoid (Option E))
    (hc : ∀ v w, classes.r v w ↔ i.contents.order v w = .eq) :
    Quotient.mk classes '' {v | ∃ key, i.get key = .indexed v} =
      Quotient.mk classes '' {v | ∃ e ∈ i.contents.entries, i.contents.order e.1 v = .eq} := by
  have := h.wellFormed.transCmp
  ext q
  simp only [Set.mem_image, Set.mem_ofPred_eq]
  constructor
  · rintro ⟨v, ⟨key, hv⟩, rfl⟩
    obtain ⟨e, he, heq, _⟩ := h.exists_entry hv
    exact ⟨v, ⟨e, he, heq⟩, rfl⟩
  · rintro ⟨v, ⟨e, he, heq⟩, rfl⟩
    obtain ⟨key, _, w, hw, hwe⟩ := h.exists_key he
    refine ⟨w, ⟨key, hw⟩, Quotient.sound ((hc w v).mpr ?_)⟩
    exact Std.TransCmp.eq_trans hwe heq

theorem entries_eq_nil_iff (h : i.Coherent) :
    i.contents.entries = [] ↔ ∀ key, i.get key = .absent := by
  rw [List.eq_nil_iff_forall_not_mem]
  constructor
  · intro hnil key
    cases hg : i.get key with
    | absent => rfl
    | indexed w =>
        obtain ⟨e, he, _⟩ := h.exists_entry hg
        exact absurd he (hnil e)
  · intro habs e he
    obtain ⟨key, _, w, hw, _⟩ := h.exists_key he
    rw [habs key] at hw
    cases hw

theorem least_of_entry (h : i.Coherent) {e : Option E × KeySet K} (he : e ∈ i.contents.entries)
    (hle : ∀ d ∈ i.contents.entries, (i.contents.order e.1 d.1).isLE) :
    ∃ key w, i.get key = .indexed w ∧ i.contents.order e.1 w = .eq ∧
      ∀ k u, i.get k = .indexed u → (i.contents.order w u).isLE := by
  have := h.wellFormed.transCmp
  obtain ⟨key, _, w, hw, hwe⟩ := h.exists_key he
  refine ⟨key, w, hw, Std.OrientedCmp.eq_symm hwe, ?_⟩
  intro k u hu
  obtain ⟨d, hd, hdu, _⟩ := h.exists_entry hu
  rw [Std.TransCmp.congr_left hwe, ← Std.TransCmp.congr_right hdu]
  exact hle d hd

theorem greatest_of_entry (h : i.Coherent) {e : Option E × KeySet K} (he : e ∈ i.contents.entries)
    (hge : ∀ d ∈ i.contents.entries, (i.contents.order d.1 e.1).isLE) :
    ∃ key w, i.get key = .indexed w ∧ i.contents.order e.1 w = .eq ∧
      ∀ k u, i.get k = .indexed u → (i.contents.order u w).isLE := by
  have := h.wellFormed.transCmp
  obtain ⟨key, _, w, hw, hwe⟩ := h.exists_key he
  refine ⟨key, w, hw, Std.OrientedCmp.eq_symm hwe, ?_⟩
  intro k u hu
  obtain ⟨d, hd, hdu, _⟩ := h.exists_entry hu
  rw [Std.TransCmp.congr_right hwe, ← Std.TransCmp.congr_left hdu]
  exact hge d hd

theorem least_of_head (h : i.Coherent) {e : Option E × KeySet K}
    (he : i.contents.entries.head? = some e) :
    ∃ key w, i.get key = .indexed w ∧ i.contents.order e.1 w = .eq ∧
      ∀ k u, i.get k = .indexed u → (i.contents.order w u).isLE := by
  have := h.wellFormed.transCmp
  have hasc := h.wellFormed.ascending
  obtain ⟨rest, hrest⟩ := List.head?_eq_some_iff.mp he
  apply h.least_of_entry (by rw [hrest]; exact List.mem_cons_self)
  intro d hd
  rw [hrest] at hd hasc
  rcases List.mem_cons.mp hd with rfl | hd
  · exact Std.ReflCmp.isLE_rfl
  · rw [(Ascending.cons_iff.mp hasc).1 d hd]
    rfl

theorem greatest_of_getLast (h : i.Coherent) {e : Option E × KeySet K}
    (he : i.contents.entries.getLast? = some e) :
    ∃ key w, i.get key = .indexed w ∧ i.contents.order e.1 w = .eq ∧
      ∀ k u, i.get k = .indexed u → (i.contents.order u w).isLE := by
  have := h.wellFormed.transCmp
  have hasc := h.wellFormed.ascending
  obtain ⟨front, hfront⟩ := List.getLast?_eq_some_iff.mp he
  apply h.greatest_of_entry (by rw [hfront]; exact List.mem_append_right _ List.mem_cons_self)
  intro d hd
  rw [hfront] at hd hasc
  rcases List.mem_append.mp hd with hd | hd
  · rw [(Ascending.append_iff.mp hasc).2.2 d hd e List.mem_cons_self]
    rfl
  · rw [List.mem_singleton.mp hd]
    exact Std.ReflCmp.isLE_rfl

variable [Std.LawfulEqOrd K]

/-- The entries list every key once. -/
theorem keys_perm (h : i.Coherent) :
    (i.contents.entries.flatMap fun e => e.2.toList).Perm i.forward.keys := by
  have hnodup : (i.contents.entries.flatMap fun e => e.2.toList).Nodup := by
    rw [List.nodup_flatMap]
    refine ⟨fun e _ => KeySet.nodup_toList e.2, h.disjoint.imp ?_⟩
    · intro a b hab key hka hkb
      exact hab key (Std.ExtTreeSet.mem_toList.mp hka) (Std.ExtTreeSet.mem_toList.mp hkb)
  rw [List.perm_ext_iff_of_nodup hnodup Std.ExtTreeMap.nodup_keys]
  intro key
  rw [List.mem_flatMap, Std.ExtTreeMap.mem_keys, Std.ExtTreeMap.mem_iff_isSome_getElem?]
  constructor
  · rintro ⟨e, he, hk⟩
    obtain ⟨w, hw, _⟩ := h.hasValue_of_mem he (Std.ExtTreeSet.mem_toList.mp hk)
    exact Option.isSome_iff_exists.mpr ⟨w, (i.get_eq_indexed_iff key w).mp hw⟩
  · intro hk
    obtain ⟨w, hw⟩ := Option.isSome_iff_exists.mp hk
    obtain ⟨e, he, _, hke⟩ := h.exists_entry ((i.get_eq_indexed_iff key w).mpr hw)
    exact ⟨e, he, Std.ExtTreeSet.mem_toList.mpr hke⟩

/-- The sizes of the key sets add up to the number of keys. -/
theorem sum_sizes (h : i.Coherent) :
    (i.contents.entries.map fun e => e.2.size).sum = i.keyCount := by
  have hlen := h.keys_perm.length_eq
  rw [List.length_flatMap, Std.ExtTreeMap.length_keys] at hlen
  rw [keyCount, ← hlen]
  congr 1
  apply List.map_congr_left
  intro e _
  exact Std.ExtTreeSet.length_toList.symm

end Coherent

/-- The entries `s` represent the keys of the index `i` and their values under the comparator `c`.
Counted with `classes`, `size_eq` speaks of the classes of the values that keys have. -/
structure Represents (c : SafeComparator E) (classes : Setoid (Option E)) (s : Sorted K E)
    (i : Index K E) : Prop where
  ascending : s.entries.toList.Pairwise fun a b => c.order a.1 b.1 = .lt
  null_first : ∀ (n : Nat) (hn : n < s.entries.size), s.entries[n].1 = none → n = 0
  inhabited : ∀ e ∈ s.entries, ∃ key, key ∈ e.2
  disjoint : s.entries.toList.Pairwise fun a b => ∀ key, key ∈ a.2 → key ∉ b.2
  get_iff : ∀ key value, (∃ w, i.get key = .indexed w ∧ c.order w value = .eq) ↔
    ∃ keys, i.contents.get? value = some keys ∧ key ∈ keys
  size_eq : i.contents.size = (Quotient.mk classes '' {v | ∃ key, i.get key = .indexed v}).ncard
  sizes_eq : (s.entries.toList.map fun e => e.2.size).sum = i.keyCount
  isEmpty_iff : i.contents.isEmpty = true ↔ i.keyCount = 0
  least_none : s.least? = none ↔ ∀ key, i.get key = .absent
  least_some : ∀ v, s.least? = some v → ∃ key w, i.get key = .indexed w ∧ c.order v w = .eq ∧
    ∀ k u, i.get k = .indexed u → (c.order w u).isLE
  greatest_none : s.greatest? = none ↔ ∀ key, i.get key = .absent
  greatest_some : ∀ v, s.greatest? = some v → ∃ key w, i.get key = .indexed w ∧
    c.order v w = .eq ∧ ∀ k u, i.get k = .indexed u → (c.order u w).isLE

/-- The entries of a coherent ordered index represent its keys. -/
theorem Coherent.represents [Std.LawfulEqOrd K] {i : Index K E} (h : i.Coherent)
    {c : SafeComparator E} (hc : c.Lawful) {s : Sorted K E} (hs : i.contents = .ordered s)
    (ho : s.order = c.order) : Represents c hc.classes s i := by
  have := hc.transCmp
  have horder : i.contents.order = c.order := by rw [hs]; exact ho
  have hentries : i.contents.entries = s.entries.toList := by rw [hs]; rfl
  have hasc : Ascending c.order Prod.fst s.entries.toList := by
    have := h.wellFormed.ascending
    rw [horder, hentries] at this
    exact this
  have hsize : i.contents.size = s.entries.toList.length := by rw [hs]; exact Array.length_toList.symm
  have hleast : s.least? = s.entries.toList.head?.map Prod.fst := List.head?_map
  have hgreatest : s.greatest? = s.entries.toList.getLast?.map Prod.fst := List.getLast?_map
  have hnil := h.entries_eq_nil_iff
  rw [hentries] at hnil
  refine ⟨hasc, ?_, ?_, hentries ▸ h.disjoint, ?_, ?_, hentries ▸ h.sum_sizes, ?_, ?_, ?_, ?_, ?_⟩
  · intro n hn hnull
    rcases Nat.eq_zero_or_pos n with rfl | hpos
    · rfl
    · have h0 : 0 < s.entries.toList.length := Nat.lt_trans hpos hn
      have hlt := List.pairwise_iff_getElem.mp hasc 0 n h0 hn hpos
      rw [Array.getElem_toList, Array.getElem_toList, hnull] at hlt
      exact absurd hlt (c.order_none_ne_lt _)
  · intro e he
    obtain ⟨key, hk, _⟩ := h.exists_key (hentries ▸ Array.mem_toList_iff.mpr he)
    exact ⟨key, hk⟩
  · intro key value
    rw [← horder]
    exact (h.lists_iff value key).symm
  · rw [h.values_classes hc.classes fun v w => by rw [horder]; rfl, horder, hentries, hsize]
    exact (hasc.ncard_classes hc.classes fun v w => Iff.rfl).symm
  · rw [Contents.isEmpty, beq_iff_eq, hsize, List.length_eq_zero_iff, hnil, keyCount,
      ← Std.ExtTreeMap.eq_empty_iff_size_eq_zero, Std.ExtTreeMap.eq_empty_iff_forall_not_mem]
    refine forall_congr' fun key => ?_
    rw [get, Std.ExtTreeMap.mem_iff_isSome_getElem?]
    cases i.forward[key]? <;> simp [Lookup.ofOption]
  · rw [hleast, Option.map_eq_none_iff, List.head?_eq_none_iff, hnil]
  · intro v hv
    rw [hleast, Option.map_eq_some_iff] at hv
    obtain ⟨e, he, rfl⟩ := hv
    rw [← horder]
    exact h.least_of_head (hentries ▸ he)
  · rw [hgreatest, Option.map_eq_none_iff, List.getLast?_eq_none_iff, hnil]
  · intro v hv
    rw [hgreatest, Option.map_eq_some_iff] at hv
    obtain ⟨e, he, rfl⟩ := hv
    rw [← horder]
    exact h.greatest_of_getLast (hentries ▸ he)

/-- **What ordered contents represent.** Whatever writes are made to an empty ordered index, refused
ones among them, its contents are entries with its comparator, and these represent its keys. -/
theorem run_ordered_represents [Std.LawfulEqOrd K] (spec : IndexSpec) (c : Option (Comparator E))
    (hc : (SafeComparator.ensure c).Lawful) (writes : List (Write K E)) :
    ∃ s, ((Index.ordered spec c).run writes).contents = .ordered s ∧ s.declared = c ∧
      Represents (SafeComparator.ensure c) hc.classes s ((Index.ordered spec c).run writes) := by
  have hcoherent := (Coherent.ordered (K := K) spec hc).run writes
  obtain ⟨s, hs, hd⟩ := exists_run_ordered spec c writes
  refine ⟨s, hs, hd, hcoherent.represents hc hs ?_⟩
  rw [Sorted.order, hd]

/-- The values go by their tens and the index is unique, so seventeen is refused while twelve is
there. -/
theorem run_ordered_represents_tens :
    (SafeComparator.ensure (some Comparator.tens)).Lawful ∧
      ∃ s, ((Index.ordered ⟨⟨"age"⟩, true⟩ (some .tens)).run
          [.insert (1 : UInt64) (some 12), .insert 2 (some 17), .insert 3 none, .update 1 (some 25),
            .insert 2 (some 17), .markUnindexable 3, .delete 4]).contents = .ordered s ∧
        s.declared = some .tens ∧
        Represents (SafeComparator.ensure (some Comparator.tens)) Comparator.tens_lawful.classes s
          ((Index.ordered ⟨⟨"age"⟩, true⟩ (some .tens)).run
            [.insert (1 : UInt64) (some 12), .insert 2 (some 17), .insert 3 none,
              .update 1 (some 25), .insert 2 (some 17), .markUnindexable 3, .delete 4]) :=
  ⟨Comparator.tens_lawful, run_ordered_represents ⟨⟨"age"⟩, true⟩ (some .tens)
    Comparator.tens_lawful _⟩

end Index

end PartitionedIndex
