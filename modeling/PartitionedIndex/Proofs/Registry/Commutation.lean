import Mathlib.Data.Fin.VecNotation
import Mathlib.Data.List.Sort
import PartitionedIndex.Proofs.Index.Interchange
import PartitionedIndex.Proofs.Registry.Entries

/-! # Independent writes commute

Writes of entries may be carried out in any order, as long as those to one entry keep theirs
(`Reordering`): up to corresponding points, the writes to an entry are then the same list
(`Reordering.filter_take`). In a registry without unique indexes a write answers by the writes to its
own entry, so it answers the same in both orders. All entries end up the same, and a sound registry is
settled by its shape and its entries (`Sound.eq_of_lookup`), however they got there: the sorted entries,
the keys under each value and the counts leave no trace of the order.
Main statement: `independent_writes_commute`. -/

namespace PartitionedIndex

variable {K E : Type}

/-! ### Reorderings -/

/-- Two lists of the same writes, in which the writes to an entry are in the same order. -/
structure Reordering (ws ws' : List (EntryWrite K E)) where
  /-- Where each write of the first list is in the second. -/
  position : Fin ws.length ≃ Fin ws'.length
  same : ∀ n, ws'.get (position n) = ws.get n
  keeps_order : ∀ m n, (ws.get m).IsTo (ws.get n).key (ws.get n).extractor → m < n →
    position m < position n

theorem take_finRange (k n : Nat) :
    (List.finRange k).take n = (List.finRange k).filter (·.val < n) := by
  have hsorted := (List.sortedLT_finRange k).pairwise
  refine hsorted.take.eq_of_mem_iff (hsorted.filter _) fun m => ?_
  simp only [List.mem_take_iff_getElem, List.getElem_finRange, List.length_finRange, Nat.lt_min,
    List.mem_filter, List.mem_finRange, decide_eq_true_eq, true_and]
  constructor
  · rintro ⟨i, hi, rfl⟩
    exact hi.1
  · exact fun hm => ⟨m, ⟨hm, m.isLt⟩, rfl⟩

theorem filter_take_eq_map {α : Type} (l : List α) (n : Nat) (p : α → Bool) :
    (l.take n).filter p =
      ((List.finRange l.length).filter fun m => p (l.get m) && decide (m.val < n)).map l.get :=
  calc (l.take n).filter p
      = (((List.finRange l.length).map l.get).take n).filter p :=
        congrArg (fun l => (List.take n l).filter p) (List.map_getElem_finRange l).symm
    _ = (((List.finRange l.length).filter (·.val < n)).map l.get).filter p := by
        rw [← List.map_take, take_finRange]
    _ = _ := by
        rw [List.filter_map, List.filter_filter]
        rfl

namespace Reordering

variable {ws ws' : List (EntryWrite K E)} (h : Reordering ws ws')
include h

theorem lt_iff {m n : Fin ws.length} (hto : (ws.get m).IsTo (ws.get n).key (ws.get n).extractor) :
    h.position m < h.position n ↔ m < n := by
  refine ⟨fun hlt => ?_, h.keeps_order m n hto⟩
  rcases lt_trichotomy m n with hmn | rfl | hnm
  · exact hmn
  · exact absurd hlt (lt_irrefl _)
  · exact absurd hlt (lt_asymm (h.keeps_order n m ⟨hto.1.symm, hto.2.symm⟩ hnm))

variable [DecidableEq K]

/-- Up to points between the same writes to an entry, the writes to the entry are the same. -/
theorem filter_take (key : K) (x : Extractor) {a b : Nat}
    (hab : ∀ m, (ws.get m).IsTo key x → (m.val < a ↔ (h.position m).val < b)) :
    (ws.take a).filter (·.IsTo key x) = (ws'.take b).filter (·.IsTo key x) := by
  let chosen := (List.finRange ws.length).filter fun m =>
    (ws.get m).IsTo key x && decide (m.val < a)
  have hmem : ∀ m, m ∈ chosen ↔ (ws.get m).IsTo key x ∧ m.val < a := by
    intro m
    simp [chosen]
  have hpositions : chosen.map h.position =
      (List.finRange ws'.length).filter fun m =>
        (ws'.get m).IsTo key x && decide (m.val < b) := by
    have hsorted : (chosen.map h.position).Pairwise (· < ·) := by
      refine List.pairwise_map.mpr
        (((List.sortedLT_finRange _).pairwise.filter _).imp_of_mem fun {m n} hm hn hlt => ?_)
      have hm := ((hmem m).mp hm).1
      have hn := ((hmem n).mp hn).1
      exact h.keeps_order m n ⟨hm.1.trans hn.1.symm, hm.2.trans hn.2.symm⟩ hlt
    refine hsorted.eq_of_mem_iff ((List.sortedLT_finRange _).pairwise.filter _) fun m' => ?_
    obtain ⟨m, rfl⟩ := h.position.surjective m'
    rw [List.mem_map_of_injective h.position.injective, hmem]
    simp only [List.mem_filter, List.mem_finRange, true_and, Bool.and_eq_true, decide_eq_true_eq,
      h.same]
    exact and_congr_right fun hto => hab m hto
  rw [filter_take_eq_map, filter_take_eq_map, ← hpositions, List.map_map]
  exact List.map_congr_left fun m _ => (h.same m).symm

end Reordering

/-! ### Registries with the same entries -/

variable [Ord K] [Ord E] [Std.TransOrd K] [Std.TransOrd E] [Std.LawfulEqOrd K]

namespace Registry

omit [Std.LawfulEqOrd K] in
theorem Sound.get_of_owner_ne {r : Registry K E} (h : r.Sound) {id : PartitionId} {x : Extractor}
    {i : Index K E} (hi : r.table.index? id x = some i) {key : K} (hkey : r.owner key ≠ id) :
    i.get key = .absent := by
  cases hget : i.get key with
  | absent => rfl
  | indexed v => exact absurd ((h id x i hi).owned key v hget) hkey

/-- Sound registries of one shape in which the same is known of each key are the same. -/
theorem Sound.eq_of_lookup [Std.LawfulEqOrd E] {r s : Registry K E} (hr : r.Sound) (hs : s.Sound)
    (hshape : r.SameShape s) (hlookup : ∀ key x, r.lookup key x = s.lookup key x) : r = s := by
  have hindexes : ∀ id x i j, r.table.index? id x = some i → s.table.index? id x = some j →
      i = j := by
    intro id x i j hi hj
    have heq := hshape.shape_eq id x
    rw [hi, hj, Option.map_some, Option.map_some, Option.some.injEq] at heq
    have hordering : i.contents.ordering = j.contents.ordering := (congrArg (·.2.1) heq).symm
    have hget : ∀ key, i.get key = j.get key := by
      intro key
      by_cases howner : r.owner key = id
      · subst howner
        rw [← hshape.owner_eq] at hj
        have hsame := hlookup key x
        rw [lookup_of_index? hi, lookup_of_index? hj] at hsame
        exact Except.ok.inj hsame
      · rw [hr.get_of_owner_ne hi howner, hs.get_of_owner_ne hj (hshape.owner_eq ▸ howner)]
    have htwins : i.Twins j :=
      { left := (hr id x i hi).coherent
        right := (hs id x j hj).coherent
        spec_eq := (congrArg (·.1) heq).symm
        get_eq := hget
        isPartial_eq := (congrArg (·.2.2) heq).symm
        order_iff := fun v w => by rw [Contents.order_congr hordering] }
    refine htwins.eq hordering fun v w => ?_
    rw [(hr id x i hi).order_eq]
    exact Std.LawfulEqOrd.eq_of_compare
  have htable : r.table = s.table := by
    refine Table.ext_index? (fun p => (hshape.contains_eq p).symm) fun p x => ?_
    have heq := hshape.shape_eq p x
    cases hi : r.table.index? p x with
    | none =>
        rw [hi] at heq
        exact (Option.map_eq_none_iff.mp heq).symm
    | some i =>
        rw [hi] at heq
        obtain ⟨j, hj, _⟩ := Option.map_eq_some_iff.mp heq
        rw [hj, hindexes p x i j hi hj]
  cases r
  cases s
  rw [Registry.mk.injEq]
  exact ⟨htable, hshape.owner_eq.symm, hshape.sampler_eq.symm, hshape.settings_eq.symm⟩

/-- **Independent writes commute.** After any commands that create no unique index, writes of entries
may be reordered, as long as those to one entry keep their order: each write has the same answer, and
the registry they leave is the same, so nothing that a view of any scope answers depends on the
order. -/
theorem independent_writes_commute [Std.LawfulEqOrd E] (owner : Owner K) (sampler : Sampler)
    (settings : Settings) (commands : List (Command K E))
    (hcommands : ∀ id spec kind, .createIndex id spec kind ∈ commands → spec.unique = false)
    (r : Registry K E) (hr : (replay perform { owner, sampler, settings } commands).2 = r)
    {ws ws' : List (EntryWrite K E)} (h : Reordering ws ws') :
    (∀ n, ∃ answer, (replay perform r (ws.map EntryWrite.command)).1[n]? = some answer ∧
        (replay perform r (ws'.map EntryWrite.command)).1[h.position n]? = some answer) ∧
      (replay perform r (ws.map EntryWrite.command)).2 =
        (replay perform r (ws'.map EntryWrite.command)).2 := by
  classical
  have hplain : r.Plain := hr ▸ plain_replay owner sampler settings hcommands
  have hsound : r.Sound := hr ▸ sound_replay owner sampler settings commands
  constructor
  · intro n
    have hfirst : ws[n]? = some (ws.get n) := List.getElem?_eq_getElem n.isLt
    have hsecond : ws'[h.position n]? = some (ws.get n) :=
      (List.getElem?_eq_getElem (h.position n).isLt).trans (congrArg some (h.same n))
    have hbefore := h.filter_take (ws.get n).key (ws.get n).extractor fun m hm => (h.lt_iff hm).symm
    refine ⟨_, hplain.answer_replay hfirst, (hplain.answer_replay hsecond).trans ?_⟩
    rw [hbefore]
  · refine (hsound.replay _).eq_of_lookup (hsound.replay _) ?_ fun key x => ?_
    · exact (hplain.shape_replay ws).symm.trans (hplain.shape_replay ws')
    · have hall := h.filter_take key x (a := ws.length) (b := ws'.length)
        fun m _ => iff_of_true m.isLt (h.position m).isLt
      rw [List.take_length, List.take_length] at hall
      rw [hplain.lookup_replay, hplain.lookup_replay, hall]

end Registry

/-! ### Ages in two orders -/

/-- Two keys of the one partition that has ages, and one of a partition that is missing. -/
def EntryWrite.ages : List (EntryWrite UInt64 Int64) :=
  [⟨2, ⟨"age"⟩, none⟩, ⟨4, ⟨"age"⟩, some (some 30)⟩, ⟨2, ⟨"age"⟩, some none⟩,
    ⟨3, ⟨"age"⟩, some (some 7)⟩]

/-- The writes of `ages` in another order, which keeps that of the writes to key two. -/
def EntryWrite.shuffledAges : List (EntryWrite UInt64 Int64) :=
  [⟨3, ⟨"age"⟩, some (some 7)⟩, ⟨4, ⟨"age"⟩, some (some 30)⟩, ⟨2, ⟨"age"⟩, none⟩,
    ⟨2, ⟨"age"⟩, some none⟩]

/-- Where the shuffled writes come from and go to. -/
def Reordering.shuffle : Fin 4 ≃ Fin 4 where
  toFun := ![2, 1, 3, 0]
  invFun := ![3, 1, 0, 2]
  left_inv := by
    unfold Function.LeftInverse
    decide
  right_inv := by
    unfold Function.RightInverse Function.LeftInverse
    decide

def Reordering.ages : Reordering EntryWrite.ages EntryWrite.shuffledAges where
  position := shuffle
  same := by decide
  keeps_order := by decide

/-- Commands that create an index of ages in partition zero and give key two an age. -/
def Command.firstAge : List (Command UInt64 Int64) :=
  [.createIndex ⟨0⟩ ⟨⟨"age"⟩, false⟩ .ordered, .indexEntry 2 ⟨"age"⟩ (some 30)]

theorem Registry.independent_writes_commute_ages :
    (∀ id spec kind, .createIndex id spec kind ∈ Command.firstAge → spec.unique = false) ∧
      ∀ r, (replay perform { owner := .modulo 2, sampler := .first } Command.firstAge).2 = r →
        (∀ n, ∃ answer,
          (replay perform r (EntryWrite.ages.map EntryWrite.command)).1[n]? = some answer ∧
          (replay perform r (EntryWrite.shuffledAges.map EntryWrite.command)).1[
            Reordering.ages.position n]? = some answer) ∧
        (replay perform r (EntryWrite.ages.map EntryWrite.command)).2 =
          (replay perform r (EntryWrite.shuffledAges.map EntryWrite.command)).2 := by
  have hcommands : ∀ id spec kind, .createIndex id spec kind ∈ Command.firstAge →
      spec.unique = false := by
    intro id spec kind hmem
    simp only [Command.firstAge, List.mem_cons, Command.createIndex.injEq, List.not_mem_nil,
      reduceCtorEq, or_false] at hmem
    rw [hmem.2.1]
  exact ⟨hcommands, fun r hr => independent_writes_commute (.modulo 2) .first {} Command.firstAge
    hcommands r hr Reordering.ages⟩

end PartitionedIndex
