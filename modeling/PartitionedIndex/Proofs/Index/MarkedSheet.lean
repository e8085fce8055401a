import Mathlib.Data.List.Induction
import Mathlib.Data.List.Nodup
import PartitionedIndex.Proofs.Registry.Ledger

/-! # Sheets that are filled anew

What an index that is rebuilt does, on paper: a sheet says which value each key has, and is marked if some
key could not be entered. Filling a sheet anew enters a list of entries in turn, and an entry that is
refused strikes its key off and marks the sheet. So what a sheet is filled with depends on the whole list:
a refused entry takes away what its key had, and that frees a value for later entries. If values may be
repeated nothing is refused, and each key has the value of its last entry (`fill_of_not_unique`). If they
may not but no key is repeated either, the sheet has the first entry of each value (`fill_of_unique`). -/

namespace PartitionedIndex

/-- A way to change an index: a write, or rebuilding it from entries. -/
inductive Change (K E : Type) where
  | write (w : Write K E)
  | rebuild (entries : List (K × Option E))
  deriving DecidableEq, Repr

/-- A sheet, and whether a key could not be entered. -/
structure MarkedSheet (K E : Type) [Ord K] where
  sheet : Sheet K E
  isMarked : Bool := false

namespace MarkedSheet

variable {K E : Type} [Ord K]

/-- A sheet without keys. -/
def blank (unique : Bool) : MarkedSheet K E where
  sheet := { unique }

/-- The values of the keys. -/
def values (m : MarkedSheet K E) : Std.ExtTreeMap K (Option E) := m.sheet.values

/-- Work on the sheet leaves the mark. -/
def work (m : MarkedSheet K E) (done : Except Error Outcome × Sheet K E) :
    Except Error Outcome × MarkedSheet K E :=
  (done.1, { m with sheet := done.2 })

variable [Std.TransOrd K] [DecidableEq K] [DecidableEq E]

/-- Strikes a key off and marks the sheet. -/
def mark (m : MarkedSheet K E) (key : K) : MarkedSheet K E where
  sheet := (m.sheet.strike key).2
  isMarked := true

/-- Enters a key with a value; if that is refused, marks it. -/
def enterOrMark (x : Extractor) (m : MarkedSheet K E) (entry : K × Option E) : MarkedSheet K E :=
  match m.sheet.enter x entry.1 entry.2 with
  | (.ok _, entered) => { m with sheet := entered }
  | (.error _, _) => m.mark entry.1

/-- Fills a blank sheet with entries. -/
def fill (x : Extractor) (unique : Bool) (entries : List (K × Option E)) : MarkedSheet K E :=
  entries.foldl (enterOrMark x) (blank unique)

/-- Carries out a change on a sheet. -/
def perform (x : Extractor) (m : MarkedSheet K E) :
    Change K E → Except Error Outcome × MarkedSheet K E
  | .write (.insert key value) => m.work (m.sheet.enter x key value)
  | .write (.update key value) => m.work (m.sheet.enter x key value)
  | .write (.delete key) => m.work (m.sheet.strike key)
  | .write (.markUnindexable key) => (.ok .done, m.mark key)
  | .rebuild entries => (.ok .done, fill x m.sheet.unique entries)

/-- An entry is marked if its value must be unique and is taken, and else entered. -/
theorem enterOrMark_eq (x : Extractor) (m : MarkedSheet K E) (entry : K × Option E) :
    m.enterOrMark x entry =
      if m.sheet.unique && m.sheet.taken entry.1 entry.2 then m.mark entry.1
      else { m with sheet := { m.sheet with values := m.values.insert entry.1 entry.2 } } := by
  rw [enterOrMark, Sheet.enter]
  cases m.sheet.unique && m.sheet.taken entry.1 entry.2 <;> rfl

/-! ### What a sheet is filled with -/

theorem fill_concat (x : Extractor) (unique : Bool) (entries : List (K × Option E))
    (entry : K × Option E) :
    fill x unique (entries ++ [entry]) = (fill x unique entries).enterOrMark x entry :=
  List.foldl_append.trans rfl

theorem unique_fill (x : Extractor) (unique : Bool) (entries : List (K × Option E)) :
    (fill x unique entries).sheet.unique = unique := by
  induction entries using List.reverseRecOn with
  | nil => rfl
  | append_singleton entries entry ih =>
      rw [fill_concat, enterOrMark_eq]
      split
      · exact ih
      · exact ih

variable [Std.LawfulEqOrd K]

/-- If values need not be unique, each key has the value of its last entry. -/
theorem fill_of_not_unique (x : Extractor) (entries : List (K × Option E)) :
    (fill x false entries).isMarked = false ∧
      ∀ key, (fill x false entries).values[key]? =
        (entries.reverse.find? fun e => e.1 = key).map Prod.snd := by
  induction entries using List.reverseRecOn with
  | nil => exact ⟨rfl, fun key => Std.ExtTreeMap.getElem?_empty⟩
  | append_singleton entries entry ih =>
      obtain ⟨hmarked, hvalues⟩ := ih
      rw [fill_concat, enterOrMark_eq, unique_fill, Bool.false_and, if_neg Bool.false_ne_true]
      refine ⟨hmarked, fun key => ?_⟩
      rw [List.reverse_concat, List.find?_cons]
      refine Std.ExtTreeMap.getElem?_insert.trans ?_
      by_cases hkey : entry.1 = key
      · simp [hkey]
      · simp [hkey, hvalues]

omit [Ord K] [Std.TransOrd K] [DecidableEq K] [Std.LawfulEqOrd K] in
theorem find?_concat_eq_some_iff (entries : List (K × Option E)) (entry : K × Option E) (key : K)
    (value : Option E) :
    ((entries ++ [entry]).find? fun e => e.2 = value) = some (key, value) ↔
      (entries.find? fun e => e.2 = value) = some (key, value) ∨
        (value ∉ entries.map Prod.snd ∧ entry = (key, value)) := by
  have hnone : (entries.find? fun e => e.2 = value) = none ↔ value ∉ entries.map Prod.snd := by
    rw [List.find?_eq_none]
    constructor
    · rintro hnone hmem
      obtain ⟨e, he, rfl⟩ := List.mem_map.mp hmem
      exact hnone e he (decide_eq_true rfl)
    · intro hmem e he heq
      exact hmem (List.mem_map.mpr ⟨e, he, of_decide_eq_true heq⟩)
  have hlast : (List.find? (fun e => e.2 = value) [entry]) = some (key, value) ↔
      entry = (key, value) := by
    by_cases hvalue : entry.2 = value
    · simp [hvalue]
    · have hne : entry ≠ (key, value) := fun heq => hvalue (congrArg Prod.snd heq)
      simp [hvalue, hne]
  rw [List.find?_append, Option.or_eq_some_iff, hnone, hlast]

/-- A sheet has the first entry of each value. -/
def HasFirsts (m : MarkedSheet K E) (entries : List (K × Option E)) : Prop :=
  ∀ key value, m.values[key]? = some value ↔
    (entries.find? fun e => e.2 = value) = some (key, value)

namespace HasFirsts

variable {m : MarkedSheet K E} {entries : List (K × Option E)} (h : m.HasFirsts entries)
variable {entry : K × Option E} (hnew : ∀ value, (entry.1, value) ∉ entries)
include h hnew

omit [DecidableEq K] [Std.LawfulEqOrd K] in
theorem getElem?_eq_none : m.values[entry.1]? = none := by
  rw [Option.eq_none_iff_forall_ne_some]
  intro value hvalue
  exact hnew value (List.mem_of_find?_eq_some ((h entry.1 value).mp hvalue))

theorem taken_iff : m.sheet.taken entry.1 entry.2 = true ↔ entry.2 ∈ entries.map Prod.snd := by
  rw [Sheet.taken_iff]
  constructor
  · rintro ⟨other, _, hother⟩
    have hmem := List.mem_of_find?_eq_some ((h other entry.2).mp hother)
    exact List.mem_map.mpr ⟨_, hmem, rfl⟩
  · intro hmem
    obtain ⟨e, he, hvalue⟩ := List.mem_map.mp hmem
    have hsome : (entries.find? fun e => e.2 = entry.2).isSome = true :=
      List.find?_isSome.mpr ⟨e, he, decide_eq_true hvalue⟩
    obtain ⟨first, hfirst⟩ := Option.isSome_iff_exists.mp hsome
    have hsnd : first.2 = entry.2 := by simpa using List.find?_some hfirst
    have hpair : first = (first.1, entry.2) := Prod.ext rfl hsnd
    have hother := (h first.1 entry.2).mpr (hfirst.trans (congrArg some hpair))
    refine ⟨first.1, ?_, hother⟩
    rintro heq
    rw [heq, h.getElem?_eq_none hnew] at hother
    cases hother

omit [DecidableEq K] in
theorem mark (hmem : entry.2 ∈ entries.map Prod.snd) :
    (m.mark entry.1).HasFirsts (entries ++ [entry]) := by
  intro key value
  have hsame : (m.mark entry.1).values[key]? = m.values[key]? := by
    refine Std.ExtTreeMap.getElem?_erase.trans ?_
    split
    next heq => rw [← Std.LawfulEqOrd.eq_of_compare heq, h.getElem?_eq_none hnew]
    next => rfl
  rw [hsame, h, find?_concat_eq_some_iff]
  refine (or_iff_left ?_).symm
  rintro ⟨hfree, rfl⟩
  exact hfree hmem

omit [DecidableEq K] in
theorem insert (hfree : entry.2 ∉ entries.map Prod.snd) :
    HasFirsts { m with sheet := { m.sheet with values := m.values.insert entry.1 entry.2 } }
      (entries ++ [entry]) := by
  intro key value
  have hget : (m.values.insert entry.1 entry.2)[key]? =
      if compare entry.1 key = .eq then some entry.2 else m.values[key]? :=
    Std.ExtTreeMap.getElem?_insert
  rw [find?_concat_eq_some_iff, ← h, values, hget]
  split
  next heq =>
    obtain rfl : entry.1 = key := Std.LawfulEqOrd.eq_of_compare heq
    rw [h.getElem?_eq_none hnew]
    constructor
    · intro hvalue
      obtain rfl : entry.2 = value := Option.some_inj.mp hvalue
      exact .inr ⟨hfree, rfl⟩
    · rintro (hnone | ⟨-, hentry⟩)
      · cases hnone
      · exact congrArg (fun e => some e.2) hentry
  next hne =>
    refine (or_iff_left ?_).symm
    rintro ⟨-, rfl⟩
    exact hne Std.ReflCmp.compare_self

end HasFirsts

/-- If values must be unique and no key is repeated, a value belongs to the key of its first entry, and
the sheet is marked if a value is repeated. -/
theorem fill_of_unique (x : Extractor) {entries : List (K × Option E)}
    (hkeys : (entries.map Prod.fst).Nodup) :
    ((fill x true entries).isMarked = true ↔ ¬ (entries.map Prod.snd).Nodup) ∧
      (fill x true entries).HasFirsts entries := by
  induction entries using List.reverseRecOn with
  | nil =>
      have hblank : ∀ key : K, (blank true : MarkedSheet K E).values[key]? = none :=
        fun key => Std.ExtTreeMap.getElem?_empty
      exact ⟨by simp [fill, blank], fun key value => by simp [fill, hblank]⟩
  | append_singleton entries entry ih =>
      rw [List.map_append, List.map_singleton, ← List.concat_eq_append, List.nodup_concat] at hkeys
      obtain ⟨hmarked, hfirsts⟩ := ih hkeys.2
      have hnew : ∀ value, (entry.1, value) ∉ entries :=
        fun value hmem => hkeys.1 (List.mem_map.mpr ⟨_, hmem, rfl⟩)
      rw [fill_concat, enterOrMark_eq, unique_fill, Bool.true_and, List.map_append,
        List.map_singleton, ← List.concat_eq_append, List.nodup_concat]
      by_cases hmem : entry.2 ∈ entries.map Prod.snd
      · rw [if_pos ((hfirsts.taken_iff hnew).mpr hmem)]
        exact ⟨iff_of_true rfl fun hnodup => hnodup.1 hmem, hfirsts.mark hnew hmem⟩
      · rw [if_neg fun htaken => hmem ((hfirsts.taken_iff hnew).mp htaken)]
        refine ⟨hmarked.trans ?_, hfirsts.insert hnew hmem⟩
        rw [and_iff_right hmem]

end MarkedSheet

end PartitionedIndex
