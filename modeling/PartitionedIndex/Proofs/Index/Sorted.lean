import PartitionedIndex.Index.Sorted
import PartitionedIndex.Proofs.Bisection
import PartitionedIndex.Proofs.Bound
import PartitionedIndex.Proofs.Comparator

/-! # Ordered contents are exact

Entries whose values ascend strictly split at every value: those below it, at most one of its
class, and those above it. Bisection finds the split, linking and unlinking change its middle only,
and so the entries go on ascending. From this each access is what it would be on a plain list of
classes: looking a value up gives the keys of its class (`get?_eq_some_iff`), a write changes the
keys of one class (`get?_link`, `get?_unlink`), and a range is the entries within its bounds
(`between_eq_filter`). -/

namespace PartitionedIndex

/-- Entries split at a value: those below it, the one of its class, those above it. -/
structure Splits {E B : Type} (order : Option E → Option E → Ordering) (value : Option E)
    (entries below : List (Option E × B)) (same : Option (Option E × B))
    (above : List (Option E × B)) : Prop where
  entries_eq : entries = below ++ (same.toList ++ above)
  below_lt : ∀ e ∈ below, order e.1 value = .lt
  same_eq : ∀ e ∈ same, order e.1 value = .eq
  lt_above : ∀ e ∈ above, order value e.1 = .lt

namespace Splits

variable {E B : Type} {order : Option E → Option E → Ordering} [Std.TransCmp order]
variable {value : Option E} {entries below above : List (Option E × B)}
variable {same : Option (Option E × B)}

theorem exists_of_ascending (h : Ascending order Prod.fst entries) (value : Option E) :
    ∃ below same above, Splits order value entries below same above := by
  induction entries with
  | nil => exact ⟨[], none, [], rfl, by simp, by simp, by simp⟩
  | cons e rest ih =>
      obtain ⟨he, hrest⟩ := Ascending.cons_iff.mp h
      cases hc : order e.1 value with
      | lt =>
          obtain ⟨below, same, above, hs⟩ := ih hrest
          refine ⟨e :: below, same, above, ?_, ?_, hs.same_eq, hs.lt_above⟩
          · rw [hs.entries_eq, List.cons_append]
          · intro d hd
            rcases List.mem_cons.mp hd with rfl | hd
            · exact hc
            · exact hs.below_lt d hd
      | eq =>
          refine ⟨[], some e, rest, rfl, by simp, ?_, ?_⟩
          · intro d hd
            rw [← Option.mem_some.mp hd]
            exact hc
          · intro d hd
            exact Std.TransCmp.lt_of_eq_of_lt (Std.OrientedCmp.eq_symm hc) (he d hd)
      | gt =>
          refine ⟨[], none, e :: rest, rfl, by simp, by simp, ?_⟩
          have hve : order value e.1 = .lt := Std.OrientedCmp.lt_of_gt hc
          intro d hd
          rcases List.mem_cons.mp hd with rfl | hd
          · exact hve
          · exact Std.TransCmp.lt_trans hve (he d hd)

theorem ascending (h : Splits order value entries below same above)
    (hb : Ascending order Prod.fst below) (ha : Ascending order Prod.fst above) :
    Ascending order Prod.fst entries := by
  rw [h.entries_eq]
  refine Ascending.append_iff.mpr ⟨hb, Ascending.append_iff.mpr ⟨?_, ha, ?_⟩, ?_⟩
  · cases same with
    | none => exact Ascending.nil
    | some e => exact List.pairwise_singleton _ _
  · intro e he d hd
    exact Std.TransCmp.lt_of_eq_of_lt (h.same_eq e (Option.mem_toList.mp he)) (h.lt_above d hd)
  · intro e he d hd
    rcases List.mem_append.mp hd with hd | hd
    · exact Std.TransCmp.lt_of_lt_of_eq (h.below_lt e he)
        (Std.OrientedCmp.eq_symm (h.same_eq d (Option.mem_toList.mp hd)))
    · exact Std.TransCmp.lt_trans (h.below_lt e he) (h.lt_above d hd)

omit [Std.TransCmp order] in
theorem ascending_outer (h : Splits order value entries below same above)
    (hs : Ascending order Prod.fst entries) :
    Ascending order Prod.fst below ∧ Ascending order Prod.fst above := by
  rw [h.entries_eq] at hs
  obtain ⟨hb, hr, _⟩ := Ascending.append_iff.mp hs
  exact ⟨hb, (Ascending.append_iff.mp hr).2.1⟩

theorem mem_iff (h : Splits order value entries below same above) (e : Option E × B) :
    e ∈ entries ↔
      if order e.1 value = .eq then same = some e else e ∈ below ∨ e ∈ above := by
  have hb : e ∈ below → order e.1 value ≠ .eq := by
    intro he hc
    rw [h.below_lt e he] at hc
    cases hc
  have ha : e ∈ above → order e.1 value ≠ .eq := by
    intro he hc
    rw [Std.OrientedCmp.eq_comm, h.lt_above e he] at hc
    cases hc
  rw [h.entries_eq, List.mem_append, List.mem_append, Option.mem_toList]
  split
  next hc =>
    constructor
    · rintro (he | he | he)
      · exact absurd hc (hb he)
      · exact he
      · exact absurd hc (ha he)
    · exact fun he => Or.inr (Or.inl he)
  next hc =>
    constructor
    · rintro (he | he | he)
      · exact Or.inl he
      · exact absurd (h.same_eq e he) hc
      · exact Or.inr he
    · rintro (he | he)
      · exact Or.inl he
      · exact Or.inr (Or.inr he)

end Splits

namespace Sorted

variable {K E : Type} [Ord K] [Ord E]

/-- The values of the entries ascend strictly. -/
def Strict (s : Sorted K E) : Prop := Ascending s.order Prod.fst s.entries.toList

variable {s : Sorted K E} [Std.TransCmp s.order]

/-- Looking a value up gives the keys of its class. -/
theorem get?_eq_some_iff (h : s.Strict) (value : Option E) (keys : KeySet K) :
    s.get? value = some keys ↔ ∃ w, (w, keys) ∈ s.entries.toList ∧ s.order w value = .eq := by
  refine (Bisection.map_find?_eq_some_iff h value Prod.snd keys).trans ?_
  constructor
  · rintro ⟨⟨w, _⟩, hmem, heq, rfl⟩
    exact ⟨w, hmem, heq⟩
  · rintro ⟨w, hmem, heq⟩
    exact ⟨(w, keys), hmem, heq, rfl⟩

theorem get?_congr (h : s.Strict) {v w : Option E} (hvw : s.order v w = .eq) :
    s.get? v = s.get? w := by
  apply Option.ext
  intro keys
  rw [get?_eq_some_iff h, get?_eq_some_iff h]
  constructor
  · rintro ⟨u, hu, heq⟩
    exact ⟨u, hu, Std.TransCmp.eq_trans heq hvw⟩
  · rintro ⟨u, hu, heq⟩
    exact ⟨u, hu, Std.TransCmp.eq_trans heq (Std.OrientedCmp.eq_symm hvw)⟩

/-! ### The split that bisection finds -/

section splits

variable {value : Option E} {below above : List (Option E × KeySet K)}
variable {same : Option (Option E × KeySet K)}

theorem get?_of_splits (h : s.Strict) (hs : Splits s.order value s.entries.toList below same above) :
    s.get? value = same.map Prod.snd := by
  apply Option.ext
  intro keys
  rw [get?_eq_some_iff h, Option.map_eq_some_iff]
  constructor
  · rintro ⟨w, hmem, heq⟩
    rw [hs.mem_iff, if_pos heq] at hmem
    exact ⟨(w, keys), hmem, rfl⟩
  · rintro ⟨⟨w, keys'⟩, rfl, rfl⟩
    have heq := hs.same_eq (w, keys') rfl
    refine ⟨w, ?_, heq⟩
    rw [hs.mem_iff, if_pos heq]

theorem find?_of_splits {e : Option E × KeySet K} (h : s.Strict)
    (hs : Splits s.order value s.entries.toList below (some e) above) :
    ∃ hsize : below.length < s.entries.size,
      s.find? value = some ⟨below.length, hsize⟩ ∧ s.entries[below.length] = e := by
  have hsize : below.length < s.entries.size := by
    have := congrArg List.length hs.entries_eq
    simp only [Array.length_toList, List.length_append, Option.toList_some,
      List.length_cons] at this
    omega
  have hget : s.entries[below.length] = e := by
    rw [← Array.getElem_toList, List.getElem_of_eq hs.entries_eq]
    simp
  refine ⟨hsize, ?_, hget⟩
  unfold find?
  rw [Bisection.find?_eq_some_iff h, Fin.getElem_fin, hget]
  exact hs.same_eq e rfl

theorem rank_of_splits (h : s.Strict)
    (hs : Splits s.order value s.entries.toList below none above) :
    s.find? value = none ∧ s.rank value = below.length := by
  have hentries : s.entries.toList = below ++ above := by simpa using hs.entries_eq
  have hlen : s.entries.size = below.length + above.length := by
    rw [← Array.length_toList, hentries, List.length_append]
  constructor
  · have hnone := get?_of_splits h hs
    rw [get?, Option.map_none, Option.map_eq_none_iff] at hnone
    exact hnone
  · unfold rank
    apply Bisection.partitionPoint_eq _ _ _ (by omega)
    intro i hi
    rw [← Array.getElem_toList, List.getElem_of_eq hentries, Ordering.isLT_iff_eq_lt]
    rcases Nat.lt_or_ge i below.length with hlt | hge
    · rw [List.getElem_append_left hlt]
      exact ⟨fun _ => hlt, fun _ => hs.below_lt _ (List.getElem_mem _)⟩
    · rw [List.getElem_append_right hge]
      have hgt := hs.lt_above _ (List.getElem_mem (show i - below.length < above.length by omega))
      constructor
      · intro hlt
        exact absurd hgt (Std.OrientedCmp.not_lt_of_lt hlt)
      · intro hlt
        omega

end splits

/-! ### Writes -/

omit [Ord K] [Ord E] in
theorem insertIdx_length_append {α : Type} (l m : List α) (a : α) :
    (l ++ m).insertIdx l.length a = l ++ a :: m := by
  induction l with
  | nil => rw [List.nil_append, List.length_nil, List.insertIdx_zero, List.nil_append]
  | cons b l ih => rw [List.cons_append, List.length_cons, List.insertIdx_succ_cons, ih, List.cons_append]

variable [Std.TransOrd K]

@[simp] theorem order_link (s : Sorted K E) (value : Option E) (key : K) :
    (s.link value key).order = s.order := by
  unfold link
  split <;> rfl

@[simp] theorem order_unlink (s : Sorted K E) (value : Option E) (key : K) :
    (s.unlink value key).order = s.order := by
  unfold unlink
  split
  · dsimp only
    split <;> rfl
  · rfl

/-- Linking changes the middle of the split: the class has the key, too, and an entry if it had
none. -/
theorem splits_link (h : s.Strict) {value : Option E} {below above : List (Option E × KeySet K)}
    {same : Option (Option E × KeySet K)} (key : K)
    (hs : Splits s.order value s.entries.toList below same above) :
    Splits s.order value (s.link value key).entries.toList below
      (some ((same.map Prod.fst).getD value, ((s.get? value).getD ∅).insert key)) above := by
  rw [get?_of_splits h hs]
  refine ⟨?_, hs.below_lt, ?_, hs.lt_above⟩
  · unfold link
    cases same with
    | none =>
        obtain ⟨hf, hr⟩ := rank_of_splits h hs
        have hentries : s.entries.toList = below ++ above := by simpa using hs.entries_eq
        rw [hf]
        simp only [Array.toList_insertIdx, hr, hentries]
        exact insertIdx_length_append _ _ _
    | some e =>
        obtain ⟨hsize, hf, he⟩ := find?_of_splits h hs
        rw [hf]
        simp only [Fin.getElem_fin, he, Array.toList_set, hs.entries_eq]
        simp
  · intro e he
    rw [← Option.mem_some.mp he]
    cases same with
    | none => exact Std.ReflCmp.compare_self
    | some d => exact hs.same_eq d rfl

/-- Unlinking changes the middle of the split: the class loses the key, and its entry with the last
one. -/
theorem splits_unlink (h : s.Strict) {value : Option E} {below above : List (Option E × KeySet K)}
    {same : Option (Option E × KeySet K)} (key : K)
    (hs : Splits s.order value s.entries.toList below same above) :
    Splits s.order value (s.unlink value key).entries.toList below
      ((same.map fun e => (e.1, e.2.erase key)).filter fun e => !e.2.isEmpty) above := by
  refine ⟨?_, hs.below_lt, ?_, hs.lt_above⟩
  · unfold unlink
    cases same with
    | none =>
        rw [(rank_of_splits h hs).1]
        exact hs.entries_eq
    | some e =>
        obtain ⟨hsize, hf, he⟩ := find?_of_splits h hs
        rw [hf]
        simp only [Fin.getElem_fin, he]
        by_cases hempty : (e.2.erase key).isEmpty
        · rw [if_pos hempty, Array.toList_eraseIdx, hs.entries_eq]
          simp [Option.filter, hempty, List.eraseIdx_append_of_length_le]
        · rw [if_neg hempty]
          simp only [Array.toList_set, hs.entries_eq]
          simp [Option.filter, hempty]
  · intro e he
    cases same with
    | none => cases he
    | some d =>
        rw [Option.mem_def, Option.map_some, Option.filter_eq_some_iff, Option.some.injEq] at he
        rw [← he.1]
        exact hs.same_eq d rfl

theorem strict_link (h : s.Strict) (value : Option E) (key : K) : (s.link value key).Strict := by
  obtain ⟨below, same, above, hs⟩ := Splits.exists_of_ascending h value
  obtain ⟨hb, ha⟩ := hs.ascending_outer h
  unfold Strict
  rw [order_link]
  exact (splits_link h key hs).ascending hb ha

theorem strict_unlink (h : s.Strict) (value : Option E) (key : K) : (s.unlink value key).Strict := by
  obtain ⟨below, same, above, hs⟩ := Splits.exists_of_ascending h value
  obtain ⟨hb, ha⟩ := hs.ascending_outer h
  unfold Strict
  rw [order_unlink]
  exact (splits_unlink h key hs).ascending hb ha

omit [Std.TransOrd K] in
theorem get?_of_same_outer {t : Sorted K E} (h : s.Strict) (ht : t.Strict) (ho : t.order = s.order)
    {value : Option E} {below above : List (Option E × KeySet K)}
    {same same' : Option (Option E × KeySet K)}
    (hs : Splits s.order value s.entries.toList below same above)
    (hs' : Splits s.order value t.entries.toList below same' above)
    {other : Option E} (hne : s.order value other ≠ .eq) : t.get? other = s.get? other := by
  have : Std.TransCmp t.order := ho ▸ inferInstance
  apply Option.ext
  intro keys
  rw [get?_eq_some_iff h, get?_eq_some_iff ht, ho]
  have houter : ∀ w, s.order w other = .eq → s.order w value ≠ .eq := by
    intro w hw hc
    exact hne (Std.TransCmp.eq_trans (Std.OrientedCmp.eq_symm hc) hw)
  constructor
  · rintro ⟨w, hmem, hw⟩
    rw [hs'.mem_iff, if_neg (houter w hw)] at hmem
    refine ⟨w, ?_, hw⟩
    rw [hs.mem_iff, if_neg (houter w hw)]
    exact hmem
  · rintro ⟨w, hmem, hw⟩
    rw [hs.mem_iff, if_neg (houter w hw)] at hmem
    refine ⟨w, ?_, hw⟩
    rw [hs'.mem_iff, if_neg (houter w hw)]
    exact hmem

theorem get?_link (h : s.Strict) (value other : Option E) (key : K) :
    (s.link value key).get? other =
      if s.order value other = .eq then some (((s.get? value).getD ∅).insert key)
      else s.get? other := by
  have ht := strict_link h value key
  have ho := order_link s value key
  have : Std.TransCmp (s.link value key).order := ho ▸ inferInstance
  obtain ⟨below, same, above, hs⟩ := Splits.exists_of_ascending h value
  have hs' := splits_link h key hs
  split
  next heq =>
    rw [← get?_congr ht (ho ▸ heq), get?_of_splits ht (ho ▸ hs')]
    rfl
  next hne => exact get?_of_same_outer h ht ho hs hs' hne

theorem get?_unlink (h : s.Strict) (value other : Option E) (key : K) :
    (s.unlink value key).get? other =
      if s.order value other = .eq then
        ((s.get? value).map (·.erase key)).filter fun rest => !rest.isEmpty
      else s.get? other := by
  have ht := strict_unlink h value key
  have ho := order_unlink s value key
  have : Std.TransCmp (s.unlink value key).order := ho ▸ inferInstance
  obtain ⟨below, same, above, hs⟩ := Splits.exists_of_ascending h value
  have hs' := splits_unlink h key hs
  split
  next heq =>
    rw [← get?_congr ht (ho ▸ heq), get?_of_splits ht (ho ▸ hs'), get?_of_splits h hs]
    cases same with
    | none => rfl
    | some e =>
        simp only [Option.map_some, Option.filter]
        split <;> rfl
  next hne => exact get?_of_same_outer h ht ho hs hs' hne

/-! ### Ranges -/

omit [Std.TransOrd K] in
/-- The entries of a range are those whose value is within its bounds. -/
theorem between_eq_filter (h : s.Strict) (lower upper : Bound (Option E)) :
    s.between lower upper =
      s.entries.toList.filter fun e => Bound.between s.order lower upper e.1 := by
  have hlt : ∀ (i j : Nat) (hi : i < s.entries.size) (hj : j < s.entries.size), i < j →
      (s.order s.entries[i].1 s.entries[j].1).isLE := by
    intro i j hi hj hij
    have := List.pairwise_iff_getElem.mp h i j hi hj hij
    rw [Array.getElem_toList, Array.getElem_toList] at this
    rw [this]
    rfl
  have hstart := Bisection.partitionPoint_iff
    (fun e : Option E × KeySet K => !lower.admitsAbove s.order e.1) s.entries (by
      intro i j hi hj hij hout
      rw [Bool.not_eq_true'] at hout ⊢
      rw [Bool.eq_false_iff] at hout ⊢
      exact fun hin => hout (lower.admitsAbove_of_isLE (hlt i j hi hj hij) hin))
  have hstop := Bisection.partitionPoint_iff
    (fun e : Option E × KeySet K => upper.admitsBelow s.order e.1) s.entries (by
      intro i j hi hj hij hin
      exact upper.admitsBelow_of_isLE (hlt i j hi hj hij) hin)
  unfold between Bound.between
  dsimp only
  rw [Array.toList_extract, List.extract_eq_take_drop, ← List.drop_take, ← List.filter_filter]
  rw [Bisection.filter_eq_take _ s.entries.toList _ fun i hi => by
    rw [Array.getElem_toList]
    exact hstop i hi]
  symm
  apply Bisection.filter_eq_drop
  intro i hi
  rw [List.length_take, Array.length_toList] at hi
  rw [List.getElem_take, Array.getElem_toList, ← hstart i (by omega), Bool.not_eq_true']

end Sorted

end PartitionedIndex
