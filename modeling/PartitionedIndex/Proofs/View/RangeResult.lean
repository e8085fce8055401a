import Mathlib.Data.List.Induction
import PartitionedIndex.View.RangeResult
import PartitionedIndex.Proofs.Bisection
import PartitionedIndex.Proofs.Bound

/-! # Merging gathers by class

Sorting entries and joining neighbours that compare equal amounts to grouping them by class: the
result ascends, it has one entry for each class of the values given, and that entry has the value
that comes first in its class and the key sets of the class in the order in which they were given
(`Gathered`). This settles the result (`Gathered.unique`), so narrowing a merged range to bounds is
the same as narrowing the entries before they are merged (`Gathered.filter`). -/

namespace PartitionedIndex

variable {K E : Type} [Ord K] {order : Option E → Option E → Ordering}

/-- The entries whose value is in the class of a value, in their order. -/
def classOf (order : Option E → Option E → Ordering) (value : Option E)
    (entries : List (Option E × KeySet K)) : List (Option E × KeySet K) :=
  entries.filter fun e => order e.1 value = .eq

/-- The result `g` has one entry for each class of the values of `entries`, ascending, each with the
first value of its class and the key sets of its class. -/
structure Gathered (order : Option E → Option E → Ordering)
    (entries : List (Option E × KeySet K)) (g : List (Option E × Chain K)) : Prop where
  ascending : Ascending order Prod.fst g
  first : ∀ e ∈ g, (classOf order e.1 entries).head?.map Prod.fst = some e.1
  members : ∀ e ∈ g, e.2.members = (classOf order e.1 entries).map Prod.snd
  covers : ∀ p ∈ entries, ∃ e ∈ g, order e.1 p.1 = .eq

theorem mem_classOf {value : Option E} {entries : List (Option E × KeySet K)}
    {e : Option E × KeySet K} :
    e ∈ classOf order value entries ↔ e ∈ entries ∧ order e.1 value = .eq := by
  rw [classOf, List.mem_filter, decide_eq_true_iff]

theorem classOf_concat_of_eq {value : Option E} {entries : List (Option E × KeySet K)}
    {e : Option E × KeySet K} (h : order e.1 value = .eq) :
    classOf order value (entries ++ [e]) = classOf order value entries ++ [e] := by
  simp [classOf, h]

theorem classOf_concat_of_ne {value : Option E} {entries : List (Option E × KeySet K)}
    {e : Option E × KeySet K} (h : order e.1 value ≠ .eq) :
    classOf order value (entries ++ [e]) = classOf order value entries := by
  simp [classOf, h]

variable [Std.TransCmp order]

theorem classOf_congr {v w : Option E} (h : order v w = .eq)
    (entries : List (Option E × KeySet K)) :
    classOf order v entries = classOf order w entries := by
  unfold classOf
  congr 1
  funext e
  rw [Std.TransCmp.congr_right h]

theorem classOf_of_ascending {entries : List (Option E × KeySet K)}
    (h : Ascending order Prod.fst entries) {e : Option E × KeySet K} (he : e ∈ entries)
    {value : Option E} (heq : order e.1 value = .eq) : classOf order value entries = [e] := by
  have hasc : Ascending order Prod.fst (classOf order value entries) := h.sublist List.filter_sublist
  refine hasc.eq_of_mem_iff (List.pairwise_singleton _ _) fun d => ?_
  rw [mem_classOf, List.mem_singleton]
  constructor
  · intro ⟨hd, hdv⟩
    exact h.eq_of_mem hd he (Std.TransCmp.eq_trans hdv (Std.OrientedCmp.eq_symm heq))
  · intro hd
    rw [hd]
    exact ⟨he, heq⟩

namespace Gathered

variable {entries : List (Option E × KeySet K)} {g : List (Option E × Chain K)}

omit [Std.TransCmp order] in
theorem exists_given (h : Gathered order entries g) {e : Option E × Chain K} (he : e ∈ g) :
    ∃ p ∈ entries, p.1 = e.1 := by
  obtain ⟨p, hp, hv⟩ := Option.map_eq_some_iff.mp (h.first e he)
  exact ⟨p, (mem_classOf.mp (List.mem_of_head? hp)).1, hv⟩

theorem exists_iff (h : Gathered order entries g) (value : Option E) :
    (∃ e ∈ g, order e.1 value = .eq) ↔ ∃ p ∈ entries, order p.1 value = .eq := by
  constructor
  · rintro ⟨e, he, heq⟩
    obtain ⟨p, hp, hpe⟩ := h.exists_given he
    exact ⟨p, hp, hpe ▸ heq⟩
  · rintro ⟨p, hp, hpv⟩
    obtain ⟨e, he, hep⟩ := h.covers p hp
    exact ⟨e, he, Std.TransCmp.eq_trans hep hpv⟩

/-- There is one result only that gathers the entries given. -/
theorem unique {g' : List (Option E × Chain K)} (h : Gathered order entries g)
    (h' : Gathered order entries g') : g = g' := by
  have hsub : ∀ {g g' : List (Option E × Chain K)}, Gathered order entries g →
      Gathered order entries g' → ∀ e ∈ g, e ∈ g' := by
    intro g g' h h' e he
    obtain ⟨p, hp, hpe⟩ := h.exists_given he
    obtain ⟨d, hd, hdp⟩ := h'.covers p hp
    rw [hpe] at hdp
    have hclass := classOf_congr hdp entries
    have hvalue : d.1 = e.1 := by
      have h1 := h'.first d hd
      rw [hclass, h.first e he] at h1
      exact (Option.some.inj h1).symm
    have hmembers : d.2 = e.2 := by
      have h1 := h'.members d hd
      rw [hclass, ← h.members e he] at h1
      cases hc : d.2
      cases hc' : e.2
      rw [hc, hc'] at h1
      exact congrArg Chain.mk h1
    rw [← Prod.ext hvalue hmembers]
    exact hd
  exact h.ascending.eq_of_mem_iff h'.ascending fun e => ⟨hsub h h' e, hsub h' h e⟩

omit [Std.TransCmp order] in
/-- Whole classes can be left out of the entries given or of the result. -/
theorem filter (h : Gathered order entries g) (keep : Option E → Bool)
    (hkeep : ∀ v w, order v w = .eq → keep v = keep w) :
    Gathered order (entries.filter fun p => keep p.1) (g.filter fun e => keep e.1) := by
  have hclass : ∀ e : Option E × Chain K, keep e.1 = true →
      classOf order e.1 (entries.filter fun p => keep p.1) = classOf order e.1 entries := by
    intro e he
    unfold classOf
    rw [List.filter_filter]
    apply List.filter_congr
    intro p _
    by_cases hp : order p.1 e.1 = .eq
    · rw [hkeep p.1 e.1 hp, he, Bool.and_true]
    · simp [hp]
  refine ⟨h.ascending.sublist List.filter_sublist, ?_, ?_, ?_⟩
  · intro e he
    obtain ⟨he, hk⟩ := List.mem_filter.mp he
    rw [hclass e hk]
    exact h.first e he
  · intro e he
    obtain ⟨he, hk⟩ := List.mem_filter.mp he
    rw [hclass e hk]
    exact h.members e he
  · intro p hp
    obtain ⟨hp, hk⟩ := List.mem_filter.mp hp
    obtain ⟨e, he, heq⟩ := h.covers p hp
    exact ⟨e, List.mem_filter.mpr ⟨he, (hkeep e.1 p.1 heq).trans hk⟩, heq⟩

theorem of_ascending (h : Ascending order Prod.fst entries) :
    Gathered order entries (entries.map fun e => (e.1, Chain.single e.2)) := by
  have hclass : ∀ e ∈ entries, classOf order e.1 entries = [e] :=
    fun e he => classOf_of_ascending h he Std.ReflCmp.compare_self
  refine ⟨List.pairwise_map.mpr h, ?_, ?_, ?_⟩
  · intro g hg
    obtain ⟨e, he, rfl⟩ := List.mem_map.mp hg
    simp [hclass e he]
  · intro g hg
    obtain ⟨e, he, rfl⟩ := List.mem_map.mp hg
    simp [hclass e he]
  · intro p hp
    exact ⟨_, List.mem_map.mpr ⟨p, hp, rfl⟩, Std.ReflCmp.compare_self⟩

omit [Std.TransCmp order] in
theorem of_classOf {entries' : List (Option E × KeySet K)} (h : Gathered order entries g)
    (hmem : ∀ p, p ∈ entries' ↔ p ∈ entries)
    (hclass : ∀ v, classOf order v entries' = classOf order v entries) :
    Gathered order entries' g :=
  ⟨h.ascending, fun e he => by rw [hclass]; exact h.first e he,
    fun e he => by rw [hclass]; exact h.members e he,
    fun p hp => h.covers p ((hmem p).mp hp)⟩

end Gathered

namespace RangeResult

variable {given : List (Option E × KeySet K)} {g : List (Option E × Chain K)}
variable {last value : Option E} {keys : KeySet K} {chain : Chain K}

theorem gathered_join (h : Gathered order given (g ++ [(last, chain)])) (heq : order last value = .eq) :
    Gathered order (given ++ [(value, keys)]) (g ++ [(last, chain.push keys)]) := by
  obtain ⟨hasc, _, hbelow⟩ := Ascending.append_iff.mp h.ascending
  have hlast : ∀ e ∈ g, order e.1 last = .lt := fun e he => hbelow e he _ List.mem_cons_self
  have hne : ∀ e ∈ g, order value e.1 ≠ .eq := by
    intro e he hve
    have h1 := Std.TransCmp.eq_trans heq hve
    rw [Std.OrientedCmp.gt_of_lt (hlast e he)] at h1
    cases h1
  have hclass : classOf order last (given ++ [(value, keys)]) =
      classOf order last given ++ [(value, keys)] :=
    classOf_concat_of_eq (Std.OrientedCmp.eq_symm heq)
  refine ⟨Ascending.append_iff.mpr ⟨hasc, List.pairwise_singleton _ _, ?_⟩, ?_, ?_, ?_⟩
  · intro e he d hd
    rw [List.mem_singleton.mp hd]
    exact hlast e he
  · intro e he
    rcases List.mem_append.mp he with he | he
    · rw [classOf_concat_of_ne (hne e he)]
      exact h.first e (List.mem_append_left _ he)
    · have hfirst := h.first _ (List.mem_append_right g List.mem_cons_self)
      rw [List.mem_singleton.mp he, hclass, List.head?_append, Option.map_or, hfirst]
      rfl
  · intro e he
    rcases List.mem_append.mp he with he | he
    · rw [classOf_concat_of_ne (hne e he)]
      exact h.members e (List.mem_append_left _ he)
    · have hmembers := h.members _ (List.mem_append_right g List.mem_cons_self)
      rw [List.mem_singleton.mp he, hclass, List.map_append, ← hmembers]
      rfl
  · intro p hp
    rcases List.mem_append.mp hp with hp | hp
    · obtain ⟨e, he, hep⟩ := h.covers p hp
      rcases List.mem_append.mp he with he | he
      · exact ⟨e, List.mem_append_left _ he, hep⟩
      · rw [List.mem_singleton.mp he] at hep
        exact ⟨_, List.mem_append_right _ List.mem_cons_self, hep⟩
    · rw [List.mem_singleton.mp hp]
      exact ⟨_, List.mem_append_right _ List.mem_cons_self, heq⟩

theorem gathered_new (h : Gathered order given g) (hlt : ∀ e ∈ g, order e.1 value = .lt) :
    Gathered order (given ++ [(value, keys)]) (g ++ [(value, .single keys)]) := by
  have hself : order value value = .eq := Std.ReflCmp.compare_self
  have hne : ∀ e ∈ g, order value e.1 ≠ .eq := by
    intro e he heq
    rw [Std.OrientedCmp.gt_of_lt (hlt e he)] at heq
    cases heq
  have hown : classOf order value given = [] := by
    rw [List.eq_nil_iff_forall_not_mem]
    intro p hp
    obtain ⟨hp, heq⟩ := mem_classOf.mp hp
    obtain ⟨e, he, hep⟩ := h.covers p hp
    exact hne e he (Std.OrientedCmp.eq_symm (Std.TransCmp.eq_trans hep heq))
  have hclass : classOf order value (given ++ [(value, keys)]) = [(value, keys)] := by
    rw [classOf_concat_of_eq hself, hown, List.nil_append]
  refine ⟨Ascending.append_iff.mpr ⟨h.ascending, List.pairwise_singleton _ _, ?_⟩, ?_, ?_, ?_⟩
  · intro e he d hd
    rw [List.mem_singleton.mp hd]
    exact hlt e he
  · intro e he
    rcases List.mem_append.mp he with he | he
    · rw [classOf_concat_of_ne (hne e he)]
      exact h.first e he
    · rw [List.mem_singleton.mp he, hclass]
      rfl
  · intro e he
    rcases List.mem_append.mp he with he | he
    · rw [classOf_concat_of_ne (hne e he)]
      exact h.members e he
    · rw [List.mem_singleton.mp he, hclass]
      rfl
  · intro p hp
    rcases List.mem_append.mp hp with hp | hp
    · obtain ⟨e, he, hep⟩ := h.covers p hp
      exact ⟨e, List.mem_append_left _ he, hep⟩
    · rw [List.mem_singleton.mp hp]
      exact ⟨_, List.mem_append_right _ List.mem_cons_self, hself⟩

omit [Std.TransCmp order] in
theorem join_push (gathered : Array (Option E × Chain K)) :
    join order (gathered.push (last, chain)) (value, keys) =
      if order last value = .eq then gathered.push (last, chain.push keys)
      else (gathered.push (last, chain)).push (value, .single keys) := by
  simp only [join, Array.back?_push, Array.pop_push]

/-- An entry that is not below those given before is gathered with them. -/
theorem gathered_step {gathered : Array (Option E × Chain K)} (h : Gathered order given gathered.toList)
    (hle : ∀ p ∈ given, (order p.1 value).isLE) :
    Gathered order (given ++ [(value, keys)]) (join order gathered (value, keys)).toList := by
  by_cases hempty : gathered = #[]
  · subst hempty
    exact gathered_new h nofun
  obtain ⟨front, ⟨last, chain⟩, rfl⟩ := Array.exists_push_of_ne_empty hempty
  rw [Array.toList_push] at h
  rw [join_push]
  by_cases heq : order last value = .eq
  · rw [if_pos heq, Array.toList_push]
    exact gathered_join h heq
  · have hlt : order last value = .lt := by
      obtain ⟨p, hp, hpl⟩ := h.exists_given (List.mem_append_right _ List.mem_cons_self)
      have := hle p hp
      rw [hpl] at this
      exact (Ordering.isLE_iff_eq_lt_or_eq_eq.mp this).resolve_right heq
    rw [if_neg heq, Array.toList_push, Array.toList_push]
    refine gathered_new h fun e he => ?_
    rcases List.mem_append.mp he with he | he
    · have hel := (Ascending.append_iff.mp h.ascending).2.2 e he _ List.mem_cons_self
      exact Std.TransCmp.lt_trans hel hlt
    · rw [List.mem_singleton.mp he]
      exact hlt

omit [Std.TransCmp order] in
theorem gather_concat (entries : List (Option E × KeySet K)) (entry : Option E × KeySet K) :
    gather order (entries ++ [entry]) = join order (gather order entries) entry :=
  List.foldl_concat ..

/-- Joining neighbours that compare equal gathers entries whose values do not descend. -/
theorem gather_gathered {entries : List (Option E × KeySet K)}
    (h : entries.Pairwise fun a b => (order a.1 b.1).isLE) :
    Gathered order entries (gather order entries).toList := by
  induction entries using List.reverseRecOn with
  | nil => exact ⟨Ascending.nil, by simp [gather], by simp [gather], by simp⟩
  | append_singleton given entry ih =>
      obtain ⟨hgiven, _, hle⟩ := List.pairwise_append.mp h
      rw [gather_concat]
      exact gathered_step (ih hgiven) fun p hp => hle p hp entry List.mem_cons_self

theorem classOf_mergeSort (entries : List (Option E × KeySet K)) (v : Option E) :
    classOf order v (entries.mergeSort fun a b => (order a.1 b.1).isLE) =
      classOf order v entries :=
  filter_mergeSort Prod.fst entries v

variable [Ord E]

omit [Std.TransCmp order] in
/-- **Merging gathers by class**, whatever the order of the entries. -/
theorem merge_gathered (c : SafeComparator E) [Std.TransCmp c.order]
    (entries : List (Option E × KeySet K)) :
    Gathered c.order entries (merge c entries).entries.toList := by
  refine (gather_gathered (pairwise_mergeSort Prod.fst entries)).of_classOf ?_ ?_
  · intro p
    exact List.mem_mergeSort.symm
  · intro v
    exact (classOf_mergeSort entries v).symm

omit [Std.TransCmp order] in
theorem merge_of_ascending {c : SafeComparator E} [Std.TransCmp c.order]
    {entries : List (Option E × KeySet K)} (h : Ascending c.order Prod.fst entries) :
    (merge c entries).entries.toList = entries.map fun e => (e.1, Chain.single e.2) :=
  (merge_gathered c entries).unique (Gathered.of_ascending h)

/-! ### Looking values up in a result -/

omit [Std.TransCmp order]

variable {r : RangeResult K E} [Std.TransCmp r.comparator.order]

theorem get?_eq_some_iff (h : Ascending r.comparator.order Prod.fst r.entries.toList)
    (v : Option E) (chain : Chain K) :
    r.get? v = some chain ↔
      ∃ e ∈ r.entries.toList, r.comparator.order e.1 v = .eq ∧ e.2 = chain :=
  Bisection.map_find?_eq_some_iff h v Prod.snd chain

theorem contains_iff (h : Ascending r.comparator.order Prod.fst r.entries.toList)
    (v : Option E) :
    r.contains v = true ↔ ∃ e ∈ r.entries.toList, r.comparator.order e.1 v = .eq :=
  Bisection.isSome_find?_iff h v

end RangeResult

end PartitionedIndex
