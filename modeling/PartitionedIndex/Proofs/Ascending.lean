import Mathlib.Data.List.Forall2

/-! # Ascending lists

Lists whose items have strictly ascending keys under an order that may hold different keys for
equal. Such a list has at most one item for each class of equal keys, and the classes fix the
positions: two ascending lists with related items for the same classes are related position by
position (`Ascending.forall₂`). Sorting makes a list that does not descend and keeps the items of a
class in their order, and no other list does (`StablySorted.unique`). -/

namespace PartitionedIndex

variable {V α β : Type} {order : V → V → Ordering}

/-- The keys of the items ascend strictly. -/
def Ascending (order : V → V → Ordering) (key : α → V) (items : List α) : Prop :=
  items.Pairwise fun a b => order (key a) (key b) = .lt

namespace Ascending

theorem nil {key : α → V} : Ascending order key [] := List.Pairwise.nil

theorem cons_iff {key : α → V} {a : α} {items : List α} :
    Ascending order key (a :: items) ↔
      (∀ b ∈ items, order (key a) (key b) = .lt) ∧ Ascending order key items :=
  List.pairwise_cons

theorem append_iff {key : α → V} {l m : List α} :
    Ascending order key (l ++ m) ↔
      Ascending order key l ∧ Ascending order key m ∧
        ∀ a ∈ l, ∀ b ∈ m, order (key a) (key b) = .lt :=
  List.pairwise_append

theorem sublist {key : α → V} {l m : List α} (h : Ascending order key m) (hs : l.Sublist m) :
    Ascending order key l := List.Pairwise.sublist hs h

variable [Std.TransCmp order]

theorem nodup {keys : List V} (h : Ascending order id keys) : keys.Nodup := by
  refine List.Pairwise.imp ?_ h
  rintro v w hvw rfl
  have hself : order v v = .eq := Std.ReflCmp.compare_self
  rw [id, hself] at hvw
  cases hvw

/-- A class has one item at most. -/
theorem eq_of_mem {key : α → V} {items : List α} (h : Ascending order key items) {a b : α}
    (ha : a ∈ items) (hb : b ∈ items) (hab : order (key a) (key b) = .eq) : a = b := by
  induction items with
  | nil => cases ha
  | cons c rest ih =>
      obtain ⟨hc, hrest⟩ := cons_iff.mp h
      rcases List.mem_cons.mp ha with rfl | ha'
      · rcases List.mem_cons.mp hb with rfl | hb'
        · rfl
        · rw [hc b hb'] at hab
          cases hab
      · rcases List.mem_cons.mp hb with rfl | hb'
        · have hba := Std.OrientedCmp.eq_symm hab
          rw [hc a ha'] at hba
          cases hba
        · exact ih hrest ha' hb'

theorem first_iff_least {key : α → V} {items : List α} (h : Ascending order key items) (a : α)
    (p : α → Prop) :
    (∃ before after, items = before ++ a :: after ∧ ∀ b ∈ before, ¬p b) ↔
      a ∈ items ∧ ∀ b ∈ items, p b → (order (key a) (key b)).isLE := by
  constructor
  · rintro ⟨before, after, rfl, hbefore⟩
    refine ⟨by simp, fun b hb hp => ?_⟩
    obtain ⟨_, hrest, _⟩ := append_iff.mp h
    rcases List.mem_append.mp hb with hb | hb
    · exact absurd hp (hbefore b hb)
    · rcases List.mem_cons.mp hb with rfl | hb
      · exact Std.ReflCmp.isLE_rfl
      · rw [(cons_iff.mp hrest).1 b hb]
        rfl
  · rintro ⟨ha, hleast⟩
    obtain ⟨before, after, rfl⟩ := List.append_of_mem ha
    refine ⟨before, after, rfl, fun b hb hp => ?_⟩
    have hlt := (append_iff.mp h).2.2 b hb a List.mem_cons_self
    have hle := hleast b (List.mem_append_left _ hb) hp
    rw [Std.OrientedCmp.gt_of_lt hlt] at hle
    cases hle

theorem head?_eq_some_iff {key : α → V} {items : List α} (h : Ascending order key items) (a : α) :
    items.head? = some a ↔ a ∈ items ∧ ∀ b ∈ items, (order (key a) (key b)).isLE := by
  have hfirst := h.first_iff_least a fun _ => True
  simp only [true_imp_iff] at hfirst
  rw [← hfirst, List.head?_eq_some_iff]
  constructor
  · rintro ⟨after, hitems⟩
    exact ⟨[], after, hitems, nofun⟩
  · rintro ⟨before, after, hitems, hbefore⟩
    obtain rfl : before = [] := List.eq_nil_iff_forall_not_mem.mpr fun b hb => hbefore b hb trivial
    exact ⟨after, hitems⟩

theorem getLast?_eq_some_iff {key : α → V} {items : List α} (h : Ascending order key items) (a : α) :
    items.getLast? = some a ↔ a ∈ items ∧ ∀ b ∈ items, (order (key b) (key a)).isLE := by
  have : Std.TransCmp fun v w => order w v := Std.TransCmp.opposite
  have hdesc : Ascending (fun v w => order w v) key items.reverse := List.pairwise_reverse.mpr h
  rw [← List.head?_reverse, hdesc.head?_eq_some_iff]
  simp only [List.mem_reverse]

/-- Two ascending lists whose items are related class by class are related position by position. -/
theorem forall₂ {f : α → V} {g : β → V} {R : α → β → Prop} {l : List α} {m : List β}
    (hl : Ascending order f l) (hm : Ascending order g m)
    (hR : ∀ a b, R a b → order (f a) (g b) = .eq)
    (hlm : ∀ a ∈ l, ∃ b ∈ m, R a b) (hml : ∀ b ∈ m, ∃ a ∈ l, R a b) : List.Forall₂ R l m := by
  induction l generalizing m with
  | nil =>
      cases m with
      | nil => exact List.Forall₂.nil
      | cons b m =>
          obtain ⟨a, ha, _⟩ := hml b List.mem_cons_self
          cases ha
  | cons a l ih =>
      cases m with
      | nil =>
          obtain ⟨b, hb, _⟩ := hlm a List.mem_cons_self
          cases hb
      | cons b m =>
          obtain ⟨hal, hl'⟩ := cons_iff.mp hl
          obtain ⟨hbm, hm'⟩ := cons_iff.mp hm
          -- a partner of one head further down the other list would leave the other head alone
          have hab : R a b := by
            obtain ⟨b', hb', hr⟩ := hlm a List.mem_cons_self
            rcases List.mem_cons.mp hb' with rfl | hb'
            · exact hr
            · obtain ⟨a', ha', hr'⟩ := hml b List.mem_cons_self
              rcases List.mem_cons.mp ha' with rfl | ha'
              · exact hr'
              · have h1 := Std.TransCmp.lt_of_lt_of_eq (hal a' ha') (hR _ _ hr')
                have h2 := Std.TransCmp.lt_trans h1 (hbm b' hb')
                rw [hR _ _ hr] at h2
                cases h2
          refine List.Forall₂.cons hab (ih hl' hm' ?_ ?_)
          · intro a' ha'
            obtain ⟨b', hb', hr⟩ := hlm a' (List.mem_cons_of_mem _ ha')
            rcases List.mem_cons.mp hb' with rfl | hb'
            · have h1 := Std.TransCmp.lt_of_lt_of_eq (hal a' ha') (hR _ _ hr)
              rw [hR _ _ hab] at h1
              cases h1
            · exact ⟨b', hb', hr⟩
          · intro b' hb'
            obtain ⟨a', ha', hr⟩ := hml b' (List.mem_cons_of_mem _ hb')
            rcases List.mem_cons.mp ha' with rfl | ha'
            · have h1 := Std.TransCmp.lt_of_eq_of_lt (hR _ _ hab) (hbm b' hb')
              rw [hR _ _ hr] at h1
              cases h1
            · exact ⟨a', ha', hr⟩

theorem length_le {f : α → V} {g : β → V} {l : List α} {m : List β} (hl : Ascending order f l)
    (hm : Ascending order g m) (hlm : ∀ a ∈ l, ∃ b ∈ m, order (f a) (g b) = .eq) :
    l.length ≤ m.length := by
  have h2 : List.Forall₂ (fun a b => order (f a) (g b) = .eq) l
      (m.filter fun b => l.any fun a => order (f a) (g b) = .eq) := by
    refine forall₂ hl (hm.sublist List.filter_sublist) (fun _ _ h => h) ?_ ?_
    · intro a ha
      obtain ⟨b, hb, hab⟩ := hlm a ha
      refine ⟨b, List.mem_filter.mpr ⟨hb, ?_⟩, hab⟩
      exact List.any_eq_true.mpr ⟨a, ha, decide_eq_true hab⟩
    · intro b hb
      obtain ⟨a, ha, hab⟩ := List.any_eq_true.mp (List.mem_filter.mp hb).2
      exact ⟨a, ha, of_decide_eq_true hab⟩
  rw [h2.length_eq]
  exact List.length_filter_le _ _

theorem eq_of_mem_iff {key : α → V} {l m : List α} (hl : Ascending order key l)
    (hm : Ascending order key m) (h : ∀ a, a ∈ l ↔ a ∈ m) : l = m := by
  have h2 : List.Forall₂ (· = ·) l m := by
    refine forall₂ hl hm ?_ ?_ ?_
    · rintro a b rfl
      exact Std.ReflCmp.compare_self
    · intro a ha
      exact ⟨a, (h a).mp ha, rfl⟩
    · intro b hb
      exact ⟨b, (h b).mpr hb, rfl⟩
  exact List.forall₂_eq_eq_eq ▸ h2

end Ascending

/-! ### Sorting -/

section sorting

variable [Std.TransCmp order] {key : α → V}

theorem isLE_trans (a b c : α) (hab : (order (key a) (key b)).isLE)
    (hbc : (order (key b) (key c)).isLE) : (order (key a) (key c)).isLE :=
  Std.TransCmp.isLE_trans hab hbc

theorem isLE_total (a b : α) :
    ((order (key a) (key b)).isLE || (order (key b) (key a)).isLE) = true := by
  cases hab : order (key a) (key b) with
  | lt => rfl
  | eq => rfl
  | gt =>
      rw [Std.OrientedCmp.lt_of_gt hab]
      rfl

theorem pairwise_mergeSort (key : α → V) (items : List α) :
    (items.mergeSort fun a b => (order (key a) (key b)).isLE).Pairwise
      fun a b => (order (key a) (key b)).isLE :=
  List.pairwise_mergeSort isLE_trans isLE_total items

/-- Sorting keeps the items of a class in the order in which they were given. -/
theorem filter_mergeSort (key : α → V) (items : List α) (v : V) :
    ((items.mergeSort fun a b => (order (key a) (key b)).isLE).filter fun a => order (key a) v = .eq) =
      items.filter fun a => order (key a) v = .eq := by
  have hle : (items.filter fun a => order (key a) v = .eq).Pairwise
      fun a b => (order (key a) (key b)).isLE := by
    rw [List.pairwise_iff_forall_sublist]
    intro a b hab
    have ha := (List.mem_filter.mp (hab.subset List.mem_cons_self)).2
    have hb := (List.mem_filter.mp (hab.subset (List.mem_cons_of_mem _ List.mem_cons_self))).2
    rw [Std.TransCmp.eq_trans (of_decide_eq_true ha)
      (Std.OrientedCmp.eq_symm (of_decide_eq_true hb))]
    rfl
  have hsorted := List.sublist_mergeSort isLE_trans isLE_total hle List.filter_sublist
  have hsub := hsorted.filter fun a => order (key a) v = .eq
  simp only [List.filter_filter, Bool.and_self] at hsub
  refine (hsub.eq_of_length ?_).symm
  exact ((List.mergeSort_perm items _).filter _).length_eq.symm

/-- The items in an order in which their keys do not descend, where items whose keys compare equal
are in the order in which they were given. -/
structure StablySorted (order : V → V → Ordering) (key : α → V) (items sorted : List α) : Prop where
  perm : sorted.Perm items
  ascends : sorted.Pairwise fun a b => (order (key a) (key b)).isLE
  stable : ∀ v, (sorted.filter fun a => order (key a) v = .eq) =
    items.filter fun a => order (key a) v = .eq

theorem stablySorted_mergeSort (key : α → V) (items : List α) :
    StablySorted order key items (items.mergeSort fun a b => (order (key a) (key b)).isLE) :=
  ⟨List.mergeSort_perm items _, pairwise_mergeSort key items, filter_mergeSort key items⟩

theorem isLE_of_mem_cons {a b : α} {l : List α}
    (h : (a :: l).Pairwise fun a b => (order (key a) (key b)).isLE) (hb : b ∈ a :: l) :
    (order (key a) (key b)).isLE := by
  rcases List.mem_cons.mp hb with rfl | hb
  · exact Std.ReflCmp.isLE_rfl
  · exact (List.pairwise_cons.mp h).1 b hb

theorem eq_of_perm_of_filter_eq {l m : List α} (hp : l.Perm m)
    (hl : l.Pairwise fun a b => (order (key a) (key b)).isLE)
    (hm : m.Pairwise fun a b => (order (key a) (key b)).isLE)
    (hclass : ∀ v, (l.filter fun a => order (key a) v = .eq) =
      m.filter fun a => order (key a) v = .eq) : l = m := by
  induction l generalizing m with
  | nil => exact hp.nil_eq
  | cons a l ih =>
      cases m with
      | nil => exact hp.eq_nil
      | cons b m =>
          have hab : order (key a) (key b) = .eq :=
            Std.OrientedCmp.isLE_antisymm (isLE_of_mem_cons hl (hp.mem_iff.mpr List.mem_cons_self))
              (isLE_of_mem_cons hm (hp.mem_iff.mp List.mem_cons_self))
          have hbb : order (key b) (key b) = .eq := Std.ReflCmp.compare_self
          have hheads := hclass (key b)
          simp only [List.filter_cons, hab, hbb, decide_true, if_true] at hheads
          obtain rfl : a = b := (List.cons.inj hheads).1
          refine congrArg (a :: ·) (ih hp.cons_inv hl.tail hm.tail fun v => ?_)
          have hv := hclass v
          rw [List.filter_cons, List.filter_cons] at hv
          split at hv
          · exact (List.cons.inj hv).2
          · exact hv

/-- There is one way only to sort items stably. -/
theorem StablySorted.unique {items l m : List α} (hl : StablySorted order key items l)
    (hm : StablySorted order key items m) : l = m :=
  eq_of_perm_of_filter_eq (hl.perm.trans hm.perm.symm) hl.ascends hm.ascends
    fun v => (hl.stable v).trans (hm.stable v).symm

end sorting

end PartitionedIndex
