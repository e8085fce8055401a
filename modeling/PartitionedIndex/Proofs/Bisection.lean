import PartitionedIndex.Bisection
import PartitionedIndex.Bound
import PartitionedIndex.Proofs.Ascending

/-! # What bisection finds

Bisection is exact on every array in which the sought property holds up to a point and no further:
the point found separates the entries that have it from those that do not. On an ascending array
every comparison with a value is such a property, so looking a value up finds the one entry of its
class, and the stretch between two bounds is the entries within them. -/

namespace PartitionedIndex

namespace Bisection

variable {α : Type}

/-- A search keeps the point up to which the property holds in its stretch. -/
theorem search_iff (p : α → Bool) (a : Array α)
    (hp : ∀ (i j : Nat) (hi : i < a.size) (hj : j < a.size), i < j → p a[j] = true → p a[i] = true)
    (lo hi : Nat) (h : hi ≤ a.size)
    (hbelow : ∀ (j : Nat) (hj : j < a.size), j < lo → p a[j] = true)
    (habove : ∀ (j : Nat) (hj : j < a.size), hi ≤ j → p a[j] = false)
    (i : Nat) (hi' : i < a.size) : p a[i] = true ↔ i < search p a lo hi h := by
  fun_induction search p a lo hi h with
  | case1 lo hi h hlt hmid hpm ih =>
      refine ih ?_ habove
      intro j hj hjm
      rcases Nat.lt_or_eq_of_le (Nat.le_of_lt_succ hjm) with hjm | rfl
      · exact hp j _ hj hmid hjm hpm
      · exact hpm
  | case2 lo hi h hlt hmid hpm ih =>
      refine ih hbelow ?_
      intro j hj hjm
      rcases Nat.lt_or_eq_of_le hjm with hjm | rfl
      · exact Bool.eq_false_iff.mpr fun hpj => hpm (hp _ j hmid hj hjm hpj)
      · exact Bool.eq_false_iff.mpr hpm
  | case3 lo hi h hlt =>
      constructor
      · intro hpi
        rcases Nat.lt_or_ge i lo with hil | hil
        · exact hil
        · rw [habove i hi' (by omega)] at hpi
          cases hpi
      · exact hbelow i hi'

/-- Where no entry after one without the property has it, the point found is where it ends. -/
theorem partitionPoint_iff (p : α → Bool) (a : Array α)
    (hp : ∀ (i j : Nat) (hi : i < a.size) (hj : j < a.size), i < j → p a[j] = true → p a[i] = true)
    (i : Nat) (hi : i < a.size) : p a[i] = true ↔ i < partitionPoint p a :=
  search_iff p a hp 0 a.size (Nat.le_refl _) (fun j _ h => absurd h (Nat.not_lt_zero j))
    (fun _ hj h => absurd h (Nat.not_le_of_lt hj)) i hi

theorem filter_eq_take (p : α → Bool) (l : List α) (n : Nat)
    (hp : ∀ (i : Nat) (hi : i < l.length), p l[i] = true ↔ i < n) : l.filter p = l.take n := by
  induction l generalizing n with
  | nil => simp
  | cons a l ih =>
      have h0 := hp 0 (Nat.zero_lt_succ _)
      cases n with
      | zero =>
          rw [List.take_zero, List.filter_eq_nil_iff]
          intro b hb
          obtain ⟨i, hi, rfl⟩ := List.mem_iff_getElem.mp hb
          rw [hp i hi]
          omega
      | succ n =>
          have h0 : p a = true := h0.mpr (Nat.zero_lt_succ _)
          rw [List.take_succ_cons, List.filter_cons_of_pos h0, ih n]
          intro i hi
          have := hp (i + 1) (Nat.succ_lt_succ hi)
          rw [List.getElem_cons_succ] at this
          rw [this]
          omega

theorem filter_eq_drop (p : α → Bool) (l : List α) (n : Nat)
    (hp : ∀ (i : Nat) (hi : i < l.length), p l[i] = false ↔ i < n) : l.filter p = l.drop n := by
  induction l generalizing n with
  | nil => simp
  | cons a l ih =>
      have h0 := hp 0 (Nat.zero_lt_succ _)
      cases n with
      | zero =>
          rw [List.drop_zero, List.filter_eq_self]
          intro b hb
          obtain ⟨i, hi, rfl⟩ := List.mem_iff_getElem.mp hb
          have := hp i hi
          cases h : p (a :: l)[i] with
          | true => rfl
          | false => exact absurd (this.mp h) (Nat.not_lt_zero i)
      | succ n =>
          have h0 : p a = false := h0.mpr (Nat.zero_lt_succ _)
          rw [List.drop_succ_cons, List.filter_cons_of_neg (by simp [h0]), ih n]
          intro i hi
          have := hp (i + 1) (Nat.succ_lt_succ hi)
          rw [List.getElem_cons_succ] at this
          rw [this]
          omega

variable {V : Type} {order : V → V → Ordering} [Std.TransCmp order] {key : α → V}

/-- The entry found is the one whose class a value is in. -/
theorem find?_eq_some_iff {a : Array α} (h : Ascending order key a.toList) (v : V)
    (i : Fin a.size) :
    find? (fun x => order (key x) v) a = some i ↔ order (key a[i]) v = .eq := by
  have hlt : ∀ (i j : Nat) (hi : i < a.size) (hj : j < a.size), i < j →
      order (key a[i]) (key a[j]) = .lt := by
    intro i j hi hj hij
    exact List.pairwise_iff_getElem.mp h i j hi hj hij
  have hpoint := partitionPoint_iff (fun x => (order (key x) v).isLT) a (by
    intro i j hi hj hij hj'
    have hj' := Ordering.isLT_iff_eq_lt.mp hj'
    exact Ordering.isLT_iff_eq_lt.mpr (Std.TransCmp.lt_trans (hlt i j hi hj hij) hj'))
  unfold find?
  constructor
  · intro hf
    dsimp only at hf
    split at hf
    next hn =>
      split at hf
      next heq =>
        cases hf
        exact heq
      next => cases hf
    next => cases hf
  · intro heq
    have hle : ∀ j, j < i.val → j < partitionPoint (fun x => (order (key x) v).isLT) a := by
      intro j hj
      have hjs : j < a.size := by omega
      rw [← hpoint j hjs]
      exact Ordering.isLT_iff_eq_lt.mpr
        (Std.TransCmp.lt_of_lt_of_eq (hlt j i hjs i.isLt hj) heq)
    have hge : ¬ i.val < partitionPoint (fun x => (order (key x) v).isLT) a := by
      rw [← hpoint i i.isLt, Ordering.isLT_iff_eq_lt]
      intro hc
      rw [Fin.getElem_fin] at heq
      rw [heq] at hc
      cases hc
    have hi : partitionPoint (fun x => (order (key x) v).isLT) a = i.val := by
      rcases Nat.lt_or_ge (partitionPoint (fun x => (order (key x) v).isLT) a) i.val with hn | hn
      · exact absurd (hle _ hn) (Nat.lt_irrefl _)
      · omega
    dsimp only
    rw [dif_pos (hi ▸ i.isLt), if_pos (by simpa only [hi, Fin.getElem_fin] using heq)]
    simp only [hi]

theorem map_find?_eq_some_iff {β : Type} {a : Array α} (h : Ascending order key a.toList) (v : V)
    (f : α → β) (b : β) :
    (find? (fun x => order (key x) v) a).map (fun i => f a[i]) = some b ↔
      ∃ x ∈ a.toList, order (key x) v = .eq ∧ f x = b := by
  rw [Option.map_eq_some_iff]
  constructor
  · rintro ⟨i, hi, rfl⟩
    rw [find?_eq_some_iff h] at hi
    exact ⟨a[i], Array.mem_toList_iff.mpr (Array.getElem_mem i.isLt), hi, rfl⟩
  · rintro ⟨x, hx, heq, rfl⟩
    obtain ⟨i, hi, hget⟩ := Array.mem_iff_getElem.mp (Array.mem_toList_iff.mp hx)
    refine ⟨⟨i, hi⟩, ?_, ?_⟩
    · rw [find?_eq_some_iff h, Fin.getElem_fin, hget]
      exact heq
    · rw [Fin.getElem_fin, hget]

theorem isSome_find?_iff {a : Array α} (h : Ascending order key a.toList) (v : V) :
    (find? (fun x => order (key x) v) a).isSome = true ↔ ∃ x ∈ a.toList, order (key x) v = .eq := by
  rw [Option.isSome_iff_exists]
  constructor
  · rintro ⟨i, hi⟩
    rw [find?_eq_some_iff h] at hi
    exact ⟨a[i], Array.mem_toList_iff.mpr (Array.getElem_mem i.isLt), hi⟩
  · rintro ⟨x, hx, heq⟩
    obtain ⟨i, hi, hget⟩ := Array.mem_iff_getElem.mp (Array.mem_toList_iff.mp hx)
    refine ⟨⟨i, hi⟩, ?_⟩
    rw [find?_eq_some_iff h, Fin.getElem_fin, hget]
    exact heq

end Bisection

end PartitionedIndex
