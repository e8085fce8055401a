import PartitionedIndex.Comparator

/-! # Lawful comparators

A comparator is lawful when its values are in a total preorder; different values may compare equal,
unless it separates values. A safe comparator puts null before all values (`NullFirst`), and each law
of a total preorder holds with null just if it holds without (`NullFirst.totalPreorder_iff`). So the
order of nullable values is a total preorder if that of the values is, and separates them if the
comparator does. -/

namespace PartitionedIndex

/-! ### The laws of a total preorder -/

section laws

variable {V : Type} {order : V → V → Ordering}

/-- The laws of a total preorder: everything compares equal to itself, a comparison the other way
round has the opposite outcome, and both "not above" and "equal" are transitive. -/
structure TotalPreorder (order : V → V → Ordering) : Prop where
  refl : ∀ a, order a a = .eq
  swap : ∀ a b, order b a = (order a b).swap
  le_trans : ∀ a b c, (order a b).isLE → (order b c).isLE → (order a c).isLE
  eq_trans : ∀ a b c, order a b = .eq → order b c = .eq → order a c = .eq

/-- A comparison is a total preorder just if it is oriented and transitive. -/
theorem totalPreorder_iff : TotalPreorder order ↔ Std.TransCmp order := by
  constructor
  · intro h
    exact { eq_swap := h.swap _ _, isLE_trans := h.le_trans _ _ _ }
  · intro _
    exact ⟨fun _ => Std.ReflCmp.compare_self, fun _ _ => Std.OrientedCmp.eq_swap,
      fun _ _ _ => Std.TransCmp.isLE_trans, fun _ _ _ => Std.TransCmp.eq_trans⟩

end laws

/-! ### Null before all values -/

variable {E : Type}

/-- Nullable values are compared as values are, and null is below every value and equal to itself
only. -/
structure NullFirst (order : E → E → Ordering) (nullable : Option E → Option E → Ordering) : Prop where
  order_some : ∀ a b, nullable (some a) (some b) = order a b
  null_lt : ∀ a, nullable none (some a) = .lt
  gt_null : ∀ a, nullable (some a) none = .gt
  null_eq_iff : ∀ v, nullable none v = .eq ↔ v = none
  eq_null_iff : ∀ v, nullable v none = .eq ↔ v = none

namespace NullFirst

variable {order : E → E → Ordering} {nullable : Option E → Option E → Ordering}
  (h : NullFirst order nullable)
include h

theorem null_self : nullable none none = .eq := (h.eq_null_iff none).mpr rfl

theorem null_le (v : Option E) : (nullable none v).isLE := by
  cases v with
  | none =>
      rw [h.null_self]
      rfl
  | some a =>
      rw [h.null_lt]
      rfl

theorem eq_none_of_le_null {v : Option E} (hv : (nullable v none).isLE) : v = none := by
  cases v with
  | none => rfl
  | some a =>
      rw [h.gt_null] at hv
      cases hv

theorem refl_iff : (∀ v, nullable v v = .eq) ↔ ∀ a, order a a = .eq := by
  constructor
  · intro hn a
    exact (h.order_some a a).symm.trans (hn (some a))
  · intro ho v
    cases v with
    | none => exact h.null_self
    | some a => exact (h.order_some a a).trans (ho a)

theorem swap_iff : (∀ v w, nullable w v = (nullable v w).swap) ↔
    ∀ a b, order b a = (order a b).swap := by
  constructor
  · intro hn a b
    rw [← h.order_some, ← h.order_some]
    exact hn (some a) (some b)
  · intro ho v w
    cases v with
    | none =>
        cases w with
        | none =>
            rw [h.null_self]
            rfl
        | some b =>
            rw [h.null_lt, h.gt_null]
            rfl
    | some a =>
        cases w with
        | none =>
            rw [h.null_lt, h.gt_null]
            rfl
        | some b =>
            rw [h.order_some, h.order_some]
            exact ho a b

theorem le_trans_iff :
    (∀ u v w, (nullable u v).isLE → (nullable v w).isLE → (nullable u w).isLE) ↔
      ∀ a b c, (order a b).isLE → (order b c).isLE → (order a c).isLE := by
  constructor
  · intro hn a b c
    simp only [← h.order_some]
    exact hn (some a) (some b) (some c)
  · intro ho u v w huv hvw
    cases u with
    | none => exact h.null_le w
    | some a =>
        cases v with
        | none => cases h.eq_none_of_le_null huv
        | some b =>
            cases w with
            | none => cases h.eq_none_of_le_null hvw
            | some c =>
                rw [h.order_some] at huv hvw ⊢
                exact ho a b c huv hvw

theorem eq_trans_iff :
    (∀ u v w, nullable u v = .eq → nullable v w = .eq → nullable u w = .eq) ↔
      ∀ a b c, order a b = .eq → order b c = .eq → order a c = .eq := by
  constructor
  · intro hn a b c
    simp only [← h.order_some]
    exact hn (some a) (some b) (some c)
  · intro ho u v w huv hvw
    cases v with
    | none =>
        rw [(h.eq_null_iff u).mp huv, (h.null_eq_iff w).mp hvw]
        exact h.null_self
    | some b =>
        cases u with
        | none => cases (h.null_eq_iff _).mp huv
        | some a =>
            cases w with
            | none => cases (h.eq_null_iff _).mp hvw
            | some c =>
                rw [h.order_some] at huv hvw ⊢
                exact ho a b c huv hvw

/-- Nullable values are in a total preorder just if the values are. -/
theorem totalPreorder_iff : TotalPreorder nullable ↔ TotalPreorder order := by
  constructor
  · intro ⟨hrefl, hswap, hle, heq⟩
    exact ⟨h.refl_iff.mp hrefl, h.swap_iff.mp hswap, h.le_trans_iff.mp hle, h.eq_trans_iff.mp heq⟩
  · intro ⟨hrefl, hswap, hle, heq⟩
    exact ⟨h.refl_iff.mpr hrefl, h.swap_iff.mpr hswap, h.le_trans_iff.mpr hle, h.eq_trans_iff.mpr heq⟩

end NullFirst

/-! ### Safe comparators -/

namespace SafeComparator

variable [Ord E]

theorem nullFirst (s : SafeComparator E) : NullFirst s.compareValues s.order where
  order_some _ _ := rfl
  null_lt _ := rfl
  gt_null _ := rfl
  null_eq_iff v := by cases v <;> simp [order]
  eq_null_iff v := by cases v <;> simp [order]

/-- The comparator puts values in a total preorder. -/
def Lawful (s : SafeComparator E) : Prop := Std.TransCmp s.compareValues

theorem lawful_natural [h : Std.TransOrd E] : (natural : SafeComparator E).Lawful := h

theorem Lawful.transCmp {s : SafeComparator E} (h : s.Lawful) : Std.TransCmp s.order :=
  totalPreorder_iff.mp (s.nullFirst.totalPreorder_iff.mpr (totalPreorder_iff.mpr h))

theorem order_none_ne_lt (s : SafeComparator E) (v : Option E) : s.order v none ≠ .lt := by
  cases v <;> simp [order]

/-- Nullable values are in one class when they compare equal. -/
def Lawful.classes {s : SafeComparator E} (h : s.Lawful) : Setoid (Option E) where
  r v w := s.order v w = .eq
  iseqv :=
    have := h.transCmp
    ⟨fun _ => Std.ReflCmp.compare_self, Std.OrientedCmp.eq_symm, Std.TransCmp.eq_trans⟩

/-- Only the same values compare equal. -/
def Separates (s : SafeComparator E) : Prop := ∀ a b, s.compareValues a b = .eq → a = b

theorem separates_natural [Std.LawfulEqOrd E] : (natural : SafeComparator E).Separates :=
  fun _ _ h => Std.LawfulEqOrd.eq_of_compare h

/-- If only the same values compare equal, so do only the same nullable values. -/
theorem Separates.order_eq_iff {s : SafeComparator E} (h : s.Separates) (hs : s.Lawful)
    (v w : Option E) : s.order v w = .eq ↔ v = w := by
  have := hs.transCmp
  constructor
  · intro hvw
    cases v with
    | none =>
        cases w with
        | none => rfl
        | some b => cases hvw
    | some a =>
        cases w with
        | none => cases hvw
        | some b => rw [h a b hvw]
  · intro hvw
    rw [hvw]
    exact Std.ReflCmp.compare_self

end SafeComparator

end PartitionedIndex
