import PartitionedIndex.Proofs.Ascending
import PartitionedIndex.Proofs.Comparator.Named

/-! # Null-safe comparators

What `SafeComparator.ensure` makes of a comparator, or of none, compares values as before and puts null
in front, so it is a total preorder just if the comparator is one (`ensure_extends`). The natural order
is linear. Making a safe comparator safe once more changes nothing that comparing, sharing functions or
sorting could show (`Indistinguishable`): a list that is sorted stably by the one, in whatever way, is
what the other sorts it to. Main statement: `as_lawful_with_null`. -/

namespace PartitionedIndex

/-- How the comparator of an index compares values: naturally if there is none. -/
def Comparator.valueOrder {E : Type} [Ord E] : Option (Comparator E) → E → E → Ordering
  | none => compare
  | some (.custom f) => f.order
  | some (.safe s) => s.compareValues

/-- A total preorder in which only the same compare equal. -/
structure LinearComparison {V : Type} (order : V → V → Ordering) : Prop
    extends TotalPreorder order where
  eq_iff : ∀ a b, order a b = .eq ↔ a = b

namespace SafeComparator

variable {E : Type} [Ord E] {s t : SafeComparator E}

/-- `s` extends an order of values to null, which is below them all, and keeps its laws. -/
structure Extends (s : SafeComparator E) (order : E → E → Ordering) : Prop
    extends NullFirst order s.order where
  lawful_iff : TotalPreorder s.order ↔ TotalPreorder order

theorem extends_compareValues (s : SafeComparator E) : s.Extends s.compareValues :=
  ⟨s.nullFirst, s.nullFirst.totalPreorder_iff⟩

theorem ensure_compareValues (c : Option (Comparator E)) :
    (ensure c).compareValues = Comparator.valueOrder c := by
  cases c with
  | none => rfl
  | some c => cases c <;> rfl

/-- A comparator is made safe by extending its own order to null. -/
theorem ensure_extends (c : Option (Comparator E)) : (ensure c).Extends (Comparator.valueOrder c) :=
  ensure_compareValues c ▸ (ensure c).extends_compareValues

/-! ### The natural order -/

theorem linear_natural [Std.TransOrd E] [Std.LawfulEqOrd E] :
    LinearComparison (natural : SafeComparator E).order where
  toTotalPreorder := totalPreorder_iff.mpr lawful_natural.transCmp
  eq_iff := separates_natural.order_eq_iff lawful_natural

/-! ### Comparators that cannot be told apart -/

/-- A lawful comparator sorts stably, and no other list comes of sorting stably by it. -/
theorem Lawful.stablySorted_iff (h : s.Lawful) (values l : List (Option E)) :
    StablySorted s.order id values l ↔ l = s.sort values := by
  have := h.transCmp
  have hsort : StablySorted s.order id values (s.sort values) := stablySorted_mergeSort id values
  constructor
  · intro hl
    exact hl.unique hsort
  · intro hl
    rw [hl]
    exact hsort

example : (ensure (some Comparator.backwards)).sort [some 1, none, some 3, some 2] =
    [none, some 3, some 2, some 1] := by cbv

/-- Two comparators compare every pair alike by a function they share, and sort every list alike:
whatever is sorted stably by the one is what the other makes of the list. -/
structure Indistinguishable (s t : SafeComparator E) : Prop where
  order_eq : ∀ v w, s.order v w = t.order v w
  sharesFunction : s.sharesFunction t = true
  sort_eq : ∀ values, s.sort values = t.sort values
  stablySorted_iff : t.Lawful → ∀ values l, StablySorted s.order id values l ↔ l = t.sort values

/-- How a comparator sorts hangs only on how it compares. -/
theorem Indistinguishable.of_order_eq (horder : ∀ v w, s.order v w = t.order v w)
    (hfunction : s.sharesFunction t = true) : Indistinguishable s t := by
  have heq : s.order = t.order := funext fun v => funext fun w => horder v w
  refine ⟨horder, hfunction, fun values => ?_, fun ht values l => ?_⟩
  · rw [sort, sort, heq]
  · rw [heq]
    exact ht.stablySorted_iff values l

theorem ensure_ensure (c : Option (Comparator E)) :
    Indistinguishable (ensure (some (.safe (ensure c)))) (ensure c) := by
  rw [ensure_safe]
  exact .of_order_eq (fun _ _ => rfl) (sharesFunction_self _)

/-- **Comparators are as lawful with null as without.** A function made safe, and the natural order,
extend to null and are total preorders just as before; the natural order is that of optional values,
and linear; a comparator of any form that has been made safe is not changed by making it safe again. -/
theorem as_lawful_with_null (f : Comparison E) (c : Option (Comparator E)) :
    (wrapped f).Extends f.order ∧
      ((natural : SafeComparator E).Extends compare ∧
        (∀ v w : Option E, natural.order v w = compare v w) ∧
        ∀ [Std.TransOrd E] [Std.LawfulEqOrd E], LinearComparison (natural : SafeComparator E).order) ∧
      (ensure c).Extends (Comparator.valueOrder c) ∧
      Indistinguishable (ensure (some (.safe (ensure c)))) (ensure c) :=
  ⟨extends_compareValues _, ⟨extends_compareValues _, order_natural, linear_natural⟩,
    ensure_extends c, ensure_ensure c⟩

/-- Numbers by their tens, where twelve and seventeen compare equal, and numbers backwards. -/
theorem as_lawful_with_null_tens :
    Std.TransOrd Int64 ∧ Std.LawfulEqOrd Int64 ∧
      (wrapped ⟨0, Order.bucket⟩ : SafeComparator Int64).Extends Order.bucket ∧
      TotalPreorder (wrapped ⟨0, Order.bucket⟩ : SafeComparator Int64).order ∧
      (wrapped ⟨0, Order.bucket⟩ : SafeComparator Int64).order (some 12) (some 17) = .eq ∧
      LinearComparison (natural : SafeComparator Int64).order ∧
      (ensure (some Comparator.backwards)).Extends Order.reverse ∧
      Indistinguishable (ensure (some (.safe (ensure (some Comparator.backwards)))))
        (ensure (some Comparator.backwards)) := by
  obtain ⟨htens, ⟨_, _, hlinear⟩, hbackwards, hagain⟩ :=
    as_lawful_with_null (⟨0, Order.bucket⟩ : Comparison Int64) (some Comparator.backwards)
  have hlawful : TotalPreorder Order.bucket := totalPreorder_iff.mpr inferInstance
  exact ⟨inferInstance, inferInstance, htens, htens.lawful_iff.mpr hlawful, by decide, hlinear,
    hbackwards, hagain⟩

end SafeComparator

end PartitionedIndex
