import PartitionedIndex.Bound
import PartitionedIndex.Proofs.Ascending

/-! # Bounds follow the order

Under a lawful order a lower bound goes on admitting values upwards, an upper bound downwards, and
values of one class are within the same bounds. Nothing is between bounds in the wrong order. Ranges
that meet, one beginning where the other ends, make up one range of ascending items
(`filter_between_append`). -/

namespace PartitionedIndex.Bound

variable {V : Type} {order : V → V → Ordering}

theorem filter_between_unbounded {α : Type} (order : V → V → Ordering) (key : α → V)
    (items : List α) : (items.filter fun a => between order .unbounded .unbounded (key a)) = items :=
  List.filter_eq_self.mpr fun _ _ => rfl

variable [Std.TransCmp order]

theorem admitsAbove_of_isLE (b : Bound V) {v w : V} (hvw : (order v w).isLE)
    (hv : b.admitsAbove order v = true) : b.admitsAbove order w = true := by
  cases b with
  | unbounded => rfl
  | included a =>
      simp only [admitsAbove, Std.OrientedCmp.isGE_iff_isLE] at hv ⊢
      exact Std.TransCmp.isLE_trans hv hvw
  | excluded a =>
      simp only [admitsAbove, Std.OrientedCmp.isGT_eq_isLT, Ordering.isLT_iff_eq_lt] at hv ⊢
      exact Std.TransCmp.lt_of_lt_of_isLE hv hvw

theorem admitsBelow_of_isLE (b : Bound V) {v w : V} (hvw : (order v w).isLE)
    (hw : b.admitsBelow order w = true) : b.admitsBelow order v = true := by
  cases b with
  | unbounded => rfl
  | included a => exact Std.TransCmp.isLE_trans hvw hw
  | excluded a =>
      simp only [admitsBelow, Ordering.isLT_iff_eq_lt] at hw ⊢
      exact Std.TransCmp.lt_of_isLE_of_lt hvw hw

theorem between_congr (lower upper : Bound V) {v w : V} (hvw : order v w = .eq) :
    between order lower upper v = between order lower upper w := by
  have hle : (order v w).isLE := by rw [hvw]; rfl
  have hge : (order w v).isLE := by rw [Std.OrientedCmp.eq_symm hvw]; rfl
  unfold between
  rw [Bool.eq_iff_iff, Bool.and_eq_true, Bool.and_eq_true]
  exact ⟨fun h => ⟨admitsAbove_of_isLE lower hle h.1, admitsBelow_of_isLE upper hge h.2⟩,
    fun h => ⟨admitsAbove_of_isLE lower hge h.1, admitsBelow_of_isLE upper hle h.2⟩⟩

/-! ### Bounds in the wrong order -/

/-- The bounds are in the wrong order: the lower one is at a value above that of the upper one, or at
one of the same class that one of them leaves out. -/
def Inverted (order : V → V → Ordering) : Bound V → Bound V → Prop
  | included a, included b => order a b = .gt
  | included a, excluded b | excluded a, included b | excluded a, excluded b => order a b ≠ .lt
  | _, _ => False

/-- Nothing is between bounds in the wrong order. -/
theorem between_of_inverted {lower upper : Bound V} (h : Inverted order lower upper) (v : V) :
    between order lower upper v = false := by
  rw [Bool.eq_false_iff]
  intro hv
  rw [between, Bool.and_eq_true] at hv
  obtain ⟨ha, hb⟩ := hv
  cases lower with
  | unbounded => exact h
  | included a =>
      have ha : (order a v).isLE := Std.OrientedCmp.isGE_iff_isLE.mp ha
      cases upper with
      | unbounded => exact h
      | included b => exact Ordering.isLE_iff_ne_gt.mp (Std.TransCmp.isLE_trans ha hb) h
      | excluded b => exact h (Std.TransCmp.lt_of_isLE_of_lt ha (Ordering.isLT_iff_eq_lt.mp hb))
  | excluded a =>
      have ha : order a v = .lt := Std.OrientedCmp.gt_iff_lt.mp (Ordering.isGT_iff_eq_gt.mp ha)
      cases upper with
      | unbounded => exact h
      | included b => exact h (Std.TransCmp.lt_of_lt_of_isLE ha hb)
      | excluded b => exact h (Std.TransCmp.lt_trans ha (Ordering.isLT_iff_eq_lt.mp hb))

/-! ### Ranges that meet -/

omit [Std.TransCmp order] in
theorem admitsAbove_included (a v : V) :
    (included a).admitsAbove order v = !(excluded a).admitsBelow order v := by
  simp only [admitsAbove, admitsBelow]
  cases order v a <;> rfl

omit [Std.TransCmp order] in
theorem admitsAbove_excluded (a v : V) :
    (excluded a).admitsAbove order v = !(included a).admitsBelow order v := by
  simp only [admitsAbove, admitsBelow]
  cases order v a <;> rfl

/-- Of ascending items those in a range are the ones up to a point within it and the ones from there
on: `stop` is where the first part ends, and `start` is where the second begins. -/
theorem filter_between_append {α : Type} {key : α → V} {items : List α}
    (h : Ascending order key items) {lower stop start upper : Bound V}
    (hmeet : ∀ v, start.admitsAbove order v = !stop.admitsBelow order v)
    (hlower : ∀ v, start.admitsAbove order v = true → lower.admitsAbove order v = true)
    (hupper : ∀ v, stop.admitsBelow order v = true → upper.admitsBelow order v = true) :
    (items.filter fun a => between order lower stop (key a)) ++
      (items.filter fun a => between order start upper (key a)) =
        items.filter fun a => between order lower upper (key a) := by
  induction items with
  | nil => rfl
  | cons a rest ih =>
      obtain ⟨ha, hrest⟩ := Ascending.cons_iff.mp h
      cases hstop : stop.admitsBelow order (key a) with
      | true =>
          have hfirst : between order lower upper (key a) = between order lower stop (key a) := by
            rw [between, between, hstop, hupper _ hstop]
          have hsecond : between order start upper (key a) = false := by
            rw [between, hmeet, hstop, Bool.not_true, Bool.false_and]
          simp only [List.filter_cons, hfirst, hsecond, ← ih hrest]
          split <;> simp
      | false =>
          have hended : ∀ b ∈ a :: rest, stop.admitsBelow order (key b) = false := by
            intro b hb
            rcases List.mem_cons.mp hb with rfl | hb
            · exact hstop
            · rw [Bool.eq_false_iff] at hstop ⊢
              exact fun hin => hstop (stop.admitsBelow_of_isLE (by rw [ha b hb]; rfl) hin)
          rw [List.filter_eq_nil_iff.mpr fun b hb => by simp [between, hended b hb], List.nil_append]
          apply List.filter_congr
          intro b hb
          have hstart : start.admitsAbove order (key b) = true := by rw [hmeet, hended b hb]; rfl
          rw [between, between, hstart, hlower _ hstart]

end PartitionedIndex.Bound
