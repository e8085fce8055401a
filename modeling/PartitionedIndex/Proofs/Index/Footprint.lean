import Mathlib.Algebra.Order.Ring.Nat
import PartitionedIndex.Proofs.Index.Insertion
import PartitionedIndex.Proofs.Index.Representation

/-! # Footprints follow the contents

The footprint of an index is settled by the numbers of its keys and of its values. There are no more
values than keys, as every value has a key that no other value has, so sixty-four bits are enough
for every step of the estimate (`Footprint.Fits`). A write that adds a key takes no value away, and
one that takes a key away adds none, so the footprint grows and shrinks with the keys. A key that is
indexed anew under its value may make an entry of its own that it left before, but there are as many
of them as there were. Main statement: `units_track_contents`. -/

namespace PartitionedIndex

/-! ### The estimate -/

namespace Footprint

/-- The units of so many keys and values, in natural numbers. -/
def exactUnits (keyBytes valueBytes keys values : Nat) : Nat :=
  keys * (keyBytes + valueBytes + 16) + (values * (valueBytes + 16) + keys * (keyBytes + 16))

/-- No sum and no product of the estimate takes more than sixty-four bits. -/
structure Fits (keyBytes valueBytes keys values : Nat) : Prop where
  forward_slot : keyBytes + valueBytes + 16 < 2 ^ 64
  forward : keys * (keyBytes + valueBytes + 16) < 2 ^ 64
  value_slot : valueBytes + 16 < 2 ^ 64
  by_value : values * (valueBytes + 16) < 2 ^ 64
  key_slot : keyBytes + 16 < 2 ^ 64
  by_key : keys * (keyBytes + 16) < 2 ^ 64
  inverse : values * (valueBytes + 16) + keys * (keyBytes + 16) < 2 ^ 64
  total : exactUnits keyBytes valueBytes keys values < 2 ^ 64

variable {keyBytes valueBytes keys values keys' values' : Nat}

theorem fits_of_le (hkey : keyBytes ≤ 24) (hvalue : valueBytes ≤ 24) (hkeys : keys ≤ 2 ^ 56)
    (hvalues : values ≤ keys) : Fits keyBytes valueBytes keys values := by
  have hforward : keys * (keyBytes + valueBytes + 16) ≤ 2 ^ 56 * 64 :=
    Nat.mul_le_mul hkeys (by omega)
  have hbyvalue : values * (valueBytes + 16) ≤ 2 ^ 56 * 40 :=
    Nat.mul_le_mul (Nat.le_trans hvalues hkeys) (by omega)
  have hbykey : keys * (keyBytes + 16) ≤ 2 ^ 56 * 40 := Nat.mul_le_mul hkeys (by omega)
  refine ⟨by omega, by omega, by omega, by omega, by omega, by omega, by omega, ?_⟩
  rw [exactUnits]
  omega

/-- An estimate that fits is exact. -/
theorem Fits.toNat_units (h : Fits keyBytes valueBytes keys values) (hkeys : keys < 2 ^ 64)
    (hvalues : values < 2 ^ 64) :
    (units (.ofNat keyBytes) (.ofNat valueBytes) (.ofNat keys) (.ofNat values)).toNat =
      exactUnits keyBytes valueBytes keys values := by
  have hkb : keyBytes < 2 ^ 64 := by have := h.key_slot; omega
  have hvb : valueBytes < 2 ^ 64 := by have := h.value_slot; omega
  have hsum : keyBytes + valueBytes < 2 ^ 64 := by have := h.forward_slot; omega
  have htotal := h.total
  have hcost : slotCost.toNat = 16 := rfl
  rw [exactUnits] at htotal ⊢
  simp only [units, UInt64.toNat_add, UInt64.toNat_mul, UInt64.toNat_ofNat', hcost,
    Nat.mod_eq_of_lt hkb, Nat.mod_eq_of_lt hvb, Nat.mod_eq_of_lt hsum, Nat.mod_eq_of_lt hkeys,
    Nat.mod_eq_of_lt hvalues, Nat.mod_eq_of_lt h.forward_slot, Nat.mod_eq_of_lt h.forward,
    Nat.mod_eq_of_lt h.value_slot, Nat.mod_eq_of_lt h.by_value, Nat.mod_eq_of_lt h.key_slot,
    Nat.mod_eq_of_lt h.by_key, Nat.mod_eq_of_lt h.inverse, Nat.mod_eq_of_lt htotal]

theorem exactUnits_lt (hkeys : keys < keys') (hvalues : values ≤ values') :
    exactUnits keyBytes valueBytes keys values < exactUnits keyBytes valueBytes keys' values' := by
  have hforward : keys * (keyBytes + valueBytes + 16) < keys' * (keyBytes + valueBytes + 16) :=
    Nat.mul_lt_mul_of_pos_right hkeys (by omega)
  have hbyvalue : values * (valueBytes + 16) ≤ values' * (valueBytes + 16) :=
    Nat.mul_le_mul_right _ hvalues
  have hbykey : keys * (keyBytes + 16) ≤ keys' * (keyBytes + 16) :=
    Nat.mul_le_mul_right _ (Nat.le_of_lt hkeys)
  rw [exactUnits, exactUnits]
  omega

theorem exactUnits_eq_zero_iff (hvalues : values ≤ keys) :
    exactUnits keyBytes valueBytes keys values = 0 ↔ keys = 0 := by
  constructor
  · intro h
    by_contra hkeys
    have hlt : exactUnits keyBytes valueBytes 0 0 < exactUnits keyBytes valueBytes keys values :=
      exactUnits_lt (Nat.pos_of_ne_zero hkeys) (Nat.zero_le _)
    omega
  · intro h
    obtain rfl : values = 0 := by omega
    rw [h, exactUnits]
    omega

end Footprint

namespace Index

variable {K E : Type} [Ord K] [Ord E] [Std.TransOrd K] [Std.TransOrd E] {i j : Index K E}

/-! ### Numbers of keys and values -/

omit [Std.TransOrd E] in
theorem getElem?_of_absent {key : K} (h : i.get key = .absent) : i.forward[key]? = none := by
  unfold get at h
  cases hf : i.forward[key]? with
  | none => rfl
  | some v =>
      rw [hf] at h
      cases h

omit [Std.TransOrd E] in
theorem keyCount_eq_zero_iff : i.keyCount = 0 ↔ ∀ key, i.get key = .absent := by
  rw [keyCount, ← Std.ExtTreeMap.eq_empty_iff_size_eq_zero]
  constructor
  · intro h key
    rw [get, h, Std.ExtTreeMap.getElem?_empty, Lookup.ofOption]
  · intro h
    apply Std.ExtTreeMap.eq_empty_iff_forall_not_mem.mpr
    intro key hkey
    rw [Std.ExtTreeMap.mem_iff_isSome_getElem?, getElem?_of_absent (h key)] at hkey
    cases hkey

theorem keyCount_put_of_absent {key : K} (h : i.get key = .absent) (value : Option E) :
    (i.put key value).keyCount = i.keyCount + 1 := by
  have hnone := getElem?_of_absent h
  have hdrop : i.drop key = i := by rw [drop, hnone]
  have hnew : i.forward.contains key = false := by
    rw [Std.ExtTreeMap.contains_eq_isSome_getElem?, hnone]
    rfl
  simp only [keyCount, put, hdrop, Std.ExtTreeMap.size_insert, hnew, if_neg Bool.false_ne_true]

theorem keyCount_drop_lt {key : K} (h : i.forward.contains key = true) :
    (i.drop key).keyCount < i.keyCount := by
  obtain ⟨value, hvalue⟩ :=
    Option.isSome_iff_exists.mp (Std.ExtTreeMap.contains_eq_isSome_getElem?.symm.trans h)
  have hpos : 0 < i.keyCount := by
    apply Nat.pos_of_ne_zero
    intro hzero
    have habsent := getElem?_of_absent (keyCount_eq_zero_iff.mp hzero key)
    rw [habsent] at hvalue
    cases hvalue
  have hsize : (i.drop key).keyCount = i.keyCount - 1 := by
    simp only [drop, hvalue, keyCount, Std.ExtTreeMap.size_erase, if_pos h]
  omega

namespace Coherent

/-- An index has no more distinct values than keys. -/
theorem size_le_keyCount [Std.LawfulEqOrd K] (h : i.Coherent) : i.contents.size ≤ i.keyCount := by
  have hpos : ∀ n ∈ i.contents.entries.map fun e => e.2.size, 1 ≤ n := by
    intro n hn
    obtain ⟨e, he, rfl⟩ := List.mem_map.mp hn
    have hne := h.wellFormed.inhabited e he
    rw [Std.ExtTreeSet.isEmpty_eq_size_beq_zero, beq_eq_false_iff_ne] at hne
    exact Nat.pos_of_ne_zero hne
  have hle := List.length_le_sum_of_one_le _ hpos
  rwa [List.length_map, h.sum_sizes, ← Contents.size_eq_length] at hle

theorem size_le_size (hi : i.Coherent) (hj : j.Coherent)
    (ho : j.contents.ordering = i.contents.ordering)
    (hget : ∀ key v, i.get key = .indexed v → j.get key = .indexed v) :
    i.contents.size ≤ j.contents.size := by
  have := hi.wellFormed.transCmp
  have horder := Contents.order_congr ho
  rw [Contents.size_eq_length, Contents.size_eq_length]
  refine hi.wellFormed.ascending.length_le (horder ▸ hj.wellFormed.ascending) ?_
  intro e he
  obtain ⟨key, _, w, hw, hwe⟩ := hi.exists_key he
  obtain ⟨d, hd, hdw, _⟩ := hj.exists_entry (hget key w hw)
  rw [horder] at hdw
  exact ⟨d, hd, Std.OrientedCmp.eq_symm (Std.TransCmp.eq_trans hdw hwe)⟩

variable [Std.LawfulEqOrd K] [Stored K] [Stored E]

/-- The footprint depends on the values of the keys only. -/
theorem units_congr (hi : i.Coherent) (hj : j.Coherent)
    (ho : j.contents.ordering = i.contents.ordering) (hget : ∀ key, j.get key = i.get key) :
    j.units = i.units := by
  have hcount : j.keyCount = i.keyCount := congrArg Std.ExtTreeMap.size (forward_eq hget)
  have hsize : j.contents.size = i.contents.size := by
    apply Nat.le_antisymm
    · exact hj.size_le_size hi ho.symm fun key v h => by rw [← hget, h]
    · exact hi.size_le_size hj ho fun key v h => by rw [hget, h]
  rw [units, units, hcount, hsize]

section

variable (hk : Stored.bytes K ≤ 24) (he : Stored.nullableBytes E ≤ 24)
include hk he

theorem fits (h : i.Coherent) (hcount : i.keyCount ≤ 2 ^ 56) :
    Footprint.Fits (Stored.bytes K) (Stored.nullableBytes E) i.keyCount i.contents.size :=
  Footprint.fits_of_le hk he hcount h.size_le_keyCount

theorem toNat_units (h : i.Coherent) (hcount : i.keyCount ≤ 2 ^ 56) :
    i.units.toNat =
      Footprint.exactUnits (Stored.bytes K) (Stored.nullableBytes E) i.keyCount i.contents.size := by
  have hsize := h.size_le_keyCount
  exact (h.fits hk he hcount).toNat_units (by omega) (by omega)

theorem units_lt_units (hi : i.Coherent) (hj : j.Coherent) (hcount : j.keyCount ≤ 2 ^ 56)
    (hlt : i.keyCount < j.keyCount) (ho : j.contents.ordering = i.contents.ordering)
    (hget : ∀ key v, i.get key = .indexed v → j.get key = .indexed v) : i.units < j.units := by
  rw [UInt64.lt_iff_toNat_lt, hi.toNat_units hk he (by omega), hj.toNat_units hk he hcount]
  exact Footprint.exactUnits_lt hlt (hi.size_le_size hj ho hget)

theorem units_lt_put (h : i.Coherent) (hcount : i.keyCount < 2 ^ 56) {key : K} {value : Option E}
    (hc : i.conflicts key value = false) (hnew : i.get key = .absent) :
    i.units < (i.put key value).units := by
  have hmore := keyCount_put_of_absent hnew value
  refine h.units_lt_units hk he (h.put hc) (by omega) (by omega) (i.ordering_put key value) ?_
  intro other v hv
  rw [get_put, if_neg, hv]
  intro heq
  rw [← Std.LawfulEqOrd.eq_of_compare heq, hnew] at hv
  cases hv

theorem units_drop_lt (h : i.Coherent) (hcount : i.keyCount ≤ 2 ^ 56) {key : K}
    (hfound : i.forward.contains key = true) : (i.drop key).units < i.units := by
  refine (h.drop key).units_lt_units hk he h hcount (keyCount_drop_lt hfound)
    (i.ordering_drop key).symm ?_
  intro other v hv
  exact get_of_get_drop hv

end

theorem units_put_same (h : i.Coherent) {key : K} {value : Option E}
    (hc : i.conflicts key value = false) (hsame : i.get key = .indexed value) :
    (i.put key value).units = i.units := by
  refine h.units_congr (h.put hc) (i.ordering_put key value) fun other => ?_
  rw [get_put]
  split
  next heq => rw [← Std.LawfulEqOrd.eq_of_compare heq, hsame]
  next => rfl

end Coherent

/-! ### Footprint and writes -/

/-- The footprint of an index is computed without wrapping, from no more values than keys; it is
nothing only if no key is indexed; and it follows the writes: a key that is new makes it larger, one
that is taken out makes it smaller, and what changes no key leaves it as it is. -/
structure TracksContents [Stored K] [Stored E] (i : Index K E) : Prop where
  size_le : i.contents.size ≤ i.keyCount
  fits : Footprint.Fits (Stored.bytes K) (Stored.nullableBytes E) i.keyCount i.contents.size
  toNat_units : i.units.toNat =
    Footprint.exactUnits (Stored.bytes K) (Stored.nullableBytes E) i.keyCount i.contents.size
  eq_zero_iff : i.units = 0 ↔ ∀ key, i.get key = .absent
  insert_new : ∀ key value, i.get key = .absent → (i.apply (.insert key value)).1 = .ok .done →
    i.units < (i.apply (.insert key value)).2.units
  insert_refused : ∀ key value e, (i.apply (.insert key value)).1 = .error e →
    (i.apply (.insert key value)).2.units = i.units
  insert_same : ∀ key value, i.get key = .indexed value →
    (i.apply (.insert key value)).2.units = i.units
  delete_found : ∀ key, (i.apply (.delete key)).1 = .ok (.found true) →
    (i.apply (.delete key)).2.units < i.units
  delete_missing : ∀ key, (i.apply (.delete key)).1 = .ok (.found false) →
    (i.apply (.delete key)).2.units = i.units

theorem put_of_done {key : K} {value : Option E} (h : (i.apply (.insert key value)).1 = .ok .done) :
    i.conflicts key value = false ∧ (i.apply (.insert key value)).2 = i.put key value := by
  rw [apply_insert] at h ⊢
  cases hc : i.conflicts key value with
  | true =>
      rw [hc] at h
      cases h
  | false => exact ⟨rfl, rfl⟩

theorem contains_of_found {key : K} {found : Bool}
    (h : (i.apply (.delete key)).1 = .ok (.found found)) : i.forward.contains key = found :=
  Outcome.found.inj (Except.ok.inj h)

/-- **The footprint tracks the contents.** -/
theorem units_track_contents [Std.LawfulEqOrd K] [Stored K] [Stored E] (h : i.Reachable)
    (hk : Stored.bytes K ≤ 24) (he : Stored.nullableBytes E ≤ 24) (hcount : i.keyCount ≤ 2 ^ 56 - 1) :
    i.TracksContents := by
  have hi := h.coherent
  have hunits := hi.toNat_units hk he (by omega)
  refine ⟨hi.size_le_keyCount, hi.fits hk he (by omega), hunits, ?_, ?_, ?_, ?_, ?_, ?_⟩
  · rw [← UInt64.toNat_inj, hunits]
    exact (Footprint.exactUnits_eq_zero_iff hi.size_le_keyCount).trans keyCount_eq_zero_iff
  · intro key value hnew hdone
    obtain ⟨hc, hput⟩ := put_of_done hdone
    rw [hput]
    exact hi.units_lt_put hk he (by omega) hc hnew
  · intro key value e hrefused
    rw [apply_of_error hrefused]
  · intro key value hsame
    rw [apply_insert]
    cases hc : i.conflicts key value with
    | true => rfl
    | false => exact hi.units_put_same hc hsame
  · intro key hfound
    exact hi.units_drop_lt hk he (by omega) (contains_of_found hfound)
  · intro key hmissing
    have hnone := contains_of_found hmissing
    rw [Std.ExtTreeMap.contains_eq_isSome_getElem?, Option.isSome_eq_false_iff,
      Option.isNone_iff_eq_none] at hnone
    have hsame : (i.apply (.delete key)).2 = i := by
      show i.drop key = i
      rw [drop, hnone]
    rw [hsame]

/-- Compared by their tens, twelve and seventeen are one value of two keys. -/
theorem units_track_contents_tens :
    ((Index.ordered ⟨⟨"age"⟩, false⟩ (some .tens)).run
        [.insert (1 : UInt64) (some 12), .insert 2 (some 17), .insert 3 none]).Reachable ∧
      Stored.bytes UInt64 ≤ 24 ∧ Stored.nullableBytes Int64 ≤ 24 ∧
      ((Index.ordered ⟨⟨"age"⟩, false⟩ (some .tens)).run
        [.insert (1 : UInt64) (some 12), .insert 2 (some 17), .insert 3 none]).keyCount ≤ 2 ^ 56 - 1 ∧
      ((Index.ordered ⟨⟨"age"⟩, false⟩ (some .tens)).run
        [.insert (1 : UInt64) (some 12), .insert 2 (some 17), .insert 3 none]).TracksContents := by
  have hreachable := (Reachable.ordered (K := UInt64) ⟨⟨"age"⟩, false⟩ Comparator.tens_lawful).run
    [.insert (1 : UInt64) (some 12), .insert 2 (some 17), .insert 3 none]
  have hcount : ((Index.ordered ⟨⟨"age"⟩, false⟩ (some .tens)).run
      [.insert (1 : UInt64) (some 12), .insert 2 (some 17), .insert 3 none]).keyCount ≤ 2 ^ 56 - 1 := by
    decide
  exact ⟨hreachable, by decide, by decide, hcount,
    units_track_contents hreachable (by decide) (by decide) hcount⟩

end Index

end PartitionedIndex
