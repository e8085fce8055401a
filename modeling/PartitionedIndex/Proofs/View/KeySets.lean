import PartitionedIndex.Proofs.View.Lookup
import PartitionedIndex.Proofs.View.SingleIndex

/-! # Looking for a set of keys

Contents look for a set of keys among the chains of their values. They compare a chain with the set by
its size and by inclusion one way, which is right for disjoint members, and they look chains up for
values that no two are the same, although some may be of one class. If the indexes in scope are of one
kind and compare values alike, that is exact: a set of keys is found if it is not empty and holds all the
keys of some value over all partitions, and no others (`Merged.containsKeys_iff`). Less than the keys of
a value, or more, is not found (`FindsKeySets`). Main statement: `contains_keys_exact`. -/

namespace PartitionedIndex

variable {K E : Type} [Ord K] [Ord E] [Std.TransOrd K] [Std.TransOrd E]

namespace View

/-- The indexes in scope for an extractor are all unordered, or all ordered by one lawful comparator. -/
inductive OfOneKind (v : View K E) (x : Extractor) : Prop
  | unordered (h : ∀ id i, v.indexAt? id x = some i → i.isOrdered = false)
  | ordered (c : SafeComparator E) (hc : c.Lawful)
      (h : ∀ id i, v.indexAt? id x = some i → i.isOrdered = true ∧ i.contents.order = c.order)

/-- In some partition in scope the key has a value that the index there holds equal to `value`. -/
def HasUnder (v : View K E) (x : Extractor) (value : Option E) (key : K) : Prop :=
  ∃ id i, v.indexAt? id x = some i ∧ ∃ w, i.get key = .indexed w ∧ i.contents.Equates w value

theorem OfOneKind.uniform [Std.LawfulEqOrd K] {v : View K E} {x : Extractor} (h : v.OfOneKind x)
    (hr : ∀ id i, v.indexAt? id x = some i → i.Reachable) : ∃ order, v.Uniform x order := by
  cases h with
  | unordered h =>
      refine ⟨compare, inferInstance, fun id i hi => (hr id i hi).coherent, fun id i hi => ?_⟩
      have hunordered := h id i hi
      unfold Index.isOrdered at hunordered
      cases hc : i.contents with
      | unordered g => rfl
      | ordered s =>
          rw [hc] at hunordered
          cases hunordered
  | ordered c hc h =>
      exact ⟨c.order, hc.transCmp, fun id i hi => (hr id i hi).coherent,
        fun id i hi => (h id i hi).2⟩

namespace Uniform

variable {v : View K E} {x : Extractor} {order : Option E → Option E → Ordering}
variable (h : v.Uniform x order)
include h

theorem hasUnder_iff [Std.LawfulEqOrd E] (value : Option E) (key : K) :
    v.HasUnder x value key ↔ ∃ id i, v.indexAt? id x = some i ∧
      ∃ w, i.get key = .indexed w ∧ order w value = .eq := by
  refine exists_congr fun id => exists_congr fun i => and_congr_right fun hi => ?_
  refine exists_congr fun w => and_congr_right fun _ => ?_
  rw [i.contents.equates_iff, h.order_eq id i hi]

/-- If no key has a value in two partitions, values that share a key have all keys in common. -/
theorem hasUnder_congr [Std.LawfulEqOrd E] (hd : v.Disjoint x) {value other : Option E} {key : K}
    (hv : v.HasUnder x value key) (ho : v.HasUnder x other key) (k : K) :
    v.HasUnder x value k ↔ v.HasUnder x other k := by
  have := h.transCmp
  have hclass : order value other = .eq := by
    obtain ⟨p, i, hi, u, hu, huv⟩ := (h.hasUnder_iff value key).mp hv
    obtain ⟨q, j, hj, w, hw, hwo⟩ := (h.hasUnder_iff other key).mp ho
    obtain rfl := hd key hi hj hu hw
    obtain rfl := Option.some.inj (hi.symm.trans hj)
    obtain rfl := Lookup.indexed.inj (hu.symm.trans hw)
    exact Std.TransCmp.eq_trans (Std.OrientedCmp.eq_symm huv) hwo
  rw [h.hasUnder_iff, h.hasUnder_iff]
  simp only [Std.TransCmp.congr_right hclass]

end Uniform

end View

/-- **A set of keys is found if it is not empty and holds exactly the keys of a value**, over all
partitions. -/
theorem Merged.containsKeys_iff [Std.LawfulEqOrd K] [Std.LawfulEqOrd E] {m : Merged K E}
    {order : Option E → Option E → Ordering} (h : m.view.Uniform m.extractor order)
    (hd : m.view.Disjoint m.extractor) (keys : KeySet K) :
    m.containsKeys keys = true ↔ (∃ key, key ∈ keys) ∧
      ∃ v, ∀ key, key ∈ keys ↔ m.view.HasUnder m.extractor v key := by
  have := h.transCmp
  have hchain : ∀ v, (m.get v).holdsExactly keys = true ↔
      ∀ key, key ∈ keys ↔ m.view.HasUnder m.extractor v key := by
    intro v
    rw [Chain.holdsExactly_iff _ (get_disjoint h.coherent hd v)]
    refine forall_congr' fun key => ?_
    rw [Chain.mem_toList_iff, exists_member_iff h, h.hasUnder_iff]
    exact iff_comm
  have hpool : ∀ v, (∃ e ∈ m.pooled, order e.1 v = .eq) ↔
      ∃ key, m.view.HasUnder m.extractor v key := by
    intro v
    rw [exists_pooled_iff h]
    simp only [h.hasUnder_iff]
    constructor
    · rintro ⟨id, i, hi, key, w, hw, heq⟩
      exact ⟨key, id, i, hi, w, hw, heq⟩
    · rintro ⟨key, id, i, hi, w, hw, heq⟩
      exact ⟨id, i, hi, key, w, hw, heq⟩
  rw [containsKeys, keySets, List.any_map, List.any_eq_true]
  constructor
  · rintro ⟨v, hv, hexact⟩
    have hexact := (hchain v).mp hexact
    obtain ⟨e, he, rfl⟩ := (m.mem_values_iff v).mp hv
    obtain ⟨key, hkey⟩ := (hpool e.1).mp ⟨e, he, Std.ReflCmp.compare_self⟩
    exact ⟨⟨key, (hexact key).mpr hkey⟩, e.1, hexact⟩
  · rintro ⟨⟨key, hkey⟩, v, hexact⟩
    obtain ⟨e, he, hev⟩ := (hpool v).mpr ⟨key, (hexact key).mp hkey⟩
    refine ⟨e.1, (m.mem_values_iff e.1).mpr ⟨e, he, rfl⟩, ?_⟩
    show (m.get e.1).holdsExactly keys = true
    rw [get_congr h hev]
    exact (hchain v).mpr hexact

namespace Composite

/-- Contents find the sets of keys that are not empty and hold exactly the keys of a value, over all
partitions: no key of the value may be missing, such as those in another partition, and none may be too
many. -/
structure FindsKeySets (c : Composite K E) : Prop where
  containsKeys_iff : ∀ keys, c.contents.containsKeys keys = true ↔ (∃ key, key ∈ keys) ∧
    ∃ v, ∀ key, key ∈ keys ↔ c.view.HasUnder c.extractor v key
  empty : c.contents.containsKeys ∅ = false
  proper_subset : ∀ v keys, (∀ key ∈ keys, c.view.HasUnder c.extractor v key) →
    (∃ key, c.view.HasUnder c.extractor v key ∧ key ∉ keys) → c.contents.containsKeys keys = false
  proper_superset : ∀ v keys, (∃ key, c.view.HasUnder c.extractor v key) →
    (∀ key, c.view.HasUnder c.extractor v key → key ∈ keys) →
    (∃ key ∈ keys, ¬c.view.HasUnder c.extractor v key) → c.contents.containsKeys keys = false
  one_of_several : ∀ v keys id other i j, c.view.indexAt? id c.extractor = some i →
    c.view.indexAt? other c.extractor = some j → id ≠ other →
    (∀ key, key ∈ keys ↔ ∃ w, i.get key = .indexed w ∧ i.contents.Equates w v) →
    (∃ key w, j.get key = .indexed w ∧ j.contents.Equates w v) → c.contents.containsKeys keys = false

variable [Std.LawfulEqOrd K] [Std.LawfulEqOrd E]

section disjoint

variable {c : Composite K E} {order : Option E → Option E → Ordering}
variable (h : c.view.Uniform c.extractor order) (hd : c.view.Disjoint c.extractor)
include h hd

theorem containsKeys_iff (keys : KeySet K) : c.contents.containsKeys keys = true ↔
    (∃ key, key ∈ keys) ∧ ∃ v, ∀ key, key ∈ keys ↔ c.view.HasUnder c.extractor v key := by
  rw [MergedContents.containsKeys, base_contents]
  exact Merged.containsKeys_iff h hd keys

/-- A set that is found holds the keys of every value that it shares a key with. -/
theorem mem_iff_of_containsKeys {keys : KeySet K} (hfound : c.contents.containsKeys keys = true)
    {v : Option E} {key : K} (hkey : key ∈ keys) (hv : c.view.HasUnder c.extractor v key) (k : K) :
    k ∈ keys ↔ c.view.HasUnder c.extractor v k := by
  obtain ⟨_, w, hexact⟩ := (containsKeys_iff h hd keys).mp hfound
  exact (hexact k).trans (h.hasUnder_congr hd ((hexact key).mp hkey) hv k)

/-- A set of keys of a value is not found if one of them is missing. -/
theorem containsKeys_of_missing {v : Option E} {keys : KeySet K}
    (hsub : ∀ key ∈ keys, c.view.HasUnder c.extractor v key) {k : K}
    (hk : c.view.HasUnder c.extractor v k) (hmissing : k ∉ keys) :
    c.contents.containsKeys keys = false := by
  rw [Bool.eq_false_iff]
  intro hfound
  obtain ⟨⟨key, hkey⟩, _⟩ := (containsKeys_iff h hd keys).mp hfound
  exact hmissing ((mem_iff_of_containsKeys h hd hfound hkey (hsub key hkey) k).mpr hk)

theorem findsKeySets : c.FindsKeySets := by
  refine ⟨containsKeys_iff h hd, ?_, ?_, ?_, ?_⟩
  · rw [Bool.eq_false_iff]
    intro hfound
    obtain ⟨⟨key, hkey⟩, _⟩ := (containsKeys_iff h hd ∅).mp hfound
    exact Std.ExtTreeSet.not_mem_empty hkey
  · intro v keys hsub ⟨k, hk, hmissing⟩
    exact containsKeys_of_missing h hd hsub hk hmissing
  · intro v keys ⟨key, hkey⟩ hsuper ⟨k, hk, hextra⟩
    rw [Bool.eq_false_iff]
    intro hfound
    exact hextra ((mem_iff_of_containsKeys h hd hfound (hsuper key hkey) hkey k).mp hk)
  · intro v keys id other i j hi hj hne hkeys ⟨k, w, hw, hwv⟩
    refine containsKeys_of_missing h hd (v := v) ?_ ⟨other, j, hj, w, hw, hwv⟩ fun hk => ?_
    · intro key hkey
      exact ⟨id, i, hi, (hkeys key).mp hkey⟩
    · obtain ⟨u, hu, _⟩ := (hkeys k).mp hk
      exact hne (hd k hi hj hu hw)

end disjoint

/-- **Contents find exactly the key sets of values.** Let the indexes in scope be reachable, with no key in
two of them, and all unordered or all ordered by one lawful comparator. Then the contents of a composite,
ordered or not, have a set of keys if it is not empty and holds the keys of a value in all partitions, and
no others. -/
theorem contains_keys_exact (view : View K E) (x : Extractor)
    (hr : ∀ id i, view.indexAt? id x = some i → i.Reachable) (hd : view.Disjoint x)
    (hk : view.OfOneKind x) (isOrdered : Bool) (comparator : Option (Comparator E)) :
    (ofView view x isOrdered comparator).FindsKeySets := by
  obtain ⟨order, h⟩ := hk.uniform hr
  exact findsKeySets (c := ofView view x isOrdered comparator) h hd

theorem contains_keys_exact_tens :
    (∀ id i, Tens.view.indexAt? id ⟨"age"⟩ = some i → i.Reachable) ∧
      Tens.view.Disjoint ⟨"age"⟩ ∧ Tens.view.OfOneKind ⟨"age"⟩ ∧
      (ofView Tens.view ⟨"age"⟩ true (some .tens)).FindsKeySets ∧
      (ofView Tens.view ⟨"age"⟩ false none).FindsKeySets := by
  have hr : ∀ id i, Tens.view.indexAt? id ⟨"age"⟩ = some i → i.Reachable :=
    fun id i hi => (Tens.ordered_alike id i hi).1
  have hk : Tens.view.OfOneKind ⟨"age"⟩ :=
    .ordered _ Comparator.tens_lawful fun id i hi => (Tens.ordered_alike id i hi).2
  exact ⟨hr, Tens.disjoint, hk,
    contains_keys_exact Tens.view ⟨"age"⟩ hr Tens.disjoint hk true (some .tens),
    contains_keys_exact Tens.view ⟨"age"⟩ hr Tens.disjoint hk false none⟩

end Composite

end PartitionedIndex
