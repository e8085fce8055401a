/-! # Bisection

The point of an array up to which a property holds, found by halving. Main statement:
`partitionPoint_eq`, where the property holds up to a position and no further, that position is
found. -/

namespace PartitionedIndex.Bisection

variable {α : Type}

/-- Halves the stretch from `lo` to `hi` until it is empty, keeping the side on which the property
changes. -/
def search (p : α → Bool) (a : Array α) (lo hi : Nat) (h : hi ≤ a.size) : Nat :=
  if hlt : lo < hi then
    have hmid : (lo + hi) / 2 < a.size := by omega
    if p a[(lo + hi) / 2] then search p a ((lo + hi) / 2 + 1) hi h
    else search p a lo ((lo + hi) / 2) (by omega)
  else lo
termination_by hi - lo

/-- The number of leading entries that have the property, if no entry after them has it. -/
def partitionPoint (p : α → Bool) (a : Array α) : Nat :=
  search p a 0 a.size (Nat.le_refl _)

/-- The entry that a probe finds equal, in an array where the entries it finds less come first and
those it finds greater come last. -/
def find? (probe : α → Ordering) (a : Array α) : Option (Fin a.size) :=
  let i := partitionPoint (fun x => (probe x).isLT) a
  if h : i < a.size then if probe a[i] = .eq then some ⟨i, h⟩ else none else none

theorem search_le (p : α → Bool) (a : Array α) (lo hi : Nat) (h : hi ≤ a.size) (hle : lo ≤ hi) :
    search p a lo hi h ≤ hi := by
  fun_induction search p a lo hi h with
  | case1 lo hi h hlt hmid hp ih => exact ih (by omega)
  | case2 lo hi h hlt hmid hp ih => exact Nat.le_trans (ih (by omega)) (by omega)
  | case3 lo hi h hlt => exact hle

theorem partitionPoint_le (p : α → Bool) (a : Array α) : partitionPoint p a ≤ a.size :=
  search_le p a 0 a.size (Nat.le_refl _) (Nat.zero_le _)

/-- A search that has the change of the property in its stretch finds it. -/
theorem search_eq (p : α → Bool) (a : Array α) (n lo hi : Nat) (h : hi ≤ a.size)
    (hlo : lo ≤ n) (hhi : n ≤ hi) (hp : ∀ (i : Nat) (hi : i < a.size), p a[i] = true ↔ i < n) :
    search p a lo hi h = n := by
  fun_induction search p a lo hi h with
  | case1 lo hi h hlt hmid hpm ih =>
    have := (hp _ hmid).1 hpm
    exact ih (by omega) hhi
  | case2 lo hi h hlt hmid hpm ih =>
    have : ¬ (lo + hi) / 2 < n := fun hn => hpm ((hp _ hmid).2 hn)
    exact ih hlo (by omega)
  | case3 lo hi h hlt => omega

/-- Where the property holds up to a position and no further, that position is found. -/
theorem partitionPoint_eq (p : α → Bool) (a : Array α) (n : Nat) (hn : n ≤ a.size)
    (hp : ∀ (i : Nat) (hi : i < a.size), p a[i] = true ↔ i < n) : partitionPoint p a = n :=
  search_eq p a n 0 a.size (Nat.le_refl _) (Nat.zero_le _) hn hp

end PartitionedIndex.Bisection
