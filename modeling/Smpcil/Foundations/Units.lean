import Mathlib.Algebra.BigOperators.Group.Finset.Basic
import Mathlib.Algebra.Order.BigOperators.Group.Finset
import Mathlib.Data.Fintype.Basic

/-!
# Units in hands

Units of several kinds, each of which is free, in the hands of a party, or lost.  Parties take
free units, give them back, and may leave with the units that they hold.

Main results:

- Theorems {lit}`Hands.total_take`, {lit}`Hands.total_give`, {lit}`Hands.total_leave` and
  {lit}`Hands.total_back`: no move changes how many units there are of a kind.
- Theorem {lit}`Hands.exclusive`: of a single unit there is at most one holder.
-/

namespace Units

variable {ι κ : Type}

/-- Units of the kinds {lit}`κ`: free ones, those in the hands of the parties {lit}`ι`, and lost
ones. -/
structure Hands (ι κ : Type) where
  free : κ → ℕ
  held : ι → κ → ℕ
  lost : κ → ℕ

namespace Hands

section Moves

variable [DecidableEq ι] [DecidableEq κ] (s : Hands ι κ) (p : ι) (k : κ) (n : ℕ)

/-- {lit}`p` takes {lit}`n` units. -/
def take : Hands ι κ where
  free := Function.update s.free k (s.free k - n)
  held := Function.update s.held p (Function.update (s.held p) k (s.held p k + n))
  lost := s.lost

/-- {lit}`p` gives {lit}`n` units back. -/
def give : Hands ι κ where
  free := Function.update s.free k (s.free k + n)
  held := Function.update s.held p (Function.update (s.held p) k (s.held p k - n))
  lost := s.lost

/-- {lit}`p` leaves with everything that it holds. -/
def leave : Hands ι κ where
  free := s.free
  held := Function.update s.held p fun _ => 0
  lost := fun k => s.lost k + s.held p k

/-- {lit}`p` leaves, and what it holds is taken back. -/
def back : Hands ι κ where
  free := fun k => s.free k + s.held p k
  held := Function.update s.held p fun _ => 0
  lost := s.lost

end Moves

variable [Fintype ι] {s : Hands ι κ} {p q : ι} {k : κ} {n : ℕ}

/-- How many units there are of a kind. -/
def total (s : Hands ι κ) (k : κ) : ℕ := s.free k + ∑ p, s.held p k + s.lost k

/-- A party holds at most all units. -/
theorem held_le_total : s.held p k ≤ s.total k := by
  have hle := Finset.single_le_sum (fun q _ => Nat.zero_le (s.held q k)) (Finset.mem_univ p)
  unfold total
  omega

theorem free_le_total : s.free k ≤ s.total k := by
  unfold total
  omega

variable [DecidableEq ι]

/-- What all parties hold when one of them holds something else. -/
theorem sum_update (f : ι → κ → ℕ) (row : κ → ℕ) :
    ∑ q, Function.update f p row q k + f p k = ∑ q, f q k + row k := by
  have hrest : ∀ q ∈ Finset.univ.erase p, Function.update f p row q k = f q k := by
    intro q hq
    rw [Function.update_of_ne (Finset.ne_of_mem_erase hq)]
  have hnew := Finset.add_sum_erase Finset.univ (fun q => Function.update f p row q k)
    (Finset.mem_univ p)
  have hold := Finset.add_sum_erase Finset.univ (fun q => f q k) (Finset.mem_univ p)
  rw [Finset.sum_congr rfl hrest] at hnew
  simp only [Function.update_self] at hnew
  omega

/-- What a party and the others hold is at most all units. -/
theorem held_add_held_le (hpq : p ≠ q) : s.held p k + s.held q k ≤ s.total k := by
  have hp := Finset.add_sum_erase Finset.univ (fun q => s.held q k) (Finset.mem_univ p)
  have hq := Finset.single_le_sum (fun r _ => Nat.zero_le (s.held r k))
    (Finset.mem_erase.mpr ⟨hpq.symm, Finset.mem_univ q⟩)
  unfold total
  omega

/-- Of a single unit there is at most one holder. -/
theorem exclusive (hone : s.total k = 1) (hp : 0 < s.held p k) (hq : 0 < s.held q k) :
    p = q := by
  by_contra hpq
  have hle := held_add_held_le (s := s) (k := k) hpq
  omega

/-! ## Moves -/

section Moves

variable [DecidableEq κ]

theorem total_take (hn : n ≤ s.free k) (k' : κ) : (s.take p k n).total k' = s.total k' := by
  have hsum := sum_update s.held (p := p) (k := k')
    (Function.update (s.held p) k (s.held p k + n))
  unfold total take
  by_cases hk : k' = k
  · subst hk
    simp only [Function.update_self] at hsum ⊢
    omega
  · simp only [Function.update_of_ne hk] at hsum ⊢
    omega

theorem total_give (hn : n ≤ s.held p k) (k' : κ) : (s.give p k n).total k' = s.total k' := by
  have hsum := sum_update s.held (p := p) (k := k')
    (Function.update (s.held p) k (s.held p k - n))
  unfold total give
  by_cases hk : k' = k
  · subst hk
    simp only [Function.update_self] at hsum ⊢
    omega
  · simp only [Function.update_of_ne hk] at hsum ⊢
    omega

end Moves

theorem total_leave (k : κ) : (s.leave p).total k = s.total k := by
  have hsum := sum_update s.held (p := p) (k := k) fun _ => 0
  unfold total leave
  dsimp only
  omega

theorem total_back (k : κ) : (s.back p).total k = s.total k := by
  have hsum := sum_update s.held (p := p) (k := k) fun _ => 0
  unfold total back
  dsimp only
  omega

end Hands

end Units
