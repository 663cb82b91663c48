import Mathlib.Data.List.Basic
import Mathlib.Data.List.TakeWhile
import Mathlib.Order.Lattice
import Mathlib.Tactic.Common

/-!
# Comparators and stable sorted lists

A three-way comparison in the style of C: the sign of {lit}`cmp a b` says how
{lit}`a` and {lit}`b` are ranked.  Different keys may rank equal, so a sorted list may
hold many keys of one rank, and an insertion has to choose a place among them.

Main results:

- Definition {lit}`TotalPreorder`: what a comparison has to satisfy.
- Theorem {lit}`totalPreorder_signCmp`: a comparison by a linear order satisfies it.
- Definition {lit}`insertStable`: insertion behind all keys of the same rank.
- Theorems {lit}`Sorted.insertStable` and {lit}`Sorted.eraseIdx`: the two operations keep
  a list sorted.
-/

namespace KeyOrder

variable {κ : Type}

/-- The signs of {lit}`cmp` rank the keys by a total preorder. -/
structure TotalPreorder (cmp : κ → κ → Int) : Prop where
  flip : ∀ a b, cmp a b < 0 ↔ 0 < cmp b a
  trans : ∀ a b c, cmp a b ≤ 0 → cmp b c ≤ 0 → cmp a c ≤ 0

namespace TotalPreorder

variable {cmp : κ → κ → Int}

/-- What lies above a key that ranks above {lit}`c` ranks above {lit}`c` too. -/
theorem lt_of_lt_of_le (h : TotalPreorder cmp) {a b c : κ} (hac : 0 < cmp a c)
    (hab : cmp a b ≤ 0) : 0 < cmp b c := by
  by_contra hbc
  have hle := h.trans a b c hab (by omega)
  omega

/-- What lies below a key that ranks below {lit}`c` ranks below {lit}`c` too. -/
theorem lt_of_le_of_lt (h : TotalPreorder cmp) {a b c : κ} (hab : cmp a b ≤ 0)
    (hbc : cmp b c < 0) : cmp a c < 0 := by
  have hcb := (h.flip b c).mp hbc
  by_contra hac
  have hca : cmp c a ≤ 0 := by
    have hflip := h.flip a c
    omega
  have hle := h.trans c a b hca hab
  omega

/-- A key that does not rank above {lit}`b` has {lit}`b` not below it. -/
theorem le_of_not_lt (h : TotalPreorder cmp) {a b : κ} (hba : 0 < cmp b a) : cmp a b ≤ 0 := by
  have hflip := (h.flip a b).mpr hba
  omega

end TotalPreorder

/-! ## Comparators from an order -/

/-- Compare two keys by what {lit}`f` makes of them in a linear order. -/
def signCmp {β : Type} [LinearOrder β] (f : κ → β) (a b : κ) : Int :=
  if f a < f b then -1 else if f b < f a then 1 else 0

section SignCmp

variable {β : Type} [LinearOrder β] {f : κ → β} {a b : κ}

theorem signCmp_neg_iff : signCmp f a b < 0 ↔ f a < f b := by
  unfold signCmp
  split_ifs <;> simp_all

theorem signCmp_pos_iff : 0 < signCmp f a b ↔ f b < f a := by
  unfold signCmp
  split_ifs with h₁ h₂
  · simpa using h₁.le
  · simpa using h₂
  · simpa using not_lt.mp h₂

theorem signCmp_eq_zero_iff : signCmp f a b = 0 ↔ f a = f b := by
  unfold signCmp
  split_ifs with h₁ h₂
  · simpa using h₁.ne
  · simpa using h₂.ne'
  · simpa using le_antisymm (not_lt.mp h₂) (not_lt.mp h₁)

/-- Swapping the keys flips the sign. -/
theorem signCmp_swap : signCmp f b a = -signCmp f a b := by
  unfold signCmp
  split_ifs with h₁ h₂
  · exact absurd h₁ h₂.asymm
  · rfl
  · rfl
  · rfl

/-- A comparison by a linear order ranks the keys by a total preorder. -/
theorem totalPreorder_signCmp (f : κ → β) : TotalPreorder (signCmp f) := by
  constructor
  case flip =>
    intro a b
    rw [signCmp_neg_iff, signCmp_pos_iff]
  case trans =>
    intro a b c hab hbc
    rw [← Int.not_lt, signCmp_pos_iff, not_lt] at hab hbc ⊢
    exact hab.trans hbc

end SignCmp

/-! ## Sorted lists -/

/-- No key ranks above a later one. -/
def Sorted (cmp : κ → κ → Int) (l : List κ) : Prop :=
  l.Pairwise fun a b => cmp a b ≤ 0

/-- Insert {lit}`k` behind all keys that do not rank above it. -/
def insertStable (cmp : κ → κ → Int) (k : κ) (l : List κ) : List κ :=
  l.takeWhile (fun a => decide (cmp a k ≤ 0)) ++ k :: l.dropWhile fun a => decide (cmp a k ≤ 0)

variable {cmp : κ → κ → Int} {k : κ} {l₁ l₂ : List κ}

/-- The place of a stable insertion is the one that separates the keys ranked above. -/
theorem insertStable_append (h₁ : ∀ a ∈ l₁, cmp a k ≤ 0) (h₂ : ∀ b ∈ l₂, 0 < cmp b k) :
    insertStable cmp k (l₁ ++ l₂) = l₁ ++ k :: l₂ := by
  have hpos : ∀ a ∈ l₁, decide (cmp a k ≤ 0) = true := fun a ha => by simp [h₁ a ha]
  unfold insertStable
  rw [List.takeWhile_append_of_pos hpos, List.dropWhile_append_of_pos hpos]
  cases l₂ with
  | nil => simp
  | cons b l₂ =>
      have hb := h₂ b (by simp)
      have hneg : decide (cmp b k ≤ 0) = false := by
        rw [decide_eq_false_iff_not]
        omega
      simp [List.takeWhile, List.dropWhile, hneg]

/-- A stable insertion keeps a list sorted. -/
theorem Sorted.insertStable (hcmp : TotalPreorder cmp) (h : Sorted cmp (l₁ ++ l₂))
    (h₁ : ∀ a ∈ l₁, cmp a k ≤ 0) (h₂ : ∀ b ∈ l₂, 0 < cmp b k) :
    Sorted cmp (l₁ ++ k :: l₂) := by
  unfold Sorted at *
  rw [List.pairwise_append] at h ⊢
  rcases h with ⟨hl₁, hl₂, hcross⟩
  refine ⟨hl₁, List.pairwise_cons.mpr ⟨?_, hl₂⟩, ?_⟩
  · intro b hb
    exact hcmp.le_of_not_lt (h₂ b hb)
  · intro a ha b hb
    rcases List.mem_cons.mp hb with rfl | hb
    · exact h₁ a ha
    · exact hcross a ha b hb

/-- Erasing a key keeps a list sorted. -/
theorem Sorted.erase {l : List κ} (h : Sorted cmp l) {i : Nat} : Sorted cmp (l.eraseIdx i) :=
  h.sublist (List.eraseIdx_sublist l i)

end KeyOrder
