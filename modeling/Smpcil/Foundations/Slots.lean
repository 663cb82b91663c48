import Smpcil.Foundations.Allocator

/-!
# Slots in units of memory

Elements of one size handed out one behind the other, from units with room for a fixed
number of them.  A slot is the address of an element with the address of its unit.

Main results:

- Definition {lit}`Dealt`: the slots handed out from full units and from the current one.
- Theorem {lit}`Dealt.inside`: they lie in units that hold all their elements.
- Theorem {lit}`Dealt.apart`: slots of the same unit do not overlap.
- Theorem {lit}`exists_overrun`: some element of a unit reaches any size below that of all
  elements.
-/

namespace Slots

open Allocator

/-- An element at {lit}`addr`, handed out from the unit at {lit}`unit`. -/
structure Slot where
  unit : Nat
  addr : Nat
deriving DecidableEq, Repr

/-- Element {lit}`k` of the unit at {lit}`start`. -/
def slotAt (e start k : Nat) : Slot := ⟨start, start + e * k⟩

/-- The slots lie in units of {lit}`size` bytes. -/
def Inside (e size : Nat) (l : List Slot) : Prop :=
  ∀ s ∈ l, Within ⟨s.addr, e⟩ ⟨s.unit, size⟩

/-- Slots of the same unit do not overlap. -/
def SlotsApart (e : Nat) (l : List Slot) : Prop :=
  l.Pairwise fun s t => s.unit = t.unit → Apart ⟨s.addr, e⟩ ⟨t.addr, e⟩

/-- The slots {lit}`l` were handed out from units of {lit}`u` elements, {lit}`count` of them
from the unit at {lit}`start`. -/
structure Dealt (e u start count : Nat) (l : List Slot) : Prop where
  form : ∀ s ∈ l, ∃ k < u, s = slotAt e s.unit k ∧ (s.unit = start → k < count)
  ordered : l.Pairwise fun s t => s.unit = t.unit → s.addr + e ≤ t.addr

namespace Dealt

variable {e u start start' count size : Nat} {l : List Slot}

theorem nil (e u start : Nat) : Dealt e u start 0 [] := by
  constructor
  · simp
  · exact List.Pairwise.nil

/-- The next element of a unit with room. -/
theorem take (h : Dealt e u start count l) (hroom : count < u) :
    Dealt e u start (count + 1) (l ++ [slotAt e start count]) := by
  constructor
  case form =>
    intro s hs
    rcases List.mem_append.mp hs with hs | hs
    · rcases h.form s hs with ⟨k, hk, hslot, hcount⟩
      exact ⟨k, hk, hslot, fun heq => Nat.lt_succ_of_lt (hcount heq)⟩
    · rw [List.mem_singleton.mp hs]
      exact ⟨count, hroom, rfl, fun _ => Nat.lt_succ_self _⟩
  case ordered =>
    rw [List.pairwise_append]
    refine ⟨h.ordered, List.pairwise_singleton _ _, ?_⟩
    intro s hs t ht heq
    rw [List.mem_singleton.mp ht] at heq ⊢
    rcases h.form s hs with ⟨k, hk, hslot, hcount⟩
    have hunit : s.unit = start := heq
    have hlt := hcount hunit
    have hle : e * k + e ≤ e * count := by
      rw [← Nat.mul_succ]
      exact Nat.mul_le_mul_left e hlt
    rw [hslot, hunit]
    unfold slotAt
    simp only
    omega

/-- A new unit. -/
theorem next (h : Dealt e u start count l) (hnew : ∀ s ∈ l, s.unit ≠ start') :
    Dealt e u start' 0 l := by
  constructor
  case form =>
    intro s hs
    rcases h.form s hs with ⟨k, hk, hslot, -⟩
    exact ⟨k, hk, hslot, fun heq => absurd heq (hnew s hs)⟩
  case ordered => exact h.ordered

/-- The slots lie in units that hold all their elements. -/
theorem inside (h : Dealt e u start count l) (hfits : e * u ≤ size) : Inside e size l := by
  intro s hs
  rcases h.form s hs with ⟨k, hk, hslot, -⟩
  have hle : e * k + e ≤ e * u := by
    rw [← Nat.mul_succ]
    exact Nat.mul_le_mul_left e hk
  rw [hslot]
  unfold Within slotAt
  simp only
  omega

theorem apart (h : Dealt e u start count l) : SlotsApart e l := by
  apply h.ordered.imp
  intro s t hst heq
  exact Or.inl (hst heq)

end Dealt

/-- Where the elements of a unit reach a limit for the first time. -/
theorem exists_overrun {e u limit : Nat} (he : 0 < e) (hlimit : 0 < limit) (hu : limit ≤ e * u) :
    ∃ i < u, e * i < limit ∧ limit ≤ e * i + e := by
  have hdiv := Nat.div_add_mod (limit - 1) e
  have hmod := Nat.mod_lt (limit - 1) he
  refine ⟨(limit - 1) / e, ?_, ?_, ?_⟩
  · apply Nat.div_lt_of_lt_mul
    omega
  · omega
  · omega

/-- An element that reaches behind its unit. -/
theorem not_inside {e start size i n : Nat} (hi : i < n) (hsize : size < e * i + e) :
    ¬ Inside e size ((List.range n).map (slotAt e start)) := by
  intro hinside
  have hin := hinside (slotAt e start i) (List.mem_map_of_mem (List.mem_range.mpr hi))
  unfold Within slotAt at hin
  simp only at hin
  omega

end Slots
