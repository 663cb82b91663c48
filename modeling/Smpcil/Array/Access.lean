import Smpcil.Array.Pushes

/-!
# Random access to an array

{lit}`smp_array_elem_n` splits the index plus one, so it looks for the last element of a
unit in the unit behind, and it holds the offset in any unit against the fill of the last
unit.

Main results:

- Theorem {lit}`Filled.elemN`: what the access returns, for every index.
- Theorem {lit}`smpArrayElemN_iff`: the indices for which it returns what was pushed.
-/

namespace Smpcil
namespace GrowArray

open Allocator PoolCalls

variable {π : Type} {calls : PoolCalls π} {Good : π → Prop} {blocks : π → List Block}
variable {e u : Nat} {array : SmpArray π} {units l : List VoidPtr}

/-- Counting one further inside a unit. -/
theorem succ_split {i u : Nat} (h : (i + 1) % u ≠ 0) :
    (i + 1) / u = i / u ∧ (i + 1) % u = i % u + 1 := by
  have hndvd : ¬ u ∣ i + 1 := fun hdvd => h (Nat.mod_eq_zero_of_dvd hdvd)
  have hdiv : (i + 1) / u = i / u := Nat.succ_div_of_not_dvd hndvd
  refine ⟨hdiv, ?_⟩
  have hi := Nat.div_add_mod i u
  have hsucc := Nat.div_add_mod (i + 1) u
  rw [hdiv] at hsucc
  omega

namespace Filled

/-- The index table holds the units. -/
theorem read_unit (h : Filled Good blocks e u array units l) {q : Nat} (hq : q < units.length) :
    array.index.read q = .ok (units.getD q NULL) ∧ units.getD q NULL ≠ NULL := by
  have hle := h.usedLe
  have hget : units[q]? = some (units.getD q NULL) := by
    rw [List.getD_eq_getElem _ _ hq, List.getElem?_eq_getElem]
  constructor
  · rw [IndexTable.read, if_pos (by rw [h.tableAmt]; omega), h.entry q hq, hget]
  · exact h.unitNonzero _ (List.mem_of_getElem? hget)

/-- A slot that was handed out. -/
theorem getD_slot (h : Filled Good blocks e u array units l) {i : Nat} (hi : i < l.length) :
    l.getD i NULL = slot e u units i := by
  have hi' : i < ((List.range ((units.length - 1) * u + array.currPoint)).map
      (slot e u units)).length := by
    rw [← h.slots]
    exact hi
  rw [h.slots, List.getD_eq_getElem _ _ hi', List.getElem_map, List.getElem_range]

/-- The slots handed out are not null. -/
theorem getD_ne (h : Filled Good blocks e u array units l) {i : Nat} (hi : i < l.length) :
    l.getD i NULL ≠ NULL := by
  rw [h.getD_slot hi]
  have hlen := h.length_eq
  have hcurr := h.curr
  have hq : i / u < units.length := by
    apply Nat.div_lt_of_lt_mul
    have hunits : u * units.length = (units.length - 1) * u + u := by
      rw [Nat.mul_comm, ← Nat.succ_mul, Nat.succ_eq_add_one, Nat.sub_add_cancel h.unitsPos]
    omega
  intro hnull
  exact (h.read_unit hq).2 (Nat.eq_zero_of_add_eq_zero_right hnull)

/-- An offset within the fill of the last unit names a slot exactly in the units in use. -/
theorem lt_length_iff (h : Filled Good blocks e u array units l) {i : Nat}
    (hoff : i % u < array.currPoint) : i < l.length ↔ i / u < units.length := by
  have hsplit := Nat.div_add_mod i u
  have hlen := h.length_eq
  have hpos := h.unitsPos
  have hcurr := h.curr
  constructor
  · intro hi
    apply Nat.div_lt_of_lt_mul
    have hunits : u * units.length = (units.length - 1) * u + u := by
      rw [Nat.mul_comm, ← Nat.succ_mul, Nat.succ_eq_add_one, Nat.sub_add_cancel hpos]
    omega
  · intro hq
    have hmul : u * (i / u) ≤ (units.length - 1) * u := by
      rw [Nat.mul_comm]
      exact Nat.mul_le_mul_right u (by omega)
    omega

/-- The access in terms of the split index. -/
theorem elemN_split (h : Filled Good blocks e u array units l) (i : Nat) :
    smpArrayElemN array i =
      .ok (if uint (i + 1) / u < units.length ∧ uintPred (uint (i + 1) % u) < array.currPoint then
        units.getD (uint (i + 1) / u) NULL + uint (e * uintPred (uint (i + 1) % u)) else NULL) := by
  simp only [smpArrayElemN, h.unitElemAmt, h.used, h.elemSize, if_neg h.indexAddr]
  by_cases hidx : uint (i + 1) / u < units.length
  · rcases h.read_unit hidx with ⟨hread, hne⟩
    rw [if_neg (Nat.not_le.mpr hidx), hread, Exec.ok_bind, if_pos hne]
    by_cases hfill : uintPred (uint (i + 1) % u) < array.currPoint
    · rw [if_neg (Nat.not_le.mpr hfill), if_pos ⟨hidx, hfill⟩]
      rfl
    · rw [if_pos (Nat.not_lt.mp hfill), if_neg fun hboth => hfill hboth.2]
      rfl
  · rw [if_pos (Nat.not_lt.mp hidx), if_neg fun hboth => hidx hboth.1]
    rfl

/-- The access finds an element unless it is the last one of its unit, or its offset is
not below the fill of the last unit. -/
theorem elemN (h : Filled Good blocks e u array units l) (hlen : l.length < 2 ^ 31) {i : Nat}
    (hi : i < 2 ^ 32) :
    smpArrayElemN array i =
      .ok (if (i + 1) % u ≠ 0 ∧ i % u < array.currPoint then l.getD i NULL else NULL) := by
  have hcurr := h.curr
  have hunit := h.unitLt
  -- an offset that wraps below zero is above every fill
  have hbelow : ¬ uintPred 0 < array.currPoint := by
    rw [uintPred, if_pos rfl]
    omega
  rw [h.elemN_split, Except.ok.injEq]
  by_cases hwrap : i + 1 < 2 ^ 32
  · rw [uint_of_lt hwrap]
    by_cases hzero : (i + 1) % u = 0
    · rw [hzero, if_neg fun hboth => hbelow hboth.2, if_neg fun hboth => hboth.1 rfl]
    · rcases succ_split hzero with ⟨hdiv, hmod⟩
      rw [hdiv, hmod, uintPred_of_pos (Nat.succ_pos _), Nat.succ_sub_one]
      by_cases hfill : i % u < array.currPoint
      · rw [if_pos (⟨Nat.succ_ne_zero _, hfill⟩ : i % u + 1 ≠ 0 ∧ i % u < array.currPoint)]
        by_cases hidx : i / u < units.length
        · have hmul : uint (e * (i % u)) = e * (i % u) := by
            rw [Nat.mul_comm]
            exact uint_of_lt (h.offset_lt (Nat.mod_lt i h.unitPos))
          rw [if_pos ⟨hidx, hfill⟩, hmul, h.getD_slot ((h.lt_length_iff hfill).mpr hidx), slot]
        · have hge : l.length ≤ i := Nat.not_lt.mp fun hlt => hidx ((h.lt_length_iff hfill).mp hlt)
          rw [if_neg fun hboth => hidx hboth.1, List.getD_eq_default _ _ hge]
      · rw [if_neg fun hboth => hfill hboth.2, if_neg fun hboth => hfill hboth.2]
  · -- the index itself wraps to zero
    have huint : uint (i + 1) = 0 := by
      unfold uint
      omega
    rw [huint, Nat.zero_mod, if_neg fun hboth => hbelow hboth.2]
    rw [List.getD_eq_default _ _ (by omega), ite_self]

end Filled

/-- After any run of pushes, `smp_array_elem_n` returns what the push of that number
returned exactly for the indices behind the last push and those that are not the last of
their unit and do not lie further in their unit than the last push in its own. -/
theorem smpArrayElemN_iff (hserves : calls.Serves Good blocks) (hpos : 0 < e * u)
    (hlt : e * u < 2 ^ 32) (h : Pushed calls Good e u array l) (hlen : l.length < 2 ^ 31)
    {i : Nat} (hi : i < 2 ^ 32) :
    smpArrayElemN array i = .ok (l.getD i NULL) ↔
      l.length ≤ i ∨ ((i + 1) % u ≠ 0 ∧ i % u ≤ (l.length - 1) % u) := by
  rcases h.inv hserves hpos hlt hlen with ⟨units, hfilled, hempty⟩
  rw [hfilled.elemN hlen hi, Except.ok.injEq]
  by_cases hge : l.length ≤ i
  · rw [List.getD_eq_default _ _ hge, ite_self]
    exact iff_of_true rfl (Or.inl hge)
  · have hne := hfilled.getD_ne (Nat.not_le.mp hge)
    have hcurr : array.currPoint ≠ 0 := fun h₀ => by simp [hempty h₀] at hge
    have hfill : (l.length - 1) % u = array.currPoint - 1 := by
      have hle := hfilled.curr
      have hsplit : l.length - 1 = u * (units.length - 1) + (array.currPoint - 1) := by
        rw [hfilled.length_eq, Nat.mul_comm]
        omega
      rw [hsplit, Nat.mul_add_mod, Nat.mod_eq_of_lt (by omega)]
    rw [hfill]
    split_ifs with hcond
    · simp only [true_iff]
      exact Or.inr ⟨hcond.1, by omega⟩
    · constructor
      · intro hnull
        exact absurd hnull.symm hne
      · rintro (hbad | ⟨hlast, hoff⟩)
        · exact absurd hbad hge
        · exact absurd ⟨hlast, by omega⟩ hcond

/-! ## A sample -/

/-- Two pushes of four bytes on an array with units of two elements. -/
theorem pushed_sample : ∃ array,
    Pushed bumpPool BumpTrace 4 2 array [320, 324] ∧
      smpArrayElemN array 1 = .ok NULL := by
  have h₀ : Pushed bumpPool BumpTrace 4 2 _ [] :=
    .init Trace.nil rfl
  have h₁ := @Pushed.push _ _ _ _ _ _ _ _ 320 h₀ rfl
  have h₂ := @Pushed.push _ _ _ _ _ _ _ _ 324 h₁ rfl
  exact ⟨_, h₂, rfl⟩

/-- The first element of that array is found. -/
theorem smpArrayElemN_iff_sample : ∃ array,
    Pushed bumpPool BumpTrace 4 2 array [320, 324] ∧
      smpArrayElemN array 0 = .ok 320 := by
  rcases pushed_sample with ⟨array, hpushed, -⟩
  exact ⟨array, hpushed, (smpArrayElemN_iff bumpPool_serves (by decide) (by decide) hpushed
    (by decide) (by decide)).mpr (Or.inr (by decide))⟩

/-- The second push returned an address, and the access to that element returns null. -/
theorem smpArrayElemN_misses : ∃ array,
    Pushed bumpPool BumpTrace 4 2 array [320, 324] ∧
      smpArrayElemN array 1 ≠ .ok ([320, 324].getD 1 NULL) := by
  rcases pushed_sample with ⟨array, hpushed, hnull⟩
  refine ⟨array, hpushed, ?_⟩
  rw [hnull]
  decide

end GrowArray
end Smpcil
