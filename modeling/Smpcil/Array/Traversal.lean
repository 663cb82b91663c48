import Smpcil.Array.Access

/-!
# The array as a list of slots

Size, traversal and layout of an array after any run of pushes.

Main results:

- Theorem {lit}`Filled.traversal`: a traversal visits the slots in order.
- Theorem {lit}`Filled.slots_apart`: the slots do not overlap.
- Theorem {lit}`pushed_refines_list`: an array is a list of slots that only grows at its
  end.
-/

namespace Smpcil
namespace GrowArray

open Allocator Loops PoolCalls

variable {π : Type} {calls : PoolCalls π} {Good : π → Prop} {blocks : π → List Block}
variable {e u : Nat} {array : SmpArray π} {units l : List VoidPtr}

/-- The slots of one unit. -/
theorem slot_unit {q i : Nat} (hi : i < u) :
    slot e u units (q * u + i) = units.getD q NULL + e * i := by
  have hu : 0 < u := by omega
  have hdiv : (q * u + i) / u = q := by
    rw [Nat.mul_comm, Nat.mul_add_div hu, Nat.div_eq_of_lt hi, Nat.add_zero]
  have hmod : (q * u + i) % u = i := by
    rw [Nat.mul_comm, Nat.mul_add_mod, Nat.mod_eq_of_lt hi]
  rw [slot, hdiv, hmod]

namespace Filled

/-! ## Traversal -/

/-- The traversal of one unit visits the slots it holds. -/
theorem traverseUnit_spec (h : Filled Good blocks e u array units l) {q n : Nat}
    (hq : q < units.length)
    (hn : n = if q = units.length - 1 then array.currPoint else u) :
    traverseUnit array q ((List.range (q * u)).map (slot e u units)) =
      .ok ((List.range (q * u + n)).map (slot e u units)) := by
  have hlast : uintPred array.indexUsed = units.length - 1 := by
    rw [h.used]
    exact uintPred_of_pos h.unitsPos
  have hle : n ≤ u := by
    have hcurr := h.curr
    split_ifs at hn <;> omega
  have hcount : (if (q : Int) = uintPred array.indexUsed then array.currPoint
      else array.unitElemAmt) = n := by
    rw [hn, hlast, h.unitElemAmt]
    by_cases heq : q = units.length - 1
    · rw [if_pos heq, if_pos (by omega)]
    · rw [if_neg heq, if_neg (by omega)]
  have hloop : ∃ v, traverseUnit array q ((List.range (q * u)).map (slot e u units)) = .ok v ∧
      v = (List.range (q * u + (n : Int).toNat)).map (slot e u units) := by
    simp only [traverseUnit, hcount]
    apply forUp_spec (fun i v => v = (List.range (q * u + i.toNat)).map (slot e u units))
    · omega
    · rintro i v h₀ h₁ rfl
      have hoff : uint (array.elemSize * i.toNat) = e * i.toNat := by
        rw [h.elemSize, Nat.mul_comm]
        exact uint_of_lt (h.offset_lt (by omega))
      refine ⟨_, ?_, rfl⟩
      rw [Int.toNat_natCast, (h.read_unit hq).1, Exec.ok_bind, Exec.pure_eq, hoff,
        show q * u + (i + 1).toNat = q * u + i.toNat + 1 by omega, List.range_succ,
        List.map_append, List.map_singleton, slot_unit (by omega)]
    · simp
  rcases hloop with ⟨v, hrun, hv⟩
  rw [hrun, hv, Int.toNat_natCast]

/-- A traversal visits the slots in the order in which they were handed out. -/
theorem traversal (h : Filled Good blocks e u array units l) : smpArrayTraversal array = .ok l := by
  have hpos := h.unitsPos
  have hloop : ∃ v, smpArrayTraversal array = .ok v ∧
      v = (List.range (if (array.indexUsed : Int) < units.length then
        (array.indexUsed : Int).toNat * u else (units.length - 1) * u + array.currPoint)).map
          (slot e u units) := by
    apply forUp_spec (fun q v => v = (List.range (if q < (units.length : Int) then q.toNat * u
      else (units.length - 1) * u + array.currPoint)).map (slot e u units))
    · omega
    · rintro i v h₀ h₁ rfl
      obtain ⟨q, rfl⟩ : ∃ q : Nat, i = q := ⟨i.toNat, by omega⟩
      rw [h.used] at h₁
      have hspec := h.traverseUnit_spec (show q < units.length by omega) rfl
      refine ⟨_, by rw [if_pos h₁, Int.toNat_natCast]; exact hspec, ?_⟩
      by_cases heq : q = units.length - 1
      · rw [if_pos heq, if_neg (by omega), heq]
      · rw [if_neg heq, if_pos (by omega), show ((q : Int) + 1).toNat = q + 1 by omega,
          Nat.succ_mul]
    · rw [if_pos (by omega)]
      simp
  rcases hloop with ⟨v, hrun, hv⟩
  rw [hrun, hv, h.used, if_neg (show ¬ (units.length : Int) < units.length by omega), ← h.slots]

/-- The size counts the slots. -/
theorem size (h : Filled Good blocks e u array units l) (hlen : l.length < 2 ^ 31) :
    smpArraySize array = l.length := by
  have hlast : uintPred array.indexUsed = units.length - 1 := by
    rw [h.used]
    exact uintPred_of_pos h.unitsPos
  have hcount : uint (array.currPoint + uintPred array.indexUsed * array.unitElemAmt) =
      l.length := by
    have hsum : array.currPoint + (units.length - 1) * u = l.length := by
      rw [h.length_eq, Nat.add_comm]
    rw [hlast, h.unitElemAmt, hsum]
    exact uint_of_lt (by omega)
  unfold smpArraySize
  rw [hcount]
  exact bmod_of_lt hlen

/-! ## Layout -/

/-- A slot lies in its unit. -/
theorem slot_within (h : Filled Good blocks e u array units l) {k : Nat} (hk : k < l.length) :
    k / u < units.length ∧ Within ⟨slot e u units k, e⟩ ⟨units.getD (k / u) NULL, e * u⟩ := by
  have hlen := h.length_eq
  have hcurr := h.curr
  have hq : k / u < units.length := by
    apply Nat.div_lt_of_lt_mul
    have hunits : u * units.length = (units.length - 1) * u + u := by
      rw [Nat.mul_comm, ← Nat.succ_mul, Nat.succ_eq_add_one, Nat.sub_add_cancel h.unitsPos]
    omega
  refine ⟨hq, ?_⟩
  have hmod : k % u + 1 ≤ u := Nat.mod_lt k h.unitPos
  have hmul : e * (k % u) + e ≤ e * u := by
    rw [← Nat.mul_succ]
    exact Nat.mul_le_mul_left e hmod
  unfold Within slot
  simp only
  omega

/-- Two slots do not overlap. -/
theorem slots_apart (h : Filled Good blocks e u array units l) :
    (l.map fun p => (⟨p, e⟩ : Block)).Pairwise Apart := by
  rw [List.pairwise_map, List.pairwise_iff_getElem]
  intro i j hi hj hij
  have hslot : ∀ k (hk : k < l.length), l[k] = slot e u units k := by
    intro k hk
    rw [← h.getD_slot hk, List.getD_eq_getElem _ _ hk]
  rw [hslot i hi, hslot j hj]
  rcases h.slot_within hi with ⟨hqi, hin⟩
  rcases h.slot_within hj with ⟨hqj, hjn⟩
  by_cases hsame : i / u = j / u
  · -- in one unit the offsets differ by at least one element
    have hsplit_i := Nat.div_add_mod i u
    have hsplit_j := Nat.div_add_mod j u
    rw [hsame] at hsplit_i
    have hlt : i % u + 1 ≤ j % u := by omega
    have hmul : e * (i % u) + e ≤ e * (j % u) := by
      rw [← Nat.mul_succ]
      exact Nat.mul_le_mul_left e hlt
    left
    unfold slot
    rw [hsame]
    simp only
    omega
  · have hdiv : i / u < j / u := by
      have hle : i / u ≤ j / u := Nat.div_le_div_right (Nat.le_of_lt hij)
      omega
    have happ := List.pairwise_iff_getElem.mp (List.pairwise_map.mp h.unitApart) (i / u) (j / u)
      hqi hqj hdiv
    rw [← List.getD_eq_getElem units NULL hqi, ← List.getD_eq_getElem units NULL hqj] at happ
    exact Within.apart hin hjn happ

end Filled

/-! ## Refinement -/

/-- After any run of pushes an array is the list of the slots it has handed out: the size
counts them, a traversal visits them in order, and they do not overlap.  All entries of the
index table in use lie in the table.  A further push ends; it adds the slot it returns, or
returns null and leaves size and traversal as they are. -/
theorem pushed_refines_list (hserves : calls.Serves Good blocks) (hpos : 0 < e * u)
    (hlt : e * u < 2 ^ 32) (h : Pushed calls Good e u array l) (hlen : l.length < 2 ^ 31) :
    smpArraySize array = l.length ∧ smpArrayTraversal array = .ok l ∧
      (l.map fun p => (⟨p, e⟩ : Block)).Pairwise Apart ∧
      array.indexUsed ≤ array.indexAmt ∧
      (∀ k < array.indexUsed, k < array.index.amt ∧ ∃ p, array.index.read k = .ok p ∧ p ≠ NULL) ∧
      ∃ p array', smpArrayPush calls array = .ok (p, array') ∧
        (p = NULL → smpArraySize array' = smpArraySize array ∧
          smpArrayTraversal array' = smpArrayTraversal array) ∧
        (p ≠ NULL → smpArrayTraversal array' = .ok (l ++ [p]) ∧
          (l.length + 1 < 2 ^ 31 → smpArraySize array' = l.length + 1)) := by
  rcases h.inv hserves hpos hlt hlen with ⟨units, hfilled, -⟩
  have hused := hfilled.used
  have hle := hfilled.usedLe
  refine ⟨hfilled.size hlen, hfilled.traversal, hfilled.slots_apart, by omega, ?_, ?_⟩
  · intro k hk
    rcases hfilled.read_unit (show k < units.length by omega) with ⟨hread, hne⟩
    exact ⟨by rw [hfilled.tableAmt]; omega, _, hread, hne⟩
  · rcases hfilled.push hserves hlen with ⟨p, array', units', hrun, hout⟩
    refine ⟨p, array', hrun, ?_, ?_⟩
    · rintro hnull
      rcases hout with ⟨-, -, hfilled'⟩ | ⟨hne, -⟩
      · rw [hfilled.size hlen, hfilled'.size hlen, hfilled.traversal, hfilled'.traversal]
        exact ⟨rfl, rfl⟩
      · exact absurd hnull hne
    · intro hne
      rcases hout with ⟨hnull, -⟩ | ⟨-, -, hfilled'⟩
      · exact absurd hnull hne
      · refine ⟨hfilled'.traversal, fun hmore => ?_⟩
        have hlen' : (l ++ [p]).length = l.length + 1 := by simp
        rw [hfilled'.size (by omega), hlen']
        rfl

/-- Six pushes fill three units of two elements, and a seventh one is refused. -/
theorem pushed_refines_list_sample : ∃ full array,
    Pushed (ofStrategy (firstPlaces 5)) (Trace (firstPlaces 5)) 4 2 full
      [320, 324, 336, 340, 352, 356] ∧
    smpArrayPush (ofStrategy (firstPlaces 5)) full = .ok (NULL, array) ∧
    smpArraySize array = 6 ∧
    smpArrayTraversal array = .ok [320, 324, 336, 340, 352, 356] := by
  have h₀ : Pushed (ofStrategy (firstPlaces 5)) (Trace (firstPlaces 5)) 4 2 _ [] :=
    .init Trace.nil rfl
  have h₁ := @Pushed.push _ _ _ _ _ _ _ _ 320 h₀ rfl
  have h₂ := @Pushed.push _ _ _ _ _ _ _ _ 324 h₁ rfl
  have h₃ := @Pushed.push _ _ _ _ _ _ _ _ 336 h₂ rfl
  have h₄ := @Pushed.push _ _ _ _ _ _ _ _ 340 h₃ rfl
  have h₅ := @Pushed.push _ _ _ _ _ _ _ _ 352 h₄ rfl
  have h₆ := @Pushed.push _ _ _ _ _ _ _ _ 356 h₅ rfl
  have h₇ := @Pushed.push _ _ _ _ _ _ _ _ NULL h₆ rfl
  have hlist := pushed_refines_list (ofStrategy_serves (firstPlaces_sound 5)) (by decide)
    (by decide) h₇ (by decide)
  exact ⟨_, _, h₆, rfl, hlist.1, hlist.2.1⟩

end GrowArray
end Smpcil
