import Smpcil.Array.Model
import Mathlib.Data.List.GetD

/-!
# Pushing to an array

The invariant of an array after any sequence of pushes: the entries of the index table in
use are the units, in order, and the slots handed out are the elements of the units, in
order.

Main results:

- Definition {lit}`Filled`: the invariant.
- Theorem {lit}`Filled.push`: a push hands out the next slot, or nothing.
- Theorem {lit}`Pushed.inv`: the invariant after every run.
-/

namespace Smpcil
namespace GrowArray

open Allocator

variable {π : Type} {calls : PoolCalls π} {Good : π → Prop} {blocks : π → List Block}

/-- The address of element {lit}`k`. -/
def slot (e u : Nat) (units : List VoidPtr) (k : Nat) : VoidPtr :=
  units.getD (k / u) NULL + e * (k % u)

/-- The array has the given units and has handed out the slots {lit}`l`; {lit}`e` is the
size of an element and {lit}`u` the number of elements of a unit. -/
structure Filled (Good : π → Prop) (blocks : π → List Block) (e u : Nat)
    (array : SmpArray π) (units l : List VoidPtr) : Prop where
  sizePos : 0 < e * u
  sizeLt : e * u < 2 ^ 32
  unitElemAmt : array.unitElemAmt = u
  elemSize : array.elemSize = e
  good : Good array.pool
  indexAddr : array.index.addr ≠ NULL
  tableAmt : array.index.amt = array.indexAmt
  nonempty : units ≠ []
  used : array.indexUsed = units.length
  usedLe : units.length ≤ array.indexAmt
  amtLe : array.indexAmt ≤ units.length + arrayIndexAmt
  entry : ∀ k < units.length, array.index.entry k = units[k]?
  curr : array.currPoint ≤ u
  slots : l = (List.range ((units.length - 1) * u + array.currPoint)).map (slot e u units)
  unitNonzero : ∀ p ∈ units, p ≠ NULL
  unitBlock : ∀ p ∈ units, ⟨p, e * u⟩ ∈ blocks array.pool
  unitApart : (units.map fun p => (⟨p, e * u⟩ : Block)).Pairwise Apart

theorem uint_of_lt {n : Nat} (h : n < 2 ^ 32) : uint n = n := Nat.mod_eq_of_lt h

theorem uintPred_of_pos {n : Nat} (hpos : 0 < n) : uintPred n = n - 1 :=
  if_neg (Nat.pos_iff_ne_zero.mp hpos)

/-- A new unit behind the others does not move the slots of the others. -/
theorem slot_append {e u k : Nat} {units : List VoidPtr} (m : VoidPtr)
    (hk : k < units.length * u) : slot e u (units ++ [m]) k = slot e u units k := by
  have hdiv : k / u < units.length := Nat.div_lt_of_lt_mul (Nat.mul_comm _ _ ▸ hk)
  unfold slot
  rw [List.getD_append _ _ _ _ hdiv]

namespace Filled

variable {e u : Nat} {array : SmpArray π} {units l : List VoidPtr}

theorem unitPos (h : Filled Good blocks e u array units l) : 0 < u :=
  Nat.pos_of_mul_pos_left h.sizePos

theorem elemPos (h : Filled Good blocks e u array units l) : 0 < e :=
  Nat.pos_of_mul_pos_right h.sizePos

theorem unitLt (h : Filled Good blocks e u array units l) : u < 2 ^ 32 :=
  Nat.lt_of_le_of_lt (Nat.le_mul_of_pos_left u h.elemPos) h.sizeLt

theorem unitsPos (h : Filled Good blocks e u array units l) : 0 < units.length :=
  List.length_pos_iff.mpr h.nonempty

theorem length_eq (h : Filled Good blocks e u array units l) :
    l.length = (units.length - 1) * u + array.currPoint := by
  rw [h.slots]
  simp

/-- There is at most one unit more than there are slots. -/
theorem units_le (h : Filled Good blocks e u array units l) : units.length ≤ l.length + 1 := by
  have hmul : units.length - 1 ≤ (units.length - 1) * u := Nat.le_mul_of_pos_right _ h.unitPos
  have hlen := h.length_eq
  omega

/-- A refused request changes nothing but the state of the pool. -/
theorem refused (h : Filled Good blocks e u array units l) {pool : π} (hgood : Good pool)
    (hblocks : ∀ b ∈ blocks array.pool, b ∈ blocks pool) :
    Filled Good blocks e u { array with pool := pool } units l :=
  { h with good := hgood, unitBlock := fun p hp => hblocks _ (h.unitBlock p hp) }

/-! ## Growing -/

/-- Growing the index table keeps all entries in use and makes room for more. -/
theorem indexRealloc (hserves : calls.Serves Good blocks)
    (h : Filled Good blocks e u array units l)
    (hfull : array.indexUsed = array.indexAmt) (hlen : l.length < 2 ^ 31) :
    ∃ st array', smpArrayIndexRealloc calls array = .ok (st, array') ∧
      array'.currPoint = array.currPoint ∧ Filled Good blocks e u array' units l ∧
      (st = .ok → units.length < array'.indexAmt) := by
  have hunits := h.units_le
  have hfull' : units.length = array.indexAmt := h.used ▸ hfull
  have huint : uint (array.indexUsed + arrayIndexInc) = units.length + arrayIndexInc := by
    rw [h.used]
    apply uint_of_lt
    unfold arrayIndexInc
    omega
  rcases hserves.mpalloc (sizeofPtr * (units.length + arrayIndexInc)) h.good with
    ⟨m, pool, hcall, hgood, ⟨rfl, hsame⟩ | ⟨hm, -, -, -, hnew⟩⟩
  · have hrun : smpArrayIndexRealloc calls array = .ok (.failure, { array with pool := pool }) := by
      simp [smpArrayIndexRealloc, huint, hcall]
    exact ⟨_, _, hrun, rfl, h.refused hgood fun b hb => hsame ▸ hb, by simp⟩
  · have hcopy : array.index.copy m (units.length + arrayIndexInc) array.indexUsed =
        .ok ⟨m, units.length + arrayIndexInc,
          fun i => if i < units.length then array.index.entry i else none⟩ := by
      rw [h.used]
      apply if_pos
      rw [h.tableAmt]
      omega
    have hamt : uint (array.indexAmt + arrayIndexInc) = units.length + arrayIndexInc := by
      rw [← hfull', ← h.used, huint, h.used]
    have hrun : smpArrayIndexRealloc calls array =
        .ok (.ok, { array with
          index := ⟨m, units.length + arrayIndexInc,
            fun i => if i < units.length then array.index.entry i else none⟩
          indexAmt := units.length + arrayIndexInc
          pool := pool }) := by
      simp [smpArrayIndexRealloc, huint, hcall, hcopy, hamt, hm]
    refine ⟨_, _, hrun, rfl, ?_, ?_⟩
    · exact { h with
        good := hgood
        indexAddr := hm
        tableAmt := rfl
        usedLe := Nat.le_add_right _ _
        amtLe := Nat.add_le_add_left (by decide) _
        entry := fun k hk => by simp only [if_pos hk, h.entry k hk]
        unitBlock := fun p hp => by
          rw [hnew]
          exact List.mem_cons_of_mem _ (h.unitBlock p hp) }
    · intro _
      exact Nat.lt_add_of_pos_right (by decide)

/-- A new unit takes the next entry of an index table that has room. -/
theorem newUnit (hserves : calls.Serves Good blocks)
    (h : Filled Good blocks e u array units l) (hroom : units.length < array.indexAmt)
    (hfull : array.currPoint = u) (hlen : l.length < 2 ^ 31) :
    ∃ st array', smpArrayNewUnit calls array = .ok (st, array') ∧
      ((st = .failure ∧ array'.currPoint = array.currPoint ∧
        Filled Good blocks e u array' units l) ∨
      ∃ m, st = .ok ∧ array'.currPoint = 0 ∧ Filled Good blocks e u array' (units ++ [m]) l) := by
  have hunits := h.units_le
  have hsize : uint (array.elemSize * array.unitElemAmt) = e * u := by
    rw [h.elemSize, h.unitElemAmt]
    exact uint_of_lt h.sizeLt
  rcases hserves.mpalloc (e * u) h.good with
    ⟨m, pool, hcall, hgood, ⟨rfl, hsame⟩ | ⟨hm, -, -, hfresh, hnew⟩⟩
  · have hrun : smpArrayNewUnit calls array = .ok (.failure, { array with pool := pool }) := by
      simp [smpArrayNewUnit, hsize, hcall]
    exact ⟨_, _, hrun, Or.inl ⟨rfl, rfl, h.refused hgood fun b hb => hsame ▸ hb⟩⟩
  · have hused : uint (array.indexUsed + 1) = units.length + 1 := by
      rw [h.used]
      exact uint_of_lt (by omega)
    have hlast : uintPred (units.length + 1) = units.length :=
      uintPred_of_pos (Nat.succ_pos _)
    have hwrite : array.index.write units.length m =
        .ok { array.index with
          entry := Function.update array.index.entry units.length (some m) } := by
      apply if_pos
      rwa [h.tableAmt]
    have hrun : smpArrayNewUnit calls array =
        .ok (.ok, { array with
          index := { array.index with
            entry := Function.update array.index.entry units.length (some m) }
          indexUsed := units.length + 1
          currPoint := 0
          pool := pool }) := by
      simp only [smpArrayNewUnit, hsize, hcall, hused, hlast, hwrite, hm, Exec.ok_bind,
        Exec.pure_eq, if_false]
    refine ⟨_, _, hrun, Or.inr ⟨m, rfl, rfl, ?_⟩⟩
    have hcount : (units ++ [m]).length = units.length + 1 := by simp
    have hslots : units.length * u = (units.length - 1) * u + u := by
      rw [← Nat.succ_mul, Nat.succ_eq_add_one, Nat.sub_add_cancel h.unitsPos]
    exact { h with
      good := hgood
      nonempty := by simp
      used := hcount.symm
      usedLe := by
        rw [hcount]
        exact hroom
      amtLe := by
        have hamt := h.amtLe
        simp only
        omega
      entry := fun k hk => by
        by_cases heq : k = units.length
        · simp [heq]
        · have hlt : k < units.length := by omega
          rw [List.getElem?_append_left hlt]
          simp only [Function.update_of_ne heq]
          exact h.entry k hlt
      curr := Nat.zero_le _
      slots := by
        rw [h.slots, hcount, hfull, Nat.add_sub_cancel, Nat.add_zero, ← hslots]
        refine List.map_congr_left fun k hk => (slot_append m ?_).symm
        exact List.mem_range.mp hk
      unitNonzero := by
        intro p hp
        rcases List.mem_append.mp hp with hp | hp
        · exact h.unitNonzero p hp
        · exact List.mem_singleton.mp hp ▸ hm
      unitBlock := by
        intro p hp
        rw [hnew]
        rcases List.mem_append.mp hp with hp | hp
        · exact List.mem_cons_of_mem _ (h.unitBlock p hp)
        · exact List.mem_singleton.mp hp ▸ List.mem_cons_self
      unitApart := by
        rw [List.map_append, List.pairwise_append]
        refine ⟨h.unitApart, by simp, ?_⟩
        intro b hb c hc
        rcases List.mem_map.mp hb with ⟨p, hp, rfl⟩
        rw [List.map_singleton, List.mem_singleton] at hc
        subst hc
        exact (hfresh _ (h.unitBlock p hp)).symm }

/-- Behind `smp_array_expand` the last unit has room, or nothing has changed. -/
theorem expand (hserves : calls.Serves Good blocks)
    (h : Filled Good blocks e u array units l) (hlen : l.length < 2 ^ 31) :
    ∃ st array' units', smpArrayExpand calls array = .ok (st, array') ∧
      Filled Good blocks e u array' units' l ∧
      ((st = .failure ∧ array'.currPoint = array.currPoint) ∨
        (st = .ok ∧ array'.currPoint < u)) := by
  have hcurr := h.curr
  have hpos := h.unitPos
  by_cases hroom : array.currPoint ≥ array.unitElemAmt
  · have hfull : array.currPoint = u := by
      rw [h.unitElemAmt] at hroom
      omega
    by_cases hindex : array.indexUsed = array.indexAmt
    · rcases h.indexRealloc hserves hindex hlen with ⟨st, array₁, hrun, hsame, h₁, hnext⟩
      cases st with
      | failure =>
          refine ⟨_, _, units, ?_, h₁, Or.inl ⟨rfl, hsame⟩⟩
          simp [smpArrayExpand, hroom, hindex, hrun]
      | ok =>
          rcases h₁.newUnit hserves (hnext rfl) (hsame.trans hfull) hlen with
            ⟨st, array₂, hunit, hout⟩
          have hexpand : smpArrayExpand calls array = .ok (st, array₂) := by
            simp [smpArrayExpand, hroom, hindex, hrun, hunit]
          rcases hout with ⟨hst, hcurr₂, h₂⟩ | ⟨m, hst, hcurr₂, h₂⟩
          · exact ⟨_, _, _, hexpand, h₂, Or.inl ⟨hst, hcurr₂.trans hsame⟩⟩
          · exact ⟨_, _, _, hexpand, h₂, Or.inr ⟨hst, hcurr₂ ▸ hpos⟩⟩
    · have hlt : units.length < array.indexAmt := by
        have hle := h.usedLe
        have hused := h.used
        omega
      rcases h.newUnit hserves hlt hfull hlen with ⟨st, array₂, hunit, hout⟩
      have hexpand : smpArrayExpand calls array = .ok (st, array₂) := by
        simp [smpArrayExpand, hroom, hindex, hunit]
      rcases hout with ⟨hst, hcurr₂, h₂⟩ | ⟨m, hst, hcurr₂, h₂⟩
      · exact ⟨_, _, _, hexpand, h₂, Or.inl ⟨hst, hcurr₂⟩⟩
      · exact ⟨_, _, _, hexpand, h₂, Or.inr ⟨hst, hcurr₂ ▸ hpos⟩⟩
  · refine ⟨_, _, units, ?_, h, Or.inr ⟨rfl, ?_⟩⟩
    · simp [smpArrayExpand, hroom]
    · rw [h.unitElemAmt] at hroom
      omega

/-! ## Pushing -/

/-- The slot of the next element, in the last unit. -/
theorem slot_next (h : Filled Good blocks e u array units l) (hroom : array.currPoint < u) :
    slot e u units ((units.length - 1) * u + array.currPoint) =
      units.getD (units.length - 1) NULL + array.currPoint * e := by
  have hdiv : ((units.length - 1) * u + array.currPoint) / u = units.length - 1 := by
    rw [Nat.mul_comm, Nat.mul_add_div h.unitPos, Nat.div_eq_of_lt hroom, Nat.add_zero]
  have hmod : ((units.length - 1) * u + array.currPoint) % u = array.currPoint := by
    rw [Nat.mul_comm, Nat.mul_add_mod, Nat.mod_eq_of_lt hroom]
  rw [slot, hdiv, hmod, Nat.mul_comm e]

/-- An element of the last unit lies below the limit of `uint`. -/
theorem offset_lt (h : Filled Good blocks e u array units l) {n : Nat} (hn : n < u) :
    n * e < 2 ^ 32 := by
  have hle : n * e ≤ e * u := by
    rw [Nat.mul_comm e]
    exact Nat.mul_le_mul_right e (Nat.le_of_lt hn)
  exact Nat.lt_of_le_of_lt hle h.sizeLt

/-- A push hands out the next slot, or returns null and keeps all slots. -/
theorem push (hserves : calls.Serves Good blocks) (h : Filled Good blocks e u array units l)
    (hlen : l.length < 2 ^ 31) :
    ∃ p array' units', smpArrayPush calls array = .ok (p, array') ∧
      ((p = NULL ∧ array'.currPoint = array.currPoint ∧ Filled Good blocks e u array' units' l) ∨
        (p ≠ NULL ∧ 0 < array'.currPoint ∧ Filled Good blocks e u array' units' (l ++ [p]))) := by
  rcases h.expand hserves hlen with ⟨st, array₁, units₁, hexpand, h₁, hout⟩
  rcases hout with ⟨rfl, hcurr⟩ | ⟨rfl, hroom⟩
  · refine ⟨NULL, array₁, units₁, ?_, Or.inl ⟨rfl, hcurr, h₁⟩⟩
    simp [smpArrayPush, h.indexAddr, hexpand]
  · have hpos := h₁.unitsPos
    have hunits := h₁.units_le
    have hused : uintPred array₁.indexUsed = units₁.length - 1 := by
      rw [h₁.used]
      exact uintPred_of_pos hpos
    have hlast : units₁[units₁.length - 1]? = some (units₁.getD (units₁.length - 1) NULL) := by
      rw [List.getD_eq_getElem _ _ (by omega), List.getElem?_eq_getElem]
    have hread : array₁.index.read (units₁.length - 1) =
        .ok (units₁.getD (units₁.length - 1) NULL) := by
      have hlt : units₁.length - 1 < array₁.index.amt := by
        have hle := h₁.usedLe
        rw [h₁.tableAmt]
        omega
      rw [IndexTable.read, if_pos hlt, h₁.entry _ (by omega), hlast]
    have hstart : uint (array₁.currPoint * array₁.elemSize) = array₁.currPoint * e := by
      rw [h₁.elemSize]
      exact uint_of_lt (h₁.offset_lt hroom)
    have hcurr : uint (array₁.currPoint + 1) = array₁.currPoint + 1 := by
      have hlt := h₁.unitLt
      exact uint_of_lt (by omega)
    have hrun : smpArrayPush calls array =
        .ok (units₁.getD (units₁.length - 1) NULL + array₁.currPoint * e,
          { array₁ with currPoint := array₁.currPoint + 1 }) := by
      simp only [smpArrayPush, if_neg h.indexAddr, hexpand, hused, hread, hstart, hcurr,
        Exec.ok_bind, Exec.pure_eq]
    refine ⟨_, _, units₁, hrun, Or.inr ⟨?_, Nat.succ_pos _, ?_⟩⟩
    · have hmem : units₁.getD (units₁.length - 1) NULL ∈ units₁ :=
        List.mem_of_getElem? hlast
      intro hnull
      exact h₁.unitNonzero _ hmem (Nat.eq_zero_of_add_eq_zero_right hnull)
    · exact { h₁ with
        curr := hroom
        slots := by
          simp only
          rw [← Nat.add_assoc, List.range_succ, List.map_append, List.map_singleton,
            h₁.slot_next hroom, ← h₁.slots] }

end Filled

/-! ## Runs -/

/-- The arrays of all runs of pushes, with the addresses that were handed out. -/
inductive Pushed (calls : PoolCalls π) (Good : π → Prop) (e u : Nat) :
    SmpArray π → List VoidPtr → Prop where
  | init {w w' : π} {array : SmpArray π} : Good w →
      smpArrayInit calls w e u = .ok (some array, w') → Pushed calls Good e u array []
  | push {array array' : SmpArray π} {l : List VoidPtr} {p : VoidPtr} :
      Pushed calls Good e u array l → smpArrayPush calls array = .ok (p, array') →
      Pushed calls Good e u array' (if p = NULL then l else l ++ [p])

variable {e u : Nat} {array : SmpArray π} {l : List VoidPtr}

/-- A new index table has room for all its entries. -/
theorem smpArrayIndexInit_ok (hserves : calls.Serves Good blocks) {w w' : π} (hw : Good w)
    {index : IndexTable} (hrun : smpArrayIndexInit calls w = .ok (some index, w')) :
    Good w' ∧ index.addr ≠ NULL ∧ index.amt = arrayIndexAmt := by
  rcases hserves.mpalloc (sizeofPtr * arrayIndexAmt) hw with ⟨m, w₁, hcall, hgood, -⟩
  simp only [smpArrayIndexInit, hcall, Exec.ok_bind] at hrun
  by_cases hm : m = NULL
  · simp [if_pos hm] at hrun
  · simp only [if_neg hm, Exec.pure_eq, Except.ok.injEq, Prod.mk.injEq, Option.some.injEq] at hrun
    rcases hrun with ⟨rfl, rfl⟩
    exact ⟨hgood, hm, rfl⟩

/-- A new array has one unit, of the size that `uint` arithmetic gives. -/
theorem smpArrayInit_fields (hserves : calls.Serves Good blocks) {w w' : π} (hw : Good w)
    (hinit : smpArrayInit calls w e u = .ok (some array, w')) :
    ∃ (index : IndexTable) (start : VoidPtr), uint (e * u) ≠ 0 ∧ start ≠ NULL ∧ Good w' ∧
      ⟨start, uint (e * u)⟩ ∈ blocks w' ∧ index.addr ≠ NULL ∧ index.amt = arrayIndexAmt ∧
      array =
        { unitElemAmt := u
          elemSize := e
          indexAmt := arrayIndexAmt
          indexUsed := 1
          currPoint := 0
          index := { index with entry := Function.update index.entry 0 (some start) }
          pool := w' } := by
  unfold smpArrayInit at hinit
  by_cases hsize : uint (e * u) = 0
  · simp [hsize] at hinit
  simp only [hsize, if_false] at hinit
  rcases Exec.bind_eq_ok.mp hinit with ⟨⟨created, w₁⟩, hcreate, hinit⟩
  cases created with
  | false => simp at hinit
  | true =>
      have hgood₁ := hserves.create hw hcreate
      rcases hserves.mpalloc sizeofArray hgood₁ with ⟨m, w₂, hcall₂, hgood₂, -⟩
      simp only [not_true_eq_false, if_false, hcall₂, Exec.ok_bind] at hinit
      by_cases hm : m = NULL
      · rw [if_pos hm] at hinit
        rcases Exec.bind_eq_ok.mp hinit with ⟨w₃, -, hnone⟩
        simp at hnone
      · rw [if_neg hm] at hinit
        rcases Exec.bind_eq_ok.mp hinit with ⟨⟨made, w₃⟩, hindex, hinit⟩
        cases made with
        | none =>
            rcases Exec.bind_eq_ok.mp hinit with ⟨w₄, -, hnone⟩
            simp at hnone
        | some index =>
            rcases smpArrayIndexInit_ok hserves hgood₂ hindex with ⟨hgood₃, haddr, hamt⟩
            rcases hserves.mpalloc (uint (e * u)) hgood₃ with
              ⟨start, w₄, hcall₄, hgood₄, hgrant⟩
            simp only [hcall₄, Exec.ok_bind] at hinit
            by_cases hstart : start = NULL
            · rw [if_pos hstart] at hinit
              rcases Exec.bind_eq_ok.mp hinit with ⟨w₅, -, hnone⟩
              simp at hnone
            · rcases hgrant with ⟨hnull, -⟩ | ⟨-, -, -, -, hnew⟩
              · exact absurd hnull hstart
              · have hwrite : index.write 0 start = .ok { index with
                    entry := Function.update index.entry 0 (some start) } := by
                  apply if_pos
                  rw [hamt]
                  decide
                simp only [if_neg hstart, hwrite, Exec.ok_bind, Exec.pure_eq, Except.ok.injEq,
                  Prod.mk.injEq, Option.some.injEq] at hinit
                rcases hinit with ⟨rfl, rfl⟩
                exact ⟨index, start, hsize, hstart, hgood₄, by simp [hnew], haddr, hamt, rfl⟩

/-- A new array has one unit and no slots. -/
theorem smpArrayInit_filled (hserves : calls.Serves Good blocks) (hpos : 0 < e * u)
    (hlt : e * u < 2 ^ 32) {w w' : π} (hw : Good w)
    (hinit : smpArrayInit calls w e u = .ok (some array, w')) :
    ∃ start, array.currPoint = 0 ∧ Filled Good blocks e u array [start] [] := by
  rcases smpArrayInit_fields hserves hw hinit with
    ⟨index, start, -, hstart, hgood, hblock, haddr, hamt, rfl⟩
  rw [uint_of_lt hlt] at hblock
  refine ⟨start, rfl, ?_⟩
  constructor
  case sizePos => exact hpos
  case sizeLt => exact hlt
  case unitElemAmt => rfl
  case elemSize => rfl
  case good => exact hgood
  case indexAddr => exact haddr
  case tableAmt => exact hamt
  case nonempty => simp
  case used => rfl
  case usedLe => simp [arrayIndexAmt]
  case amtLe => simp
  case entry => simp
  case curr => simp
  case slots => simp
  case unitNonzero => simpa using hstart
  case unitBlock => simpa using hblock
  case unitApart => simp

/-- The invariant holds after every run, and an array without a slot in its last unit has
no slots at all. -/
theorem Pushed.inv (hserves : calls.Serves Good blocks) (hpos : 0 < e * u) (hlt : e * u < 2 ^ 32)
    (h : Pushed calls Good e u array l) (hlen : l.length < 2 ^ 31) :
    ∃ units, Filled Good blocks e u array units l ∧ (array.currPoint = 0 → l = []) := by
  induction h with
  | init hw hinit =>
      rcases smpArrayInit_filled hserves hpos hlt hw hinit with ⟨start, -, hfilled⟩
      exact ⟨[start], hfilled, fun _ => rfl⟩
  | @push array array' l p _ hpush ih =>
      have hle : l.length < 2 ^ 31 := by
        split at hlen
        · exact hlen
        · rw [List.length_append] at hlen
          exact Nat.lt_of_le_of_lt (Nat.le_add_right _ _) hlen
      rcases ih hle with ⟨units, hfilled, hempty⟩
      rcases hfilled.push hserves hle with ⟨p', array₂, units', hrun, hout⟩
      rw [hpush, Except.ok.injEq, Prod.mk.injEq] at hrun
      rcases hrun with ⟨rfl, rfl⟩
      rcases hout with ⟨hnull, hcurr, hfilled'⟩ | ⟨hne, hcurr, hfilled'⟩
      · rw [if_pos hnull]
        exact ⟨units', hfilled', fun h₀ => hempty (hcurr ▸ h₀)⟩
      · rw [if_neg hne]
        exact ⟨units', hfilled', fun h₀ => absurd h₀ (Nat.pos_iff_ne_zero.mp hcurr)⟩

end GrowArray
end Smpcil
