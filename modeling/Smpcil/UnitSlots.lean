import Smpcil.Array.Pushes
import Smpcil.PartList.Traversal
import Smpcil.Foundations.Slots

/-!
# Slots of arrays and lists

An array and a list hand out elements from units whose size is a product in the width of
their arguments, and address an element by another product.  For which arguments do the
elements stay inside their units?

Main results:

- Theorem {lit}`GrowArray.taken_ok_iff`: the arrays whose slots stay inside their units.
- Theorem {lit}`PartList.taken_ok_iff`: the lists whose slots stay inside their parts.
- Theorem {lit}`slots_inside_iff`: both.
-/

namespace Smpcil

open Allocator PoolCalls Slots

variable {π : Type} {calls : PoolCalls π} {Good : π → Prop} {blocks : π → List Block}
variable {e u start : Nat} {l : List Slot}

/-- The slots lie in units of {lit}`size` bytes that were requested from the pool, and those
of one unit do not overlap. -/
structure SlotsOk (blocks : π → List Block) (pool : π) (e size : Nat) (l : List Slot) : Prop where
  requested : ∀ s ∈ l, ⟨s.unit, size⟩ ∈ blocks pool
  inside : Inside e size l
  apart : SlotsApart e l

/-! ## Arrays -/

namespace GrowArray

variable {array array' : SmpArray π} {st : Status}

/-- The runs of pushes on an array, with the slots handed out; the unit of a slot is the last
entry of the index table in use. -/
inductive Taken (calls : PoolCalls π) (array₀ : SmpArray π) : SmpArray π → List Slot → Prop where
  | start : Taken calls array₀ array₀ []
  | refused {array array' : SmpArray π} {l : List Slot} : Taken calls array₀ array l →
      smpArrayPush calls array = .ok (NULL, array') → Taken calls array₀ array' l
  | push {array array' : SmpArray π} {l : List Slot} {p start : VoidPtr} :
      Taken calls array₀ array l → smpArrayPush calls array = .ok (p, array') → p ≠ NULL →
      array'.index.read (uintPred array'.indexUsed) = .ok start →
      Taken calls array₀ array' (l ++ [⟨start, p⟩])

/-- The units of an array whose unit size fits into `uint`; {lit}`start` is the current
one. -/
structure Units (Good : π → Prop) (blocks : π → List Block) (e u : Nat) (array : SmpArray π)
    (start : VoidPtr) (l : List Slot) : Prop where
  good : Good array.pool
  unitElemAmt : array.unitElemAmt = u
  elemSize : array.elemSize = e
  tableAmt : array.index.amt = array.indexAmt
  usedPos : 0 < array.indexUsed
  usedLe : array.indexUsed ≤ array.indexAmt
  amtLt : array.indexAmt < 2 ^ 32
  current : array.index.read (uintPred array.indexUsed) = .ok start
  block : ⟨start, e * u⟩ ∈ blocks array.pool
  requested : ∀ s ∈ l, ⟨s.unit, e * u⟩ ∈ blocks array.pool
  dealt : Dealt e u start array.currPoint l

namespace Units

/-- A refused request. -/
theorem refused (h : Units Good blocks e u array start l) {pool : π} (hgood : Good pool)
    (hmono : ∀ b ∈ blocks array.pool, b ∈ blocks pool) :
    Units Good blocks e u { array with pool := pool } start l :=
  { h with
    good := hgood
    block := hmono _ h.block
    requested := fun s hs => hmono _ (h.requested s hs) }

/-- A larger index table keeps the current unit; when its size leaves the range of `uint`,
the copy leaves the new table. -/
theorem indexRealloc (hserves : calls.Serves Good blocks)
    (h : Units Good blocks e u array start l) (hfull : array.indexUsed = array.indexAmt)
    (hrun : smpArrayIndexRealloc calls array = .ok (st, array')) :
    Units Good blocks e u array' start l ∧ array'.currPoint = array.currPoint ∧
      (st = .ok → array'.indexUsed < array'.indexAmt) := by
  rcases hserves.mpalloc (sizeofPtr * uint (array.indexUsed + arrayIndexInc)) h.good with
    ⟨m, pool, hcall, hgood, hgrant⟩
  have hrefused := h.refused hgood hgrant.mono
  simp only [smpArrayIndexRealloc, hcall, Exec.ok_bind] at hrun
  by_cases hm : m = NULL
  · simp only [if_pos hm, Exec.pure_eq, Except.ok.injEq, Prod.mk.injEq] at hrun
    rcases hrun with ⟨rfl, rfl⟩
    exact ⟨hrefused, rfl, by simp⟩
  · rw [if_neg hm, Exec.bind_eq_ok] at hrun
    rcases hrun with ⟨index, hcopy, hdone⟩
    simp only [Exec.pure_eq, Except.ok.injEq, Prod.mk.injEq] at hdone
    rcases hdone with ⟨rfl, rfl⟩
    unfold IndexTable.copy at hcopy
    split_ifs at hcopy with hbound
    rw [Except.ok.injEq] at hcopy
    subst hcopy
    have hpos := h.usedPos
    have hlt := h.amtLt
    have hamt : uint (array.indexUsed + arrayIndexInc) = array.indexUsed + arrayIndexInc := by
      have hle := hbound.2
      apply uint_of_lt
      unfold uint arrayIndexInc at *
      omega
    have hnew : uint (array.indexAmt + arrayIndexInc) = array.indexUsed + arrayIndexInc := by
      rw [← hfull, hamt]
    have hlast : uintPred array.indexUsed = array.indexUsed - 1 := uintPred_of_pos hpos
    refine ⟨?_, rfl, ?_⟩
    · exact { hrefused with
        tableAmt := hamt.trans hnew.symm
        usedLe := by
          simp only [hnew]
          exact Nat.le_add_right _ _
        amtLt := Nat.mod_lt _ (Nat.two_pow_pos 32)
        current := by
          have hold := h.current
          simp only [IndexTable.read, hlast] at hold ⊢
          have hin : array.indexUsed - 1 < array.indexUsed := Nat.sub_lt hpos Nat.one_pos
          rw [if_pos (by rw [h.tableAmt]; omega)] at hold
          rw [if_pos (by rw [hamt]; omega)]
          simpa [hin] using hold }
    · intro _
      simp only [hnew]
      exact Nat.lt_add_of_pos_right (by decide)

/-- A new unit is none of the old ones. -/
theorem newUnit (hserves : calls.Serves Good blocks) (hpos : 0 < e * u) (hsize : e * u < 2 ^ 32)
    (h : Units Good blocks e u array start l) (hroom : array.indexUsed < array.indexAmt)
    (hrun : smpArrayNewUnit calls array = .ok (st, array')) :
    (st = .failure ∧ Units Good blocks e u array' start l) ∨
      ∃ start', st = .ok ∧ array'.currPoint = 0 ∧ Units Good blocks e u array' start' l := by
  have hunit : uint (array.elemSize * array.unitElemAmt) = e * u := by
    rw [h.elemSize, h.unitElemAmt]
    exact uint_of_lt hsize
  rcases hserves.mpalloc (e * u) h.good with ⟨m, pool, hcall, hgood, hgrant⟩
  simp only [smpArrayNewUnit, hunit, hcall, Exec.ok_bind] at hrun
  by_cases hm : m = NULL
  · simp only [if_pos hm, Exec.pure_eq, Except.ok.injEq, Prod.mk.injEq] at hrun
    rcases hrun with ⟨rfl, rfl⟩
    exact Or.inl ⟨rfl, h.refused hgood hgrant.mono⟩
  · rw [if_neg hm, Exec.bind_eq_ok] at hrun
    rcases hrun with ⟨index, hwrite, hdone⟩
    simp only [Exec.pure_eq, Except.ok.injEq, Prod.mk.injEq] at hdone
    rcases hdone with ⟨rfl, rfl⟩
    have hlt := h.amtLt
    have hused : uint (array.indexUsed + 1) = array.indexUsed + 1 := uint_of_lt (by omega)
    have hlast : uintPred (array.indexUsed + 1) = array.indexUsed :=
      uintPred_of_pos (Nat.succ_pos _)
    rw [hused, hlast, IndexTable.write, if_pos (h.tableAmt ▸ hroom), Except.ok.injEq] at hwrite
    subst hwrite
    rcases hgrant with ⟨hnull, -⟩ | ⟨-, -, -, hfresh, hnew⟩
    · exact absurd hnull hm
    have hmono : ∀ b ∈ blocks array.pool, b ∈ blocks pool := fun b hb => by
      rw [hnew]
      exact List.mem_cons_of_mem _ hb
    have hother : ∀ s ∈ l, s.unit ≠ m := by
      intro s hs heq
      have happ := hfresh _ (h.requested s hs)
      unfold Apart at happ
      simp only at happ
      omega
    refine Or.inr ⟨m, rfl, rfl, ?_⟩
    exact { h with
      good := hgood
      usedPos := by
        rw [hused]
        exact Nat.succ_pos _
      usedLe := by
        rw [hused]
        exact hroom
      current := by
        rw [hused, hlast]
        simp [IndexTable.read, h.tableAmt, hroom]
      block := by
        rw [hnew]
        exact List.mem_cons_self
      requested := fun s hs => hmono _ (h.requested s hs)
      dealt := h.dealt.next hother }

/-- Behind `smp_array_expand` the current unit has room, or the array could not grow. -/
theorem expand (hserves : calls.Serves Good blocks) (hpos : 0 < e * u) (hsize : e * u < 2 ^ 32)
    (h : Units Good blocks e u array start l)
    (hrun : smpArrayExpand calls array = .ok (st, array')) :
    (st = .failure ∧ Units Good blocks e u array' start l) ∨
      ∃ start', st = .ok ∧ array'.currPoint < u ∧ Units Good blocks e u array' start' l := by
  have hu : 0 < u := Nat.pos_of_mul_pos_left hpos
  have hunit : ∀ {array₁ : SmpArray π}, Units Good blocks e u array₁ start l →
      array₁.indexUsed < array₁.indexAmt → smpArrayNewUnit calls array₁ = .ok (st, array') →
      (st = .failure ∧ Units Good blocks e u array' start l) ∨
        ∃ start', st = .ok ∧ array'.currPoint < u ∧ Units Good blocks e u array' start' l := by
    intro array₁ h₁ hroom hnew
    rcases h₁.newUnit hserves hpos hsize hroom hnew with hfail | ⟨start', hst, hcurr, h'⟩
    · exact Or.inl hfail
    · exact Or.inr ⟨start', hst, hcurr ▸ hu, h'⟩
  unfold smpArrayExpand at hrun
  by_cases hend : array.currPoint ≥ array.unitElemAmt
  · rw [if_pos hend] at hrun
    by_cases hfull : array.indexUsed = array.indexAmt
    · rw [if_pos hfull, Exec.bind_eq_ok] at hrun
      rcases hrun with ⟨⟨st₁, array₁⟩, hgrow, hrun⟩
      rcases h.indexRealloc hserves hfull hgrow with ⟨h₁, -, hroom⟩
      cases st₁ with
      | failure =>
          simp only [Exec.pure_eq, Except.ok.injEq, Prod.mk.injEq] at hrun
          rcases hrun with ⟨rfl, rfl⟩
          exact Or.inl ⟨rfl, h₁⟩
      | ok => exact hunit h₁ (hroom rfl) hrun
    · rw [if_neg hfull] at hrun
      exact hunit h (Nat.lt_of_le_of_ne h.usedLe hfull) hrun
  · simp only [if_neg hend, Exec.pure_eq, Except.ok.injEq, Prod.mk.injEq] at hrun
    rcases hrun with ⟨rfl, rfl⟩
    rw [h.unitElemAmt] at hend
    exact Or.inr ⟨start, rfl, Nat.lt_of_not_ge hend, h⟩

/-- A push hands out the next slot of the current unit, or nothing. -/
theorem push (hserves : calls.Serves Good blocks) (hpos : 0 < e * u) (hsize : e * u < 2 ^ 32)
    (h : Units Good blocks e u array start l) {p : VoidPtr}
    (hrun : smpArrayPush calls array = .ok (p, array')) :
    (p = NULL ∧ ∃ start', Units Good blocks e u array' start' l) ∨
      (p ≠ NULL ∧ ∃ start', array'.index.read (uintPred array'.indexUsed) = .ok start' ∧
        Units Good blocks e u array' start' (l ++ [⟨start', p⟩])) := by
  unfold smpArrayPush at hrun
  by_cases hnull : array.index.addr = NULL
  · simp only [if_pos hnull, Exec.pure_eq, Except.ok.injEq, Prod.mk.injEq] at hrun
    rcases hrun with ⟨rfl, rfl⟩
    exact Or.inl ⟨rfl, start, h⟩
  · rw [if_neg hnull, Exec.bind_eq_ok] at hrun
    rcases hrun with ⟨⟨st, array₁⟩, hexpand, hrun⟩
    rcases h.expand hserves hpos hsize hexpand with ⟨rfl, h₁⟩ | ⟨start', rfl, hroom, h₁⟩
    · simp only [Exec.pure_eq, Except.ok.injEq, Prod.mk.injEq] at hrun
      rcases hrun with ⟨rfl, rfl⟩
      exact Or.inl ⟨rfl, start, h₁⟩
    · have hu : u < 2 ^ 32 :=
        Nat.lt_of_le_of_lt (Nat.le_mul_of_pos_left u (Nat.pos_of_mul_pos_right hpos)) hsize
      have hle : e * array₁.currPoint ≤ e * u := Nat.mul_le_mul_left e (Nat.le_of_lt hroom)
      have hoff : uint (array₁.currPoint * array₁.elemSize) = e * array₁.currPoint := by
        rw [h₁.elemSize, Nat.mul_comm]
        exact uint_of_lt (Nat.lt_of_le_of_lt hle hsize)
      have hcurr : uint (array₁.currPoint + 1) = array₁.currPoint + 1 := uint_of_lt (by omega)
      simp only [h₁.current, hoff, hcurr, Exec.ok_bind, Exec.pure_eq, Except.ok.injEq,
        Prod.mk.injEq] at hrun
      rcases hrun with ⟨rfl, rfl⟩
      have hstart := (hserves.bounded h₁.good _ h₁.block).1
      refine Or.inr ⟨fun hzero => hstart (Nat.eq_zero_of_add_eq_zero hzero).1, start',
        h₁.current, ?_⟩
      exact { h₁ with
        requested := by
          intro s hs
          rcases List.mem_append.mp hs with hs | hs
          · exact h₁.requested s hs
          · rw [List.mem_singleton.mp hs]
            exact h₁.block
        dealt := h₁.dealt.take hroom }

end Units

/-- The units of a new array. -/
theorem smpArrayInit_units (hserves : calls.Serves Good blocks) (hsize : e * u < 2 ^ 32)
    {w w' : π} (hw : Good w) (hinit : smpArrayInit calls w e u = .ok (some array, w')) :
    ∃ start, Units Good blocks e u array start [] := by
  rcases smpArrayInit_fields hserves hw hinit with
    ⟨index, start, -, -, hgood, hblock, -, hamt, rfl⟩
  rw [uint_of_lt hsize] at hblock
  refine ⟨start, ?_⟩
  constructor
  case good => exact hgood
  case unitElemAmt => rfl
  case elemSize => rfl
  case tableAmt => exact hamt
  case usedPos => exact Nat.one_pos
  case usedLe => exact Nat.succ_pos _
  case amtLt =>
    simp only [arrayIndexAmt]
    omega
  case current => simp [IndexTable.read, uintPred, hamt, arrayIndexAmt]
  case block => exact hblock
  case requested => simp
  case dealt => exact Dealt.nil e u start

/-- The units after every run of pushes. -/
theorem Taken.units (hserves : calls.Serves Good blocks) (hpos : 0 < e * u)
    (hsize : e * u < 2 ^ 32) (h₀ : ∃ start, Units Good blocks e u array start [])
    (h : Taken calls array array' l) : ∃ start, Units Good blocks e u array' start l := by
  induction h with
  | start => exact h₀
  | refused _ hpush ih =>
      rcases ih with ⟨start, hunits⟩
      rcases hunits.push hserves hpos hsize hpush with ⟨-, h'⟩ | ⟨hne, -⟩
      · exact h'
      · exact absurd rfl hne
  | push _ hpush hne hread ih =>
      rcases ih with ⟨start, hunits⟩
      rcases hunits.push hserves hpos hsize hpush with ⟨hnull, -⟩ | ⟨-, start', hread', h'⟩
      · exact absurd hnull hne
      · rw [hread, Except.ok.injEq] at hread'
        subst hread'
        exact ⟨_, h'⟩

/-- The pushes into the first unit need no memory. -/
theorem Taken.first_unit {index : IndexTable} {pool : π} {n : Nat} (hu : u < 2 ^ 32)
    (hread : index.read 0 = .ok start) (haddr : index.addr ≠ NULL) (hstart : start ≠ NULL)
    (hn : n ≤ u) (hoff : ∀ k < n, e * k < 2 ^ 32) :
    Taken calls ⟨u, e, arrayIndexAmt, 1, 0, index, pool⟩
      ⟨u, e, arrayIndexAmt, 1, n, index, pool⟩ ((List.range n).map (slotAt e start)) := by
  induction n with
  | zero => exact .start
  | succ n ih =>
      have hprev := ih (by omega) fun k hk => hoff k (by omega)
      have hexpand : smpArrayExpand calls ⟨u, e, arrayIndexAmt, 1, n, index, pool⟩ =
          .ok (.ok, ⟨u, e, arrayIndexAmt, 1, n, index, pool⟩) := by
        simp only [smpArrayExpand, if_neg (Nat.not_le.mpr hn), Exec.pure_eq]
      have hcurr : uint (n + 1) = n + 1 := uint_of_lt (by omega)
      have hprod : uint (n * e) = e * n := by
        rw [Nat.mul_comm]
        exact uint_of_lt (hoff n (Nat.lt_succ_self n))
      have hlast : uintPred 1 = 0 := uintPred_of_pos Nat.one_pos
      have hpush : smpArrayPush calls ⟨u, e, arrayIndexAmt, 1, n, index, pool⟩ =
          .ok (start + e * n, ⟨u, e, arrayIndexAmt, 1, n + 1, index, pool⟩) := by
        simp only [smpArrayPush, if_neg haddr, hexpand, hlast, hread, hcurr, hprod, Exec.ok_bind,
          Exec.pure_eq]
      rw [List.range_succ, List.map_append]
      apply hprev.push hpush
      · exact fun hzero => hstart (Nat.eq_zero_of_add_eq_zero hzero).1
      · rw [hlast]
        exact hread

/-- For which arrays all slots of all runs stay inside their units: those whose unit size
does not leave the range of `uint`. -/
theorem taken_ok_iff (hserves : calls.Serves Good blocks) (hu : u < 2 ^ 32) {w w' : π}
    (hw : Good w) (hinit : smpArrayInit calls w e u = .ok (some array, w')) :
    (∀ array' l, Taken calls array array' l → SlotsOk blocks array'.pool e (uint (e * u)) l) ↔
      e * u < 2 ^ 32 := by
  constructor
  · intro hok
    by_contra hlarge
    rcases smpArrayInit_fields hserves hw hinit with
      ⟨index, start, -, hstart, -, -, haddr, hamt, rfl⟩
    have hreach : 2 ^ 32 ≤ e * u := Nat.not_lt.mp hlarge
    have he : 0 < e := Nat.pos_of_mul_pos_right (Nat.lt_of_lt_of_le (Nat.two_pow_pos 32) hreach)
    rcases exists_overrun he (Nat.two_pow_pos 32) hreach with ⟨i, hi, hlo, hhi⟩
    have hread : IndexTable.read { index with
        entry := Function.update index.entry 0 (some start) } 0 = .ok start := by
      simp [IndexTable.read, hamt, arrayIndexAmt]
    have hoff : ∀ k < i + 1, e * k < 2 ^ 32 := by
      intro k hk
      exact Nat.lt_of_le_of_lt (Nat.mul_le_mul_left e (Nat.le_of_lt_succ hk)) hlo
    have hsize : uint (e * u) < e * i + e :=
      Nat.lt_of_lt_of_le (Nat.mod_lt _ (Nat.two_pow_pos 32)) hhi
    have hin := hok _ _ (Taken.first_unit hu hread haddr hstart hi hoff)
    exact not_inside (Nat.lt_succ_self i) hsize hin.inside
  · intro hsize array' l htaken
    have hpos : 0 < e * u := by
      rcases smpArrayInit_fields hserves hw hinit with ⟨-, -, hne, -⟩
      rw [uint_of_lt hsize] at hne
      exact Nat.pos_of_ne_zero hne
    rcases htaken.units hserves hpos hsize (smpArrayInit_units hserves hsize hw hinit) with
      ⟨start, hunits⟩
    rw [uint_of_lt hsize]
    exact ⟨hunits.requested, hunits.dealt.inside (Nat.le_refl _), hunits.dealt.apart⟩

end GrowArray

/-! ## Lists -/

namespace PartList

variable {list list' : SmpList π}

/-- The runs of pushes on a list, with the slots handed out; the unit of a slot are the
elements of the last part. -/
inductive Taken (calls : PoolCalls π) (list₀ : SmpList π) : SmpList π → List Slot → Prop where
  | start : Taken calls list₀ list₀ []
  | refused {list list' : SmpList π} {l : List Slot} : Taken calls list₀ list l →
      smpListPush calls list = .ok (NULL, list') → Taken calls list₀ list' l
  | push {list list' : SmpList π} {l : List Slot} {p : VoidPtr} : Taken calls list₀ list l →
      smpListPush calls list = .ok (p, list') → p ≠ NULL →
      Taken calls list₀ list' (l ++ [⟨(list'.mem list'.tail).elems, p⟩])

/-- The units of a list whose unit size fits into `size_t`; the current one belongs to the
last part. -/
structure Units (Good : π → Prop) (blocks : π → List Block) (e u : Nat) (list : SmpList π)
    (l : List Slot) : Prop where
  good : Good list.mpool
  elemSize : list.elemSize = e
  partElemMaxmnt : list.partElemMaxmnt = u
  tail : ∃ size, 0 < size ∧ ⟨list.tail, size⟩ ∈ blocks list.mpool
  room : (list.mem list.tail).elemMnt ≤ u
  block : ⟨(list.mem list.tail).elems, e * u⟩ ∈ blocks list.mpool
  requested : ∀ s ∈ l, ⟨s.unit, e * u⟩ ∈ blocks list.mpool
  dealt : Dealt e u (list.mem list.tail).elems (list.mem list.tail).elemMnt l

namespace Units

/-- A refused request, and a store away from the last part. -/
theorem refused (h : Units Good blocks e u list l) {pool : π} {mem : Nat → Lpart}
    (hgood : Good pool) (hmono : ∀ b ∈ blocks list.mpool, b ∈ blocks pool)
    (hmem : mem list.tail = list.mem list.tail) :
    Units Good blocks e u { list with mpool := pool, mem := mem } l := by
  constructor
  case good => exact hgood
  case elemSize => exact h.elemSize
  case partElemMaxmnt => exact h.partElemMaxmnt
  case tail =>
    rcases h.tail with ⟨size, hpos, hblock⟩
    exact ⟨size, hpos, hmono _ hblock⟩
  case room =>
    simp only [hmem]
    exact h.room
  case block =>
    simp only [hmem]
    exact hmono _ h.block
  case requested => exact fun s hs => hmono _ (h.requested s hs)
  case dealt =>
    simp only [hmem]
    exact h.dealt

/-- A new part has a unit of its own. -/
theorem grow (hserves : calls.Serves Good blocks) (hpos : 0 < e * u) (hsize : e * u < 2 ^ 64)
    (h : Units Good blocks e u list l) {last : Nat}
    (hrun : listGrow calls list = .ok (last, list')) :
    Units Good blocks e u list' l ∧
      (last ≠ 0 → last = list'.tail ∧ (list'.mem list'.tail).elemMnt = 0) := by
  rcases hserves.mpalloc sizeofLpart h.good with ⟨m, pool, hcall, hgood, hgrant⟩
  simp only [listGrow, hcall, Exec.ok_bind] at hrun
  by_cases hm : m = NULL
  · simp only [if_pos hm, Exec.pure_eq, Except.ok.injEq, Prod.mk.injEq] at hrun
    rcases hrun with ⟨rfl, rfl⟩
    exact ⟨h.refused hgood hgrant.mono rfl, fun hne => absurd rfl hne⟩
  · have hunit : list.elemSize * list.partElemMaxmnt % 2 ^ 64 = e * u := by
      rw [h.elemSize, h.partElemMaxmnt]
      exact Nat.mod_eq_of_lt hsize
    rcases hserves.mpalloc (e * u) hgood with ⟨elems, pool₂, hcall₂, hgood₂, hgrant₂⟩
    simp only [if_neg hm, hunit, hcall₂, Exec.ok_bind] at hrun
    have hmono := hgrant.mono
    have hmono₂ : ∀ b ∈ blocks list.mpool, b ∈ blocks pool₂ :=
      fun b hb => hgrant₂.mono b (hmono b hb)
    rcases hgrant with ⟨hnull, -⟩ | ⟨-, -, -, hfresh, hnew⟩
    · exact absurd hnull hm
    have htail : list.tail ≠ m := by
      rcases h.tail with ⟨size, hsizePos, hblock⟩
      intro heq
      have happ := hfresh _ hblock
      unfold Apart sizeofLpart at happ
      simp only at happ
      omega
    by_cases helems : elems = NULL
    · simp only [if_pos helems, Exec.pure_eq, Except.ok.injEq, Prod.mk.injEq] at hrun
      rcases hrun with ⟨rfl, rfl⟩
      exact ⟨h.refused hgood₂ hmono₂ (Function.update_of_ne htail _ _), fun hne => absurd rfl hne⟩
    · simp only [if_neg helems, Exec.pure_eq, Except.ok.injEq, Prod.mk.injEq] at hrun
      rcases hrun with ⟨rfl, rfl⟩
      rcases hgrant₂ with ⟨hnull, -⟩ | ⟨-, -, -, hfresh₂, hnew₂⟩
      · exact absurd hnull helems
      have hother : ∀ s ∈ l, s.unit ≠ elems := by
        intro s hs heq
        have happ := hfresh₂ _ (hmono _ (h.requested s hs))
        unfold Apart at happ
        simp only at happ
        omega
      refine ⟨?_, fun _ => ⟨rfl, by simp⟩⟩
      constructor
      case good => exact hgood₂
      case elemSize => exact h.elemSize
      case partElemMaxmnt => exact h.partElemMaxmnt
      case tail =>
        refine ⟨sizeofLpart, by decide, ?_⟩
        simp [hnew₂, hnew]
      case room => simp
      case block => simp [hnew₂]
      case requested => exact fun s hs => hmono₂ _ (h.requested s hs)
      case dealt =>
        simp only [SmpList.setNext_elems, SmpList.setElemMnt_elems, SmpList.setElems_elems,
          SmpList.setNext_elemMnt, SmpList.setElemMnt_elemMnt, if_true]
        exact h.dealt.next hother

/-- The next slot of the last part. -/
theorem take (hserves : calls.Serves Good blocks) (hu : u < 2 ^ 32)
    (h : Units Good blocks e u list l) (hroom : (list.mem list.tail).elemMnt < u) :
    (listTake list list.tail).1 ≠ NULL ∧
      (listTake list list.tail).2.tail = list.tail ∧
      ((listTake list list.tail).2.mem list.tail).elems = (list.mem list.tail).elems ∧
      Units Good blocks e u (listTake list list.tail).2
        (l ++ [⟨(list.mem list.tail).elems, (listTake list list.tail).1⟩]) := by
  rcases hserves.bounded h.good _ h.block with ⟨hstart, hend⟩
  have hle : e * (list.mem list.tail).elemMnt ≤ e * u :=
    Nat.mul_le_mul_left e (Nat.le_of_lt hroom)
  have hoff : ((list.mem list.tail).elems + list.elemSize * (list.mem list.tail).elemMnt) %
      2 ^ 64 = (list.mem list.tail).elems + e * (list.mem list.tail).elemMnt := by
    rw [h.elemSize]
    exact Nat.mod_eq_of_lt (Nat.lt_of_le_of_lt
      ((Nat.add_le_add_left hle _).trans hend) (by decide))
  have hcount : ((list.mem list.tail).elemMnt + 1) % 2 ^ 32 = (list.mem list.tail).elemMnt + 1 :=
    Nat.mod_eq_of_lt (by omega)
  unfold listTake
  simp only [hoff, hcount]
  refine ⟨fun hzero => hstart (Nat.eq_zero_of_add_eq_zero hzero).1, rfl, by simp, ?_⟩
  constructor
  case good => exact h.good
  case elemSize => exact h.elemSize
  case partElemMaxmnt => exact h.partElemMaxmnt
  case tail => exact h.tail
  case room =>
    simp only [SmpList.setElemMnt_tail, SmpList.setElemMnt_elemMnt, if_true]
    exact hroom
  case block =>
    simp only [SmpList.setElemMnt_tail, SmpList.setElemMnt_elems]
    exact h.block
  case requested =>
    intro s hs
    rcases List.mem_append.mp hs with hs | hs
    · exact h.requested s hs
    · rw [List.mem_singleton.mp hs]
      exact h.block
  case dealt =>
    simp only [SmpList.setElemMnt_tail, SmpList.setElemMnt_elems, SmpList.setElemMnt_elemMnt,
      if_true]
    exact h.dealt.take hroom

/-- A push hands out the next slot of the last part, or nothing. -/
theorem push (hserves : calls.Serves Good blocks) (hpos : 0 < e * u) (hsize : e * u < 2 ^ 64)
    (hu : u < 2 ^ 32) (h : Units Good blocks e u list l) {p : VoidPtr}
    (hrun : smpListPush calls list = .ok (p, list')) :
    (p = NULL ∧ Units Good blocks e u list' l) ∨
      (p ≠ NULL ∧ Units Good blocks e u list' (l ++ [⟨(list'.mem list'.tail).elems, p⟩])) := by
  have hout : ∀ {list₁ : SmpList π}, Units Good blocks e u list₁ l →
      (list₁.mem list₁.tail).elemMnt < u → listTake list₁ list₁.tail = (p, list') →
      p ≠ NULL ∧ Units Good blocks e u list' (l ++ [⟨(list'.mem list'.tail).elems, p⟩]) := by
    intro list₁ h₁ hroom htake
    rcases h₁.take hserves hu hroom with ⟨hne, htail, helems, h'⟩
    rw [htake] at hne htail helems h'
    simp only at hne htail helems h'
    rw [htail, helems]
    exact ⟨hne, h'⟩
  unfold smpListPush at hrun
  rw [h.partElemMaxmnt] at hrun
  by_cases hfull : (list.mem list.tail).elemMnt = u
  · rw [if_pos hfull, Exec.bind_eq_ok] at hrun
    rcases hrun with ⟨⟨last, list₁⟩, hgrow, hrun⟩
    rcases h.grow hserves hpos hsize hgrow with ⟨h₁, hnew⟩
    by_cases hlast : last = 0
    · simp only [if_pos hlast, Exec.pure_eq, Except.ok.injEq, Prod.mk.injEq] at hrun
      rcases hrun with ⟨rfl, rfl⟩
      exact Or.inl ⟨rfl, h₁⟩
    · rcases hnew hlast with ⟨rfl, hempty⟩
      simp only [if_neg hlast, Exec.pure_eq, Except.ok.injEq] at hrun
      exact Or.inr (hout h₁ (hempty ▸ Nat.pos_of_mul_pos_left hpos) hrun)
  · simp only [if_neg hfull, Exec.pure_eq, Except.ok.injEq] at hrun
    exact Or.inr (hout h (Nat.lt_of_le_of_ne h.room hfull) hrun)

end Units

/-- The units after every run of pushes. -/
theorem Taken.units (hserves : calls.Serves Good blocks) (hpos : 0 < e * u)
    (hsize : e * u < 2 ^ 64) (hu : u < 2 ^ 32) (h₀ : Units Good blocks e u list [])
    (h : Taken calls list list' l) : Units Good blocks e u list' l := by
  induction h with
  | start => exact h₀
  | refused _ hpush ih =>
      rcases ih.push hserves hpos hsize hu hpush with ⟨-, h'⟩ | ⟨hne, -⟩
      · exact h'
      · exact absurd rfl hne
  | push _ hpush hne ih =>
      rcases ih.push hserves hpos hsize hu hpush with ⟨hnull, -⟩ | ⟨-, h'⟩
      · exact absurd hnull hne
      · exact h'

/-- The pushes into the first part need no memory. -/
theorem Taken.first_unit {n : Nat} (hu : u < 2 ^ 32) (hsize : list.elemSize = e)
    (hmax : list.partElemMaxmnt = u) (hempty : (list.mem list.tail).elemMnt = 0)
    (hstart : (list.mem list.tail).elems = start) (hne : start ≠ NULL) (hn : n ≤ u)
    (hoff : ∀ k < n, start + e * k < 2 ^ 64) :
    ∃ list', Taken calls list list' ((List.range n).map (slotAt e start)) ∧
      list'.elemSize = e ∧ list'.partElemMaxmnt = u ∧
      (list'.mem list'.tail).elemMnt = n ∧ (list'.mem list'.tail).elems = start := by
  induction n with
  | zero => exact ⟨list, .start, hsize, hmax, hempty, hstart⟩
  | succ n ih =>
      rcases ih (by omega) (fun k hk => hoff k (by omega)) with
        ⟨list₁, hrun, hsize₁, hmax₁, hmnt₁, hstart₁⟩
      have hcount : (n + 1) % 2 ^ 32 = n + 1 := Nat.mod_eq_of_lt (by omega)
      have hprod : (start + e * n) % 2 ^ 64 = start + e * n :=
        Nat.mod_eq_of_lt (hoff n (Nat.lt_succ_self n))
      have hroom : n ≠ u := by omega
      have hpush : smpListPush calls list₁ =
          .ok (start + e * n, list₁.setElemMnt list₁.tail (n + 1)) := by
        simp only [smpListPush, listTake, hmnt₁, hmax₁, if_neg hroom, hsize₁, hstart₁, hcount,
          hprod, Exec.pure_eq]
      refine ⟨list₁.setElemMnt list₁.tail (n + 1), ?_, ?_, ?_, ?_, ?_⟩
      · rw [List.range_succ, List.map_append]
        have htaken := hrun.push hpush fun hzero => hne (Nat.eq_zero_of_add_eq_zero hzero).1
        rw [SmpList.setElemMnt_tail, SmpList.setElemMnt_elems, hstart₁] at htaken
        exact htaken
      · exact hsize₁
      · exact hmax₁
      · simp
      · simpa using hstart₁

/-- The units of a new list. -/
theorem smpListCreate_units (hserves : calls.Serves Good blocks) (hsize : e * u < 2 ^ 64)
    {w w' : π} {raw : Nat → Lpart} (hw : Good w)
    (hcreate : smpListCreate calls w raw e u = .ok (some list, w')) :
    0 < e * u ∧ Units Good blocks e u list [] := by
  rcases smpListCreate_fields hserves hw hcreate with
    ⟨addr, elems, he, hu, -, -, -, hgood, hblock, hunit, rfl⟩
  rw [Nat.mod_eq_of_lt hsize] at hunit
  refine ⟨Nat.mul_pos he hu, ?_⟩
  constructor
  case good => exact hgood
  case elemSize => rfl
  case partElemMaxmnt => rfl
  case tail => exact ⟨sizeofList, by decide, hblock⟩
  case room => simp
  case block => simpa using hunit
  case requested => simp
  case dealt => simpa using Dealt.nil e u elems

/-- For which lists all slots of all runs stay inside their parts: those whose part size
does not leave the range of `size_t`. -/
theorem taken_ok_iff (hserves : calls.Serves Good blocks) (hu : u < 2 ^ 32) {w w' : π}
    {raw : Nat → Lpart} (hw : Good w)
    (hcreate : smpListCreate calls w raw e u = .ok (some list, w')) :
    (∀ list' l, Taken calls list list' l →
      SlotsOk blocks list'.mpool e (e * u % 2 ^ 64) l) ↔ e * u < 2 ^ 64 := by
  constructor
  · intro hok
    by_contra hlarge
    rcases smpListCreate_fields hserves hw hcreate with
      ⟨addr, elems, he, -, -, helems, hend, -, -, -, hlist⟩
    have hsizes : list.elemSize = e ∧ list.partElemMaxmnt = u := by simp [hlist]
    have hhead : list.mem list.tail = ⟨elems, 0, 0⟩ := by simp [hlist]
    have hmod := Nat.mod_lt (e * u) (Nat.two_pow_pos 64)
    rcases @exists_overrun e u (e * u % 2 ^ 64 + 1) he (Nat.succ_pos _) (by omega) with
      ⟨i, hi, hlo, hhi⟩
    have hoff : ∀ k < i + 1, elems + e * k < 2 ^ 64 := by
      intro k hk
      have hle : e * k ≤ e * u % 2 ^ 64 :=
        (Nat.mul_le_mul_left e (Nat.le_of_lt_succ hk)).trans (Nat.le_of_lt_succ hlo)
      exact Nat.lt_of_le_of_lt ((Nat.add_le_add_left hle _).trans hend) (by decide)
    rcases Taken.first_unit hu hsizes.1 hsizes.2 (congrArg Lpart.elemMnt hhead)
      (congrArg Lpart.elems hhead) helems hi hoff with ⟨list', hrun, -⟩
    exact not_inside (Nat.lt_succ_self i) hhi (hok _ _ hrun).inside
  · intro hsize list' l htaken
    rcases smpListCreate_units hserves hsize hw hcreate with ⟨hpos, hnew⟩
    have hunits := htaken.units hserves hpos hsize hu hnew
    rw [Nat.mod_eq_of_lt hsize]
    exact ⟨hunits.requested, hunits.dealt.inside (Nat.le_refl _), hunits.dealt.apart⟩

end PartList

/-! ## Both containers -/

/-- For which arguments the slots of an array or a list never leave their units, over all
runs of pushes on a container that was created: those for which the product that is the unit
size does not overflow, in `uint` for an array and in `size_t` for a list. -/
theorem slots_inside_iff (hserves : calls.Serves Good blocks) :
    (∀ (w w' : π) (e u : Nat) (array : GrowArray.SmpArray π), e < 2 ^ 32 → u < 2 ^ 32 → Good w →
      GrowArray.smpArrayInit calls w e u = .ok (some array, w') →
      ((∀ array' l, GrowArray.Taken calls array array' l →
        SlotsOk blocks array'.pool e (GrowArray.uint (e * u)) l) ↔ e * u < 2 ^ 32)) ∧
    ∀ (w w' : π) (raw : Nat → PartList.Lpart) (e u : Nat) (list : PartList.SmpList π),
      e < 2 ^ 64 → u < 2 ^ 32 → Good w →
      PartList.smpListCreate calls w raw e u = .ok (some list, w') →
      ((∀ list' l, PartList.Taken calls list list' l →
        SlotsOk blocks list'.mpool e (e * u % 2 ^ 64) l) ↔ e * u < 2 ^ 64) := by
  constructor
  · intro w w' e u array _ hu hw hinit
    exact GrowArray.taken_ok_iff hserves hu hw hinit
  · intro w w' raw e u list _ hu hw hcreate
    exact PartList.taken_ok_iff hserves hu hw hcreate

/-- An array and a list of eight-byte elements, five in a unit. -/
theorem slots_inside_iff_five :
    (∃ (array : GrowArray.SmpArray History) (h : History),
      GrowArray.smpArrayInit bumpPool [] 8 5 = .ok (some array, h) ∧
      ∀ array' l, GrowArray.Taken bumpPool array array' l → SlotsOk live array'.pool 8 40 l) ∧
    ∃ (list : PartList.SmpList History) (h : History),
      PartList.smpListCreate bumpPool [] (fun _ => ⟨0, 0, 0⟩) 8 5 = .ok (some list, h) ∧
      ∀ list' l, PartList.Taken bumpPool list list' l → SlotsOk live list'.mpool 8 40 l := by
  have hboth := @slots_inside_iff _ _ _ _ bumpPool_serves
  constructor
  · refine ⟨_, _, rfl, ?_⟩
    exact (hboth.1 [] _ 8 5 _ (by decide) (by decide) Trace.nil rfl).mpr (by decide)
  · refine ⟨_, _, rfl, ?_⟩
    exact (hboth.2 [] _ _ 8 5 _ (by decide) (by decide) Trace.nil rfl).mpr (by decide)

/-- With two bytes for each of {lit}`2 ^ 31 + 1` elements an array requests a unit of two
bytes, and the second push leaves it. -/
theorem not_slotsOk_wide : ∃ (array array' : GrowArray.SmpArray History) (h : History)
    (start : VoidPtr), GrowArray.smpArrayInit bumpPool [] 2 (2 ^ 31 + 1) = .ok (some array, h) ∧
    GrowArray.Taken bumpPool array array' [slotAt 2 start 0, slotAt 2 start 1] ∧
    GrowArray.uint (2 * (2 ^ 31 + 1)) = 2 ∧
    ¬ SlotsOk live array'.pool 2 2 [slotAt 2 start 0, slotAt 2 start 1] := by
  obtain ⟨array, h, hinit⟩ : ∃ array h,
      GrowArray.smpArrayInit bumpPool [] 2 (2 ^ 31 + 1) = .ok (some array, h) := ⟨_, _, rfl⟩
  rcases GrowArray.smpArrayInit_fields bumpPool_serves Trace.nil hinit with
    ⟨index, start, -, hstart, -, -, haddr, hamt, rfl⟩
  have hread : GrowArray.IndexTable.read { index with
      entry := Function.update index.entry 0 (some start) } 0 = .ok start := by
    simp [GrowArray.IndexTable.read, hamt, GrowArray.arrayIndexAmt]
  have hwide : 2 ^ 31 + 1 < 2 ^ 32 := by decide
  have htwo : 2 ≤ 2 ^ 31 + 1 := by decide
  have hoff : ∀ k < 2, 2 * k < 2 ^ 32 := by
    intro k hk
    omega
  refine ⟨_, _, h, start, hinit,
    GrowArray.Taken.first_unit hwide hread haddr hstart htwo hoff, by decide, ?_⟩
  intro hok
  exact not_inside Nat.one_lt_two (by decide) hok.inside

end Smpcil
