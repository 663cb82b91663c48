import Smpcil.Array.Traversal
import Smpcil.Pool.Lifetime
import Smpcil.UnitSlots

/-!
# The lives of arrays and lists

An array and a list over the pool of `smp_mpool.c`, from their creation to their end.  Their
units may be too big for the blocks of the pool; what such a request loses stays live.

Main results:

- Theorem {lit}`GrowArray.array_whole_life`: the memory of the elements of an array, and its end.
- Theorem {lit}`PartList.list_whole_life`: the same for a list.
-/

namespace Smpcil

open Allocator PoolCalls Slots
open Mpool (Env SoundEnv Life lifeCalls lifeCalls_serves maxOf firstAnswers
  sound_firstAnswers)

variable {π : Type} {calls : PoolCalls π} {Good : π → Prop} {env : Env} {e u : Nat}

/-! ## Arrays -/

namespace GrowArray

/-- A new array over a new pool. -/
theorem smpArrayInit_begun {w w' : π} {array : SmpArray π} (hw : Good w)
    (hinit : smpArrayInit calls w e u = .ok (some array, w')) :
    calls.Begun Good (fun _ => True) arrayPoolSize array.pool := by
  unfold smpArrayInit at hinit
  simp only at hinit
  split_ifs at hinit
  · simp at hinit
  rcases Exec.bind_eq_ok.mp hinit with ⟨⟨created, w₁⟩, hcreate, hinit⟩
  cases created with
  | false => simp at hinit
  | true =>
      simp only [not_true_eq_false, if_false] at hinit
      rcases Exec.bind_eq_ok.mp hinit with ⟨⟨m, w₂⟩, hcall₂, hinit⟩
      simp only at hinit
      split_ifs at hinit
      · rcases Exec.bind_eq_ok.mp hinit with ⟨w₃, -, hnone⟩
        simp at hnone
      rcases Exec.bind_eq_ok.mp hinit with ⟨⟨made, w₃⟩, hindex, hinit⟩
      have hasked₃ : calls.Asked (fun _ => True) w₂ w₃ := by
        rcases Exec.bind_eq_ok.mp hindex with ⟨⟨m₃, w₄⟩, hcall₃, hdone⟩
        simp only at hdone
        split_ifs at hdone
        · cases hdone
          exact .one trivial hcall₃
        · cases hdone
          exact .one trivial hcall₃
      cases made with
      | none =>
          rcases Exec.bind_eq_ok.mp hinit with ⟨w₄, -, hnone⟩
          simp at hnone
      | some index =>
          rcases Exec.bind_eq_ok.mp hinit with ⟨⟨start, w₄⟩, hcall₄, hinit⟩
          simp only at hinit
          split_ifs at hinit
          · rcases Exec.bind_eq_ok.mp hinit with ⟨w₅, -, hnone⟩
            simp at hnone
          · rcases Exec.bind_eq_ok.mp hinit with ⟨index', -, hdone⟩
            cases hdone
            have hasked := (Asked.one trivial hcall₂).trans hasked₃
            exact ⟨w, w₁, hw, hcreate, hasked.ask trivial hcall₄⟩

/-- A larger index table is asked for. -/
theorem smpArrayIndexRealloc_asked {array array' : SmpArray π} {st : Status}
    (hrun : smpArrayIndexRealloc calls array = .ok (st, array')) :
    calls.Asked (fun _ => True) array.pool array'.pool := by
  rcases Exec.bind_eq_ok.mp hrun with ⟨⟨m, pool⟩, hcall, hrun⟩
  simp only at hrun
  split_ifs at hrun
  · cases hrun
    exact .one trivial hcall
  · rcases Exec.bind_eq_ok.mp hrun with ⟨index, -, hdone⟩
    cases hdone
    exact .one trivial hcall

/-- A new unit is asked for. -/
theorem smpArrayNewUnit_asked {array array' : SmpArray π} {st : Status}
    (hrun : smpArrayNewUnit calls array = .ok (st, array')) :
    calls.Asked (fun _ => True) array.pool array'.pool := by
  rcases Exec.bind_eq_ok.mp hrun with ⟨⟨m, pool⟩, hcall, hrun⟩
  simp only at hrun
  split_ifs at hrun
  · cases hrun
    exact .one trivial hcall
  · rcases Exec.bind_eq_ok.mp hrun with ⟨index, -, hdone⟩
    cases hdone
    exact .one trivial hcall

/-- What a push asks for. -/
theorem smpArrayPush_asked {array array' : SmpArray π} {p : VoidPtr}
    (hrun : smpArrayPush calls array = .ok (p, array')) :
    calls.Asked (fun _ => True) array.pool array'.pool := by
  unfold smpArrayPush at hrun
  split_ifs at hrun
  · cases hrun
    exact .none
  rcases Exec.bind_eq_ok.mp hrun with ⟨⟨st, array₁⟩, hexpand, hrun⟩
  have hasked : calls.Asked (fun _ => True) array.pool array₁.pool := by
    unfold smpArrayExpand at hexpand
    split_ifs at hexpand
    · rcases Exec.bind_eq_ok.mp hexpand with ⟨⟨st₂, array₂⟩, hgrow, hexpand⟩
      have hgrown := smpArrayIndexRealloc_asked hgrow
      cases st₂ with
      | failure =>
          cases hexpand
          exact hgrown
      | ok => exact hgrown.trans (smpArrayNewUnit_asked hexpand)
    · exact smpArrayNewUnit_asked hexpand
    · cases hexpand
      exact .none
  cases st with
  | failure =>
      cases hrun
      exact hasked
  | ok =>
      rcases Exec.bind_eq_ok.mp hrun with ⟨start, -, hdone⟩
      cases hdone
      exact hasked

/-- The pool of every array was created and asked. -/
theorem Pushed.begun {array : SmpArray π} {l : List VoidPtr} (h : Pushed calls Good e u array l) :
    calls.Begun Good (fun _ => True) arrayPoolSize array.pool := by
  induction h with
  | init hw hinit => exact smpArrayInit_begun hw hinit
  | push _ hpush ih => exact ih.ask (smpArrayPush_asked hpush)

/-- After every run of pushes the elements of an array lie in live memory of the underlying
allocator.  Destroying the array hands them to `free_elems_func`, once and in order, and leaves
live only what was lost by requests too big for the blocks of the pool. -/
theorem array_whole_life (hs : SoundEnv env) (hpage : Mpool.sizeofBigPool ≤ env.pageSize)
    (hpos : 0 < e * u) (hlt : e * u < 2 ^ 32) {array : SmpArray Life} {l : List VoidPtr}
    (h : Pushed (lifeCalls env) (Life.Good env) e u array l) (hlen : l.length < 2 ^ 31) :
    (∀ p ∈ l, ∃ b ∈ live array.pool.history, Within ⟨p, e⟩ b) ∧
      (∀ b ∈ array.pool.lost, maxOf env arrayPoolSize < b.size) ∧
      ∃ life, life.Leaves array.pool.lost ∧ ∀ freeElemsFunc,
        smpArrayDestory (lifeCalls env) array freeElemsFunc =
          .ok (.ok, life, if freeElemsFunc = NULL then [] else l) := by
  rcases h.inv (lifeCalls_serves hs hpage) hpos hlt hlen with ⟨units, hfilled, -⟩
  rcases Life.begun_destory hs hpage h.begun with ⟨life, hrun, hleaves⟩
  refine ⟨fun p hp => ?_, fun b hb => ((Life.begun_lost hs hpage h.begun).2.1 b hb).2,
    life, hleaves, fun freeElemsFunc => ?_⟩
  · rw [hfilled.slots] at hp
    rcases List.mem_map.mp hp with ⟨k, hk, rfl⟩
    rw [List.mem_range, ← hfilled.length_eq] at hk
    rcases hfilled.slot_within hk with ⟨hq, hslot⟩
    have hunit : units.getD (k / u) NULL ∈ units := by
      rw [List.getD_eq_getElem _ _ hq]
      exact List.getElem_mem hq
    rcases hfilled.good.within (hfilled.unitBlock _ hunit) with ⟨c, hc, hin⟩
    exact ⟨c, hc, hslot.trans hin⟩
  · unfold smpArrayDestory
    by_cases hnull : freeElemsFunc = NULL
    · simp only [hnull, ne_eq, not_true_eq_false, if_false, if_true, Exec.pure_eq, Exec.ok_bind,
        hrun]
    · simp only [hnull, ne_eq, not_false_iff, if_true, if_false, hfilled.traversal, Exec.ok_bind,
        hrun, Exec.pure_eq]

/-- An array of four-byte elements, two in a unit, after three pushes. -/
theorem array_whole_life_sample : ∃ array life,
    Pushed (lifeCalls (firstAnswers 2)) (Life.Good (firstAnswers 2)) 4 2 array [360, 364, 368] ∧
      life.Leaves array.pool.lost ∧
      smpArrayDestory (lifeCalls (firstAnswers 2)) array 5 = .ok (.ok, life, [360, 364, 368]) := by
  have h₀ : Pushed (lifeCalls (firstAnswers 2)) (Life.Good (firstAnswers 2)) 4 2 _ [] :=
    @Pushed.init _ _ _ _ _ (Life.start (fun _ => ⟨0, 0, 0, 0⟩) fun _ => ⟨0, 0⟩) _ _
      (Life.good_start _ _) rfl
  have h₁ := @Pushed.push _ _ _ _ _ _ _ _ 360 h₀ rfl
  have h₂ := @Pushed.push _ _ _ _ _ _ _ _ 364 h₁ rfl
  have h₃ := @Pushed.push _ _ _ _ _ _ _ _ 368 h₂ rfl
  rcases array_whole_life (sound_firstAnswers 2) (by decide) (by decide) (by decide) h₃
    (by decide) with
    ⟨-, -, life, hleaves, hrun⟩
  exact ⟨_, life, h₃, hleaves, hrun 5⟩

end GrowArray

/-! ## Lists -/

namespace PartList

/-- A new list over a new pool. -/
theorem smpListCreate_begun {w w' : π} {raw : Nat → Lpart} {list : SmpList π} (hw : Good w)
    (hcreate : smpListCreate calls w raw e u = .ok (some list, w')) :
    calls.Begun Good (fun _ => True) listPoolSize list.mpool := by
  rcases Exec.bind_eq_ok.mp hcreate with ⟨⟨created, w₁⟩, hcall, hinit⟩
  cases created with
  | false => simp at hinit
  | true =>
      simp only [not_true_eq_false, if_false, smpListInit] at hinit
      split_ifs at hinit
      · simp at hinit
      rcases Exec.bind_eq_ok.mp hinit with ⟨⟨addr, w₂⟩, hcall₂, hinit⟩
      simp only at hinit
      split_ifs at hinit
      · simp at hinit
      rcases Exec.bind_eq_ok.mp hinit with ⟨⟨elems, w₃⟩, hcall₃, hinit⟩
      simp only at hinit
      split_ifs at hinit
      · simp at hinit
      cases hinit
      exact ⟨w, w₁, hw, hcall, (Asked.one trivial hcall₂).ask trivial hcall₃⟩

/-- What a push asks for. -/
theorem smpListPush_asked {list list' : SmpList π} {p : VoidPtr}
    (hrun : smpListPush calls list = .ok (p, list')) :
    calls.Asked (fun _ => True) list.mpool list'.mpool := by
  unfold smpListPush at hrun
  split_ifs at hrun
  · rcases Exec.bind_eq_ok.mp hrun with ⟨⟨last, list₁⟩, hgrow, hrun⟩
    have hasked : calls.Asked (fun _ => True) list.mpool list₁.mpool := by
      rcases Exec.bind_eq_ok.mp hgrow with ⟨⟨m, pool⟩, hcall, hgrow⟩
      simp only at hgrow
      split_ifs at hgrow
      · cases hgrow
        exact .one trivial hcall
      rcases Exec.bind_eq_ok.mp hgrow with ⟨⟨elems, pool₂⟩, hcall₂, hgrow⟩
      simp only at hgrow
      split_ifs at hgrow
      · cases hgrow
        exact (Asked.one trivial hcall).ask trivial hcall₂
      · cases hgrow
        exact (Asked.one trivial hcall).ask trivial hcall₂
    simp only at hrun
    split_ifs at hrun
    · cases hrun
      exact hasked
    · cases hrun
      exact hasked
  · cases hrun
    exact .none

/-- The pool of every list was created and asked. -/
theorem Taken.begun {size : Nat} {list list' : SmpList π} {l : List Slot}
    (h₀ : calls.Begun Good (fun _ => True) size list.mpool) (h : Taken calls list list' l) :
    calls.Begun Good (fun _ => True) size list'.mpool := by
  induction h with
  | start => exact h₀
  | refused _ hpush ih => exact ih.ask (smpListPush_asked hpush)
  | push _ hpush _ ih => exact ih.ask (smpListPush_asked hpush)

/-- After every run of pushes the elements of a list lie in live memory of the underlying
allocator.  Destroying the list leaves live only what was lost by requests too big for the
blocks of the pool. -/
theorem list_whole_life (hs : SoundEnv env) (hpage : Mpool.sizeofBigPool ≤ env.pageSize)
    (hsize : e * u < 2 ^ 64) (hu : u < 2 ^ 32) {w w' : Life} {raw : Nat → Lpart}
    {list list' : SmpList Life} {l : List Slot} (hw : w.Good env)
    (hcreate : smpListCreate (lifeCalls env) w raw e u = .ok (some list, w'))
    (h : Taken (lifeCalls env) list list' l) :
    (∀ s ∈ l, ∃ b ∈ live list'.mpool.history, Within ⟨s.addr, e⟩ b) ∧
      (∀ b ∈ list'.mpool.lost, maxOf env listPoolSize < b.size) ∧
      ∃ life, life.Leaves list'.mpool.lost ∧
        smpListDestory (lifeCalls env) list' = .ok (.ok, life) := by
  have hserves := lifeCalls_serves hs hpage
  rcases smpListCreate_units hserves hsize hw hcreate with ⟨hpos, hnew⟩
  have hunits := h.units hserves hpos hsize hu hnew
  have hbegun := h.begun (smpListCreate_begun hw hcreate)
  rcases Life.begun_destory hs hpage hbegun with ⟨life, hrun, hleaves⟩
  refine ⟨fun s hslot => ?_, fun b hb => ((Life.begun_lost hs hpage hbegun).2.1 b hb).2,
    life, hleaves, ?_⟩
  · rcases hunits.good.within (hunits.requested s hslot) with ⟨c, hc, hin⟩
    exact ⟨c, hc, (hunits.dealt.inside (Nat.le_refl _) s hslot).trans hin⟩
  · simp only [smpListDestory, hrun, Exec.ok_bind, Exec.pure_eq]

/-- A list of eight-byte elements, one in a part, after two pushes. -/
theorem list_whole_life_sample : ∃ list life w', smpListCreate (lifeCalls (firstAnswers 2))
    (Life.start (fun _ => ⟨0, 0, 0, 0⟩) fun _ => ⟨0, 0⟩) (fun _ => ⟨0, 0, 0⟩) 8 1 =
      .ok (some list, w') ∧ ∃ list', Taken (lifeCalls (firstAnswers 2)) list list'
        [⟨120, 120⟩, ⟨152, 152⟩] ∧ life.Leaves list'.mpool.lost ∧
          smpListDestory (lifeCalls (firstAnswers 2)) list' = .ok (.ok, life) := by
  obtain ⟨list, w', list₁, list₂, hcreate, hpush₁, hpush₂, helems₁, helems₂⟩ :
      ∃ list w' list₁ list₂, smpListCreate (lifeCalls (firstAnswers 2))
        (Life.start (fun _ => ⟨0, 0, 0, 0⟩) fun _ => ⟨0, 0⟩) (fun _ => ⟨0, 0, 0⟩) 8 1 =
          .ok (some list, w') ∧ smpListPush (lifeCalls (firstAnswers 2)) list = .ok (120, list₁) ∧
        smpListPush (lifeCalls (firstAnswers 2)) list₁ = .ok (152, list₂) ∧
        (list₁.mem list₁.tail).elems = 120 ∧ (list₂.mem list₂.tail).elems = 152 :=
    ⟨_, _, _, _, rfl, rfl, rfl, rfl, rfl⟩
  have h₁ := Taken.start.push hpush₁ (by decide)
  have h₂ := h₁.push hpush₂ (by decide)
  rw [helems₁, helems₂] at h₂
  rcases list_whole_life (sound_firstAnswers 2) (by decide) (by decide) (by decide)
    (Life.good_start _ _) hcreate h₂ with ⟨-, -, life, hleaves, hrun⟩
  exact ⟨list, life, w', hcreate, list₂, h₂, hleaves, hrun⟩

end PartList
end Smpcil
