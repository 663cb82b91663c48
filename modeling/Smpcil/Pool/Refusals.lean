import Smpcil.Pool.Termination
import Smpcil.Pool.Release

/-!
# Requests that return null

What a request leaves behind when it returns null, over any answers of the underlying
allocator and in any state of a pool.

Main results:

- Theorem {lit}`smpMpalloc_null_small`: when a small request returns null.
- Theorem {lit}`smpMpalloc_record_null`: when the request for a record returns null.
- Theorem {lit}`bigKeepsNothing_iff`: when a big request that returns null keeps nothing.
-/

namespace Smpcil
namespace Mpool

open Allocator Chains
open Loops (Pass loop loop_mono loop_partial loop_ok_again)

variable {env : Env} {pool pool' : Pool} {n fuel p q m : Nat}

/-- A block that is live stays so while the allocator answers a request. -/
theorem live_alloc_of {h : History} {b : Block} (hb : b ∈ live h) (size : Nat)
    (answer : Option Nat) : b ∈ live (.alloc size answer :: h) := by
  cases answer with
  | none => exact hb
  | some c => exact List.mem_cons_of_mem _ hb

/-- A call has changed no record and no link of the blocks, and has freed nothing. -/
structure OnlyAllocs (pool pool' : Pool) : Prop where
  addr : pool'.addr = pool.addr
  next : ∀ b, (pool'.data b).next = (pool.data b).next
  big : pool'.big = pool.big
  bigPool : pool'.bigPool = pool.bigPool
  kept : ∀ b ∈ live pool.history, b ∈ live pool'.history

namespace OnlyAllocs

theorem refl (pool : Pool) : OnlyAllocs pool pool :=
  ⟨rfl, fun _ => rfl, rfl, rfl, fun _ hb => hb⟩

theorem trans {pool'' : Pool} (h : OnlyAllocs pool pool') (h' : OnlyAllocs pool' pool'') :
    OnlyAllocs pool pool'' :=
  ⟨h'.addr.trans h.addr, fun b => (h'.next b).trans (h.next b), h'.big.trans h.big,
    h'.bigPool.trans h.bigPool, fun b hb => h'.kept b (h.kept b hb)⟩

end OnlyAllocs

theorem smpMemalign_onlyAllocs (env : Env) (pool : Pool) (n : Nat) :
    OnlyAllocs pool (smpMemalign env pool n).2 := by
  refine ⟨rfl, fun _ => rfl, rfl, rfl, fun b hb => ?_⟩
  unfold smpMemalign smpAlloc
  simp only
  split_ifs
  · rw [Env.live_setError]
    exact live_alloc_of hb n _
  · exact live_alloc_of hb n _

theorem smpCalloc_onlyAllocs (env : Env) (pool : Pool) (n : Nat) :
    OnlyAllocs pool (smpCalloc env pool n).2 := by
  have hmemalign := smpMemalign_onlyAllocs env pool n
  unfold smpMemalign at hmemalign
  unfold smpCalloc
  simp only
  split_ifs
  · exact { hmemalign with }
  · refine ⟨hmemalign.addr, hmemalign.next, hmemalign.big, hmemalign.bigPool, fun b hb => ?_⟩
    dsimp only
    rw [Env.live_setError]
    exact hmemalign.kept b hb

theorem setLast_onlyAllocs (pool : Pool) (q v : Nat) : OnlyAllocs pool (pool.setLast q v) := by
  constructor
  case addr => rfl
  case next => exact pool.setLast_next q v
  case big => rfl
  case bigPool => rfl
  case kept => exact fun b hb => hb

/-! ## Small requests -/

/-- The room in a block, as `smp_mpalloc` computes it. -/
def room (pool : Pool) (b : Nat) : Nat :=
  sizeOfDiff (pool.data b).dataEnd (smpAlignPtr (pool.data b).last poolAlignment)

/-- The search for {lit}`n` bytes that starts at block {lit}`p` comes to block {lit}`q`: the
blocks before it have no room. -/
inductive Skipped (pool : Pool) (n p : Nat) : Nat → Prop where
  | refl : Skipped pool n p p
  | next {q : Nat} : Skipped pool n p q → room pool q < n → (pool.data q).next ≠ 0 →
      Skipped pool n p (pool.data q).next

theorem mpallocPass_eq (pool : Pool) (n q : Nat) : mpallocPass pool n q =
    if n ≤ room pool q then
      .ok (.done (some (q, smpAlignPtr (pool.data q).last poolAlignment)))
    else if (pool.data q).next ≠ 0 then .ok (.again (pool.data q).next) else .ok (.done none) :=
  rfl

/-- What the search finds from a later block it finds from the first one. -/
theorem Skipped.run (h : Skipped pool n p q) {found : Option (Nat × Nat)}
    (hrun : ∃ fuel, loop .diverged (mpallocPass pool n) fuel q = .ok found) :
    ∃ fuel, loop .diverged (mpallocPass pool n) fuel p = .ok found := by
  induction h with
  | refl => exact hrun
  | next _ hfull hnext ih =>
      rcases hrun with ⟨fuel, hrun⟩
      apply ih
      refine ⟨fuel + 1, ?_⟩
      simpa [loop, mpallocPass_eq, Nat.not_le.mpr hfull, hnext] using hrun

/-- Where the search ends: at the first block with room, or at the last block. -/
theorem mpallocPass_ended {found : Option (Nat × Nat)}
    (hrun : loop .diverged (mpallocPass pool n) fuel p = .ok found) :
    ∃ q, Skipped pool n p q ∧
      ((room pool q < n ∧ (pool.data q).next = 0 ∧ found = none) ∨
        (n ≤ room pool q ∧
          found = some (q, smpAlignPtr (pool.data q).last poolAlignment))) := by
  refine loop_partial (Skipped pool n p) (fun found => ∃ q, Skipped pool n p q ∧
    ((room pool q < n ∧ (pool.data q).next = 0 ∧ found = none) ∨
      (n ≤ room pool q ∧ found = some (q, smpAlignPtr (pool.data q).last poolAlignment))))
    ?_ ?_ Skipped.refl hrun
  · intro q found hq hpass
    rw [mpallocPass_eq] at hpass
    split_ifs at hpass with hroom hnext
    · simp only [Except.ok.injEq, Pass.done.injEq] at hpass
      exact ⟨q, hq, Or.inr ⟨hroom, hpass.symm⟩⟩
    · simp at hpass
    · simp only [Except.ok.injEq, Pass.done.injEq] at hpass
      exact ⟨q, hq, Or.inl ⟨Nat.not_le.mp hroom, not_not.mp hnext, hpass.symm⟩⟩
  · intro q q' hq hpass
    rw [mpallocPass_eq] at hpass
    split_ifs at hpass with hroom hnext
    · simp at hpass
    · simp only [Except.ok.injEq, Pass.again.injEq] at hpass
      exact hpass ▸ hq.next (Nat.not_le.mp hroom) hnext
    · simp at hpass

/-- A small request finds no room and gets no further block.  A block whose free part
starts at address zero, behind a wrapped pointer, also makes it return null. -/
def SmallNull (env : Env) (pool : Pool) (n : Nat) : Prop :=
  ∃ q, Skipped pool n pool.current q ∧
    ((room pool q < n ∧ (pool.data q).next = 0 ∧
        env.place pool.history (sizeOfDiff (pool.data pool.addr).dataEnd pool.addr) = none) ∨
      (n ≤ room pool q ∧ smpAlignPtr (pool.data q).last poolAlignment = 0))

/-- A request that a new block was linked for is answered with an address. -/
theorem mpallocBlockLink_ne_null {newP psize : Nat} (hbound : newP ≤ 2 ^ 47)
    (hrun : mpallocBlockLink fuel pool newP psize n = .ok (m, pool')) : m ≠ 0 := by
  unfold mpallocBlockLink at hrun
  rw [Exec.bind_eq_ok] at hrun
  rcases hrun with ⟨r, -, hdone⟩
  simp only [Exec.pure_eq, Except.ok.injEq, Prod.mk.injEq] at hdone
  rw [← hdone.1]
  unfold smpAlignPtr sizeofPoolData poolAlignment
  omega

/-- A small request that returns null. -/
theorem smpMpalloc_null_small (hs : SoundEnv env) (hn : n ≤ pool.max)
    (hrun : smpMpalloc env fuel pool n = .ok (0, pool')) :
    SmallNull env pool n ∧ OnlyAllocs pool pool' := by
  cases fuel with
  | zero => simp [smpMpalloc] at hrun
  | succ fuel =>
      rw [smpMpalloc, if_pos hn, Exec.bind_eq_ok] at hrun
      rcases hrun with ⟨found, hsearch, hrun⟩
      rcases mpallocPass_ended hsearch with ⟨q, hq, ⟨hfull, hlast, rfl⟩ | ⟨hroom, rfl⟩⟩
      · simp only [smpMpallocBlock, smpMemalign, smpAlloc] at hrun
        cases hplace : env.place pool.history
            (sizeOfDiff (pool.data pool.addr).dataEnd pool.addr) with
        | none =>
            simp only [hplace, Option.getD_none, if_true, Except.ok.injEq, Prod.mk.injEq,
              true_and] at hrun
            subst hrun
            have honly := smpMemalign_onlyAllocs env pool
              (sizeOfDiff (pool.data pool.addr).dataEnd pool.addr)
            simp only [smpMemalign, smpAlloc, hplace] at honly
            exact ⟨⟨q, hq, Or.inl ⟨hfull, hlast, hplace⟩⟩, honly⟩
        | some a =>
            have hbound := hs.bounded hplace
            simp only [hplace, Option.getD_some, if_neg (Nat.pos_iff_ne_zero.mp
              (hs.nonzero hplace))] at hrun
            exact absurd rfl (mpallocBlockLink_ne_null (by omega) hrun)
      · simp only [Exec.pure_eq, Except.ok.injEq, Prod.mk.injEq] at hrun
        rcases hrun with ⟨hzero, rfl⟩
        exact ⟨⟨q, hq, Or.inr ⟨hroom, hzero⟩⟩, setLast_onlyAllocs _ _ _⟩

/-- Such a request does return null, with enough fuel. -/
theorem SmallNull.run (hn : n ≤ pool.max) (h : SmallNull env pool n) :
    ∃ k pool', ∀ fuel, k ≤ fuel → smpMpalloc env fuel pool n = .ok (0, pool') := by
  rcases h with ⟨q, hq, ⟨hfull, hlast, hplace⟩ | ⟨hroom, hzero⟩⟩
  · have hend : ∃ fuel, loop .diverged (mpallocPass pool n) fuel q = .ok none :=
      ⟨1, by simp [loop, mpallocPass_eq, Nat.not_le.mpr hfull, hlast]⟩
    rcases hq.run hend with ⟨k, hsearch⟩
    refine ⟨k + 1, (smpMemalign env pool
      (sizeOfDiff (pool.data pool.addr).dataEnd pool.addr)).2, fun fuel hfuel => ?_⟩
    obtain ⟨fuel, rfl⟩ : ∃ j, fuel = j + 1 := ⟨fuel - 1, by omega⟩
    rw [smpMpalloc, if_pos hn, loop_mono (by omega) hsearch]
    simp [smpMpallocBlock, smpMemalign, smpAlloc, hplace]
  · have hend : ∃ fuel, loop .diverged (mpallocPass pool n) fuel q =
        .ok (some (q, smpAlignPtr (pool.data q).last poolAlignment)) :=
      ⟨1, by simp [loop, mpallocPass_eq, hroom]⟩
    rcases hq.run hend with ⟨k, hsearch⟩
    refine ⟨k + 1, pool.setLast q (0 + n), fun fuel hfuel => ?_⟩
    obtain ⟨fuel, rfl⟩ : ∃ j, fuel = j + 1 := ⟨fuel - 1, by omega⟩
    rw [smpMpalloc, if_pos hn, loop_mono (by omega) hsearch]
    simp [hzero]

/-! ## Requests for records -/

/-- The first {lit}`k` records from {lit}`r` on are in use. -/
def InUse (big : Nat → BigPool) : Nat → Nat → Prop
  | 0, _ => True
  | k + 1, r => r = 0 ∨ ((big r).alloc ≠ 0 ∧ InUse big k (big r).next)

/-- A call that changes no record frees none. -/
theorem OnlyAllocs.inUse (h : OnlyAllocs pool pool') (hused : InUse pool.big 5 pool.bigPool) :
    InUse pool'.big 5 pool'.bigPool := by
  rw [h.big, h.bigPool]
  exact hused

/-- The search for a free record finds none when the first five are in use. -/
theorem freeRecordPass_none_iff {found : Option Nat}
    (hrun : loop .diverged (freeRecordPass pool) fuel (pool.bigPool, 0) = .ok found) :
    found = none ↔ InUse pool.big 5 pool.bigPool := by
  have hwalk : ∀ k c r fuel, c + k = 4 →
      loop .diverged (freeRecordPass pool) fuel (r, c) = .ok found →
      (found = none ↔ InUse pool.big (k + 1) r) := by
    intro k
    induction k with
    | zero =>
        intro c r fuel hc hrun
        cases fuel with
        | zero => simp [loop] at hrun
        | succ fuel =>
            have hfar : c > 3 := by omega
            by_cases hr : r = 0
            · simp [loop, freeRecordPass, hr] at hrun
              simp [InUse, hr, ← hrun]
            · by_cases hfree : (pool.big r).alloc = 0
              · simp [loop, freeRecordPass, hr, hfree] at hrun
                simp [InUse, hr, hfree, ← hrun]
              · simp [loop, freeRecordPass, hr, hfree, hfar] at hrun
                simp [InUse, hfree, ← hrun]
    | succ k ih =>
        intro c r fuel hc hrun
        cases fuel with
        | zero => simp [loop] at hrun
        | succ fuel =>
            have hnear : ¬ c > 3 := by omega
            by_cases hr : r = 0
            · simp [loop, freeRecordPass, hr] at hrun
              simp [InUse, hr, ← hrun]
            · by_cases hfree : (pool.big r).alloc = 0
              · simp [loop, freeRecordPass, hr, hfree] at hrun
                simp [InUse, hr, hfree, ← hrun]
              · simp [loop, freeRecordPass, hr, hfree, hnear] at hrun
                have hrest := ih (c + 1) (pool.big r).next fuel (by omega) hrun
                rw [hrest]
                conv_rhs => rw [InUse]
                simp [hr, hfree]
  exact hwalk 4 0 pool.bigPool fuel rfl hrun

/-- The search with enough fuel, when the first five records are in use. -/
theorem freeRecordPass_inUse (hused : InUse pool.big 5 pool.bigPool) (hfuel : 5 ≤ fuel) :
    loop .diverged (freeRecordPass pool) fuel (pool.bigPool, 0) = .ok none := by
  rcases freeRecordPass_returns pool hfuel with ⟨found, hrun⟩
  rw [hrun, (freeRecordPass_none_iff hrun).mpr hused]

/-- A row of requests for records, each a big one, meets a refusal. -/
inductive Starves (place : Strategy) : History → Prop where
  | here {h : History} : place h sizeofBigPool = none → Starves place h
  | later {h : History} {a : Nat} : place h sizeofBigPool = some a →
      Starves place (.alloc sizeofBigPool (some a) :: h) → Starves place h

/-- The request for a record gets no memory: from the blocks of the pool if it is a small
request, and from the row of requests that it starts otherwise. -/
def RecordNull (env : Env) (pool : Pool) : Prop :=
  (sizeofBigPool ≤ pool.max ∧ SmallNull env pool sizeofBigPool) ∨
    (pool.max < sizeofBigPool ∧ Starves env.place pool.history)

/-- What `smp_calloc` answers when its request is refused. -/
theorem smpCalloc_refused (hp : env.place pool.history n = none) :
    (smpCalloc env pool n).1 = 0 ∧
      (smpCalloc env pool n).2.history =
        env.setError (env.setError (.alloc n none :: pool.history)) := by
  simp [smpCalloc, smpAlloc, hp]

/-- What `smp_calloc` answers when its request is granted. -/
theorem smpCalloc_granted (hs : SoundEnv env) (hp : env.place pool.history n = some p) :
    (smpCalloc env pool n).1 = p ∧ p ≠ 0 ∧
      (smpCalloc env pool n).2.history = .alloc n (some p) :: pool.history := by
  have hne : p ≠ 0 := Nat.pos_iff_ne_zero.mp (hs.nonzero hp)
  simp [smpCalloc, smpAlloc, hp, hne]

/-- Asking the allocator does not change the largest small request. -/
theorem smpCalloc_max : (smpCalloc env pool n).2.max = pool.max := by
  unfold smpCalloc
  simp only
  split_ifs
  · rfl
  · rfl

/-- Where records are no small requests and none is free, a request for a record never gets
one. -/
theorem smpMpalloc_starves (hs : SoundEnv env) (hmax : pool.max < sizeofBigPool)
    (hused : InUse pool.big 5 pool.bigPool)
    (hrun : smpMpalloc env fuel pool sizeofBigPool = .ok (m, pool')) :
    m = 0 ∧ Starves env.place pool.history ∧ OnlyAllocs pool pool' := by
  induction fuel generalizing pool m pool' with
  | zero => simp [smpMpalloc] at hrun
  | succ fuel ih =>
      have honly := smpCalloc_onlyAllocs env pool sizeofBigPool
      have hless : (smpCalloc env pool sizeofBigPool).2.max < sizeofBigPool := by
        rw [smpCalloc_max]
        exact hmax
      have hused' := honly.inUse hused
      rw [smpMpalloc, if_neg (Nat.not_le.mpr hmax), smpMpallocBigpool] at hrun
      cases hp : env.place pool.history sizeofBigPool with
      | none =>
          simp only [(smpCalloc_refused hp).1, if_true, Exec.pure_eq, Except.ok.injEq,
            Prod.mk.injEq] at hrun
          rcases hrun with ⟨rfl, rfl⟩
          exact ⟨rfl, .here hp, honly⟩
      | some a =>
          rcases smpCalloc_granted hs hp with ⟨heq, hne, hhistory⟩
          simp only [heq, if_neg hne, Exec.bind_eq_ok] at hrun
          rcases hrun with ⟨found, hfound, hrun⟩
          rw [(freeRecordPass_none_iff hfound).mpr hused', Exec.bind_eq_ok] at hrun
          rcases hrun with ⟨⟨r, u⟩, hcall, hrun⟩
          rcases ih hless hused' hcall with ⟨rfl, hstarves, honly'⟩
          simp only [if_true, smpFree, ne_eq, not_true_eq_false, if_false, Exec.pure_eq,
            Except.ok.injEq, Prod.mk.injEq] at hrun
          rcases hrun with ⟨rfl, rfl⟩
          rw [hhistory] at hstarves
          exact ⟨rfl, .later hp hstarves, honly.trans honly'⟩

/-- A row of requests that meets a refusal ends, with null. -/
theorem Starves.run (hs : SoundEnv env) {h : History} (hstarves : Starves env.place h) :
    ∀ {pool : Pool}, pool.history = h → pool.max < sizeofBigPool →
      InUse pool.big 5 pool.bigPool →
      ∃ k pool', ∀ fuel, k ≤ fuel → smpMpalloc env fuel pool sizeofBigPool = .ok (0, pool') := by
  induction hstarves with
  | here hp =>
      intro pool hhistory hmax hused
      subst hhistory
      refine ⟨1, (smpCalloc env pool sizeofBigPool).2, fun fuel hfuel => ?_⟩
      obtain ⟨fuel, rfl⟩ : ∃ j, fuel = j + 1 := ⟨fuel - 1, by omega⟩
      rw [smpMpalloc, if_neg (Nat.not_le.mpr hmax), smpMpallocBigpool]
      simp only [(smpCalloc_refused hp).1, if_true, Exec.pure_eq]
  | later hp _ ih =>
      intro pool hhistory hmax hused
      subst hhistory
      have honly := smpCalloc_onlyAllocs env pool sizeofBigPool
      have hless : (smpCalloc env pool sizeofBigPool).2.max < sizeofBigPool := by
        rw [smpCalloc_max]
        exact hmax
      have hused' := honly.inUse hused
      rcases smpCalloc_granted hs hp with ⟨heq, hne, hhistory⟩
      rcases ih hhistory hless hused' with ⟨k, pool', hrun⟩
      refine ⟨max k 5 + 1, pool', fun fuel hfuel => ?_⟩
      obtain ⟨fuel, rfl⟩ : ∃ j, fuel = j + 1 := ⟨fuel - 1, by omega⟩
      have hsearch := @freeRecordPass_inUse _ (fuel + 1) hused' (by omega)
      rw [smpMpalloc, if_neg (Nat.not_le.mpr hmax), smpMpallocBigpool]
      simp only [heq, if_neg hne, hsearch, hrun fuel (by omega), Exec.ok_bind, if_true, smpFree,
        ne_eq, not_true_eq_false, if_false, Exec.pure_eq]

/-- A request for a record that returns null. -/
theorem smpMpalloc_record_null (hs : SoundEnv env) (hused : InUse pool.big 5 pool.bigPool)
    (hrun : smpMpalloc env fuel pool sizeofBigPool = .ok (0, pool')) :
    RecordNull env pool ∧ OnlyAllocs pool pool' := by
  by_cases hmax : sizeofBigPool ≤ pool.max
  · rcases smpMpalloc_null_small hs hmax hrun with ⟨hnull, honly⟩
    exact ⟨Or.inl ⟨hmax, hnull⟩, honly⟩
  · have hless := Nat.not_le.mp hmax
    rcases smpMpalloc_starves hs hless hused hrun with ⟨-, hstarves, honly⟩
    exact ⟨Or.inr ⟨hless, hstarves⟩, honly⟩

/-- Such a request does return null, with enough fuel. -/
theorem RecordNull.run (hs : SoundEnv env) (hused : InUse pool.big 5 pool.bigPool)
    (h : RecordNull env pool) :
    ∃ k pool', ∀ fuel, k ≤ fuel → smpMpalloc env fuel pool sizeofBigPool = .ok (0, pool') := by
  rcases h with ⟨hmax, hnull⟩ | ⟨hless, hstarves⟩
  · exact hnull.run hmax
  · exact hstarves.run hs rfl hless hused

/-! ## Big requests -/

/-- The block of a big request is granted, and there is no record for it. -/
def Unrecorded (env : Env) (pool : Pool) (n : Nat) : Prop :=
  InUse pool.big 5 pool.bigPool ∧
    ∃ p, env.place pool.history n = some p ∧ RecordNull env (smpCalloc env pool n).2

/-- A big request that returns null has got no block, or no record for its block. -/
theorem smpMpallocBigpool_null (hs : SoundEnv env)
    (hrun : smpMpallocBigpool env (smpMpalloc env fuel) (fuel + 1) pool n = .ok (0, pool')) :
    OnlyAllocs (smpCalloc env pool n).2 pool' ∧
      ((env.place pool.history n = none ∧ pool' = (smpCalloc env pool n).2) ∨
        Unrecorded env pool n) := by
  have honly := smpCalloc_onlyAllocs env pool n
  rw [smpMpallocBigpool] at hrun
  cases hp : env.place pool.history n with
  | none =>
      simp only [(smpCalloc_refused hp).1, if_true, Exec.pure_eq, Except.ok.injEq, Prod.mk.injEq,
        true_and] at hrun
      subst hrun
      exact ⟨.refl _, Or.inl ⟨rfl, rfl⟩⟩
  | some p =>
      rcases smpCalloc_granted hs hp with ⟨heq, hne, -⟩
      simp only [heq, if_neg hne, Exec.bind_eq_ok] at hrun
      rcases hrun with ⟨found, hfound, hrun⟩
      cases found with
      | some r =>
          simp only [Exec.pure_eq, Except.ok.injEq, Prod.mk.injEq] at hrun
          exact absurd hrun.1 hne
      | none =>
          have hused := (freeRecordPass_none_iff hfound).mp rfl
          simp only [Exec.bind_eq_ok] at hrun
          rcases hrun with ⟨⟨r, u⟩, hcall, hrun⟩
          by_cases hr : r = 0
          · subst hr
            rcases smpMpalloc_record_null hs hused hcall with ⟨hnull, honly'⟩
            simp only [if_true, smpFree, ne_eq, not_true_eq_false, if_false, Exec.pure_eq,
              Except.ok.injEq, Prod.mk.injEq, true_and] at hrun
            subst hrun
            rw [honly.big, honly.bigPool] at hused
            exact ⟨honly', Or.inr ⟨hused, p, hp, hnull⟩⟩
          · simp only [if_neg hr, Exec.pure_eq, Except.ok.injEq, Prod.mk.injEq] at hrun
            exact absurd hrun.1 hne

/-- Without a record a big request does return null, with enough fuel. -/
theorem Unrecorded.run (hs : SoundEnv env) (h : Unrecorded env pool n) :
    ∃ k pool', ∀ fuel, k ≤ fuel →
      smpMpallocBigpool env (smpMpalloc env fuel) (fuel + 1) pool n = .ok (0, pool') := by
  rcases h with ⟨hused, p, hp, hnull⟩
  have honly := smpCalloc_onlyAllocs env pool n
  have hused' := honly.inUse hused
  rcases smpCalloc_granted hs hp with ⟨heq, hne, -⟩
  rcases hnull.run hs hused' with ⟨k, pool', hcall⟩
  refine ⟨max k 4, pool', fun fuel hfuel => ?_⟩
  have hsearch := @freeRecordPass_inUse _ (fuel + 1) hused' (by omega)
  simp only [smpMpallocBigpool, heq, if_neg hne, hsearch, hcall fuel (by omega), Exec.ok_bind,
    if_true, smpFree, ne_eq, not_true_eq_false, if_false, Exec.pure_eq]

/-- The block of a big request stays live behind calls that free nothing. -/
theorem OnlyAllocs.calloc_live (hs : SoundEnv env) (h : OnlyAllocs (smpCalloc env pool n).2 pool')
    (hp : env.place pool.history n = some p) : ⟨p, n⟩ ∈ live pool'.history := by
  apply h.kept
  rw [(smpCalloc_granted hs hp).2.2]
  exact List.mem_cons_self

/-- If a big request returns null, its block is freed and the records are as before. -/
def BigKeepsNothing (env : Env) (pool : Pool) (n : Nat) : Prop :=
  ∀ fuel pool', smpMpallocBigpool env (smpMpalloc env fuel) (fuel + 1) pool n = .ok (0, pool') →
    (∀ p, env.place pool.history n = some p → ¬ LiveAt pool'.history p) ∧
      pool'.big = pool.big ∧ pool'.bigPool = pool.bigPool

/-- When a big request that returns null keeps nothing, in every state of a pool: always,
unless its block is granted and there is no record for it. -/
theorem bigKeepsNothing_iff (hs : SoundEnv env) (pool : Pool) (n : Nat) :
    BigKeepsNothing env pool n ↔ ¬ Unrecorded env pool n := by
  constructor
  · intro hkeeps hunrecorded
    rcases hunrecorded.run hs with ⟨k, pool', hrun⟩
    rcases hunrecorded with ⟨-, p, hp, -⟩
    have hnull := hrun k (Nat.le_refl k)
    have hlive := (smpMpallocBigpool_null hs hnull).1.calloc_live hs hp
    exact (hkeeps _ _ hnull).1 p hp ⟨_, hlive, rfl⟩
  · intro hnot fuel pool' hrun
    rcases smpMpallocBigpool_null hs hrun with ⟨honly, ⟨hp, -⟩ | hunrecorded⟩
    · have hall := (smpCalloc_onlyAllocs env pool n).trans honly
      exact ⟨by simp [hp], hall.big, hall.bigPool⟩
    · exact absurd hunrecorded hnot

end Mpool
end Smpcil
