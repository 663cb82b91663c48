import Smpcil.Pool.Refusals

/-!
# The first block of a pool

The first requests on a new pool, for every creation size: which of them are carved from
the block that the pool was created in, and which return null.

Main results:

- Definition {lit}`OneBlock`: a pool that has not grown.
- Theorem {lit}`OneBlock.carve`: a request with room in the block.
- Theorem {lit}`OneBlock.refused_of_null`: what was refused to a request that returns null.
- Theorem {lit}`smpMpdestory_single`: what destroying the pool frees.
-/

namespace Smpcil
namespace Mpool

open Allocator
open Loops (Pass loop)

variable {env : Env} {pool pool' : Pool} {n fuel p s off : Nat}

/-- A pool of one block of {lit}`s` bytes at {lit}`p`, the first {lit}`off` of them in use,
without big requests. -/
structure OneBlock (pool : Pool) (p s off : Nat) : Prop where
  addr : pool.addr = p
  current : pool.current = p
  last : (pool.data p).last = p + off
  dataEnd : (pool.data p).dataEnd = p + s
  next : (pool.data p).next = 0
  bigPool : pool.bigPool = 0

/-- The addresses that the allocator hands out. -/
def Addressed (p s : Nat) : Prop := 0 < p ∧ poolAlignment ∣ p ∧ p + s ≤ 2 ^ 47

theorem addressed_of_place (hs : SoundEnv env) {h : History} (hp : env.place h s = some p) :
    Addressed p s :=
  ⟨hs.nonzero hp, hs.aligned hp, hs.bounded hp⟩

/-- A new pool. -/
theorem smpMpoolCreate_oneBlock {data : Nat → PoolData} {big : Nat → BigPool}
    (hheader : sizeofPool ≤ s) (hp : env.place [] s = some p) :
    ∃ pool, smpMpoolCreate env data big s = .ok (some pool) ∧ OneBlock pool p s sizeofPool ∧
      pool.max = maxOf env s ∧ pool.history = [.alloc s (some p)] := by
  refine ⟨newPool env data big s p,
    smpMpoolCreate_eq_some.mpr ⟨p, hp, hheader, rfl⟩, ?_, newPool_max, rfl⟩
  constructor
  case addr => rfl
  case current => rfl
  case last => simp [newPool]
  case dataEnd => simp [newPool]
  case next => simp [newPool]
  case bigPool => rfl

namespace OneBlock

/-- Asking the allocator changes nothing in the block. -/
theorem calloc (h : OneBlock pool p s off) (size : Nat) :
    OneBlock (smpCalloc env pool size).2 p s off := by
  unfold smpCalloc
  simp only
  split_ifs
  · exact { h with }
  · exact { h with }

/-- The address that the next request is carved at. -/
theorem align_last (h : OneBlock pool p s off) (ha : Addressed p s) (hoff : poolAlignment ∣ off)
    (hle : off ≤ s) : smpAlignPtr (pool.data p).last poolAlignment = p + off := by
  rcases ha with ⟨-, hdvd, hend⟩
  rw [h.last]
  unfold smpAlignPtr poolAlignment at *
  omega

/-- The room in the block. -/
theorem room_eq (h : OneBlock pool p s off) (ha : Addressed p s) (hoff : poolAlignment ∣ off)
    (hle : off ≤ s) : room pool p = s - off := by
  rw [room, h.align_last ha hoff hle, h.dataEnd]
  rcases ha with ⟨-, -, hend⟩
  unfold sizeOfDiff
  omega

/-- The size of further blocks. -/
theorem psize_eq (h : OneBlock pool p s off) (ha : Addressed p s) :
    sizeOfDiff (pool.data pool.addr).dataEnd pool.addr = s := by
  rcases ha with ⟨-, -, hle⟩
  rw [h.addr, h.dataEnd]
  unfold sizeOfDiff
  omega

/-- A request with room in the block is carved from it. -/
theorem carve (h : OneBlock pool p s off) (ha : Addressed p s) (hoff : poolAlignment ∣ off)
    (hn : n ≤ pool.max) (hroom : off + n ≤ s) :
    ∃ pool', (∀ fuel, smpMpalloc env (fuel + 1) pool n = .ok (p + off, pool')) ∧
      OneBlock pool' p s (off + n) ∧ pool'.max = pool.max ∧ pool'.history = pool.history := by
  have hle : off ≤ s := (Nat.le_add_right _ _).trans hroom
  have halign := h.align_last ha hoff hle
  have hfits : n ≤ sizeOfDiff (pool.data pool.current).dataEnd
      (smpAlignPtr (pool.data pool.current).last poolAlignment) := by
    have heq := h.room_eq ha hoff hle
    rw [room] at heq
    rw [h.current, heq]
    omega
  refine ⟨pool.setLast p (p + off + n), ?_, ?_, rfl, rfl⟩
  · intro fuel
    rw [smpMpalloc_fits env fuel hn hfits, h.current, halign]
  · constructor
    case addr => exact h.addr
    case current => exact h.current
    case last => simp [Pool.setLast, Pool.setData, Nat.add_assoc]
    case dataEnd => simpa [Pool.setLast, Pool.setData] using h.dataEnd
    case next => exact (pool.setLast_next _ _ _).trans h.next
    case bigPool => exact h.bigPool

/-- A small request without room in the block asks for a further one. -/
theorem ask_block (h : OneBlock pool p s off) (ha : Addressed p s) (hoff : poolAlignment ∣ off)
    (hle : off ≤ s) (hn : n ≤ pool.max) (hfull : s < off + n) (fuel : Nat) :
    smpMpalloc env (fuel + 1) pool n = smpMpallocBlock env (fuel + 1) pool n := by
  have hroom := h.room_eq ha hoff hle
  have hless : ¬ n ≤ room pool p := by omega
  have hpass : mpallocPass pool n pool.current = .ok (.done none) := by
    rw [mpallocPass_eq, h.current, if_neg hless, h.next]
    simp
  rw [smpMpalloc, if_pos hn]
  simp only [loop, hpass, Exec.ok_bind]

end OneBlock

/-- After the history {lit}`h` the allocator refuses what a request needs that has no room in
the block: a further block for a small request, and its own for a big one. -/
def Refused (env : Env) (h : History) (max s off n : Nat) : Prop :=
  (n ≤ max ∧ s < off + n ∧ env.place h s = none) ∨ (max < n ∧ env.place h n = none)

/-- Such a refusal gets no buffer for its error text: it sets the error once in
`smp_mpalloc_block`, and twice in `smp_mpalloc_bigpool`. -/
def RefusedQuiet (env : Env) (h : History) (max s n : Nat) : Prop :=
  (n ≤ max → env.Quiet 1 (.alloc s none :: h)) ∧ (max < n → env.Quiet 2 (.alloc n none :: h))

namespace OneBlock

/-- A refused request returns null and leaves the block as it was. -/
theorem null_of_refused (h : OneBlock pool p s off) (ha : Addressed p s)
    (hoff : poolAlignment ∣ off) (hle : off ≤ s) (hnone : kept pool.history = [])
    (hrefused : Refused env pool.history pool.max s off n) :
    ∃ pool', (∀ fuel, smpMpalloc env (fuel + 1) pool n = .ok (0, pool')) ∧
      OneBlock pool' p s off ∧ pool'.max = pool.max ∧
        live pool'.history = live pool.history ∧
        (kept pool'.history = [] ↔ RefusedQuiet env pool.history pool.max s n) := by
  rcases hrefused with ⟨hn, hfull, hp⟩ | ⟨hn, hp⟩
  · have hquiet := @Env.kept_setErrors env (.alloc s none :: pool.history) hnone 1
    refine ⟨{ pool with history := env.setError (.alloc s none :: pool.history) },
      fun fuel => ?_, { h with }, rfl, by simp, ?_⟩
    · rw [h.ask_block ha hoff hle hn hfull, smpMpallocBlock]
      simp [smpMemalign, smpAlloc, h.psize_eq ha, hp]
    · simpa [RefusedQuiet, hn, Nat.not_lt.mpr hn] using hquiet
  · have hquiet := @Env.kept_setErrors env (.alloc n none :: pool.history) hnone 2
    refine ⟨{ pool with
        history := env.setError (env.setError (.alloc n none :: pool.history)) },
      fun fuel => ?_, { h with }, rfl, by simp, ?_⟩
    · rw [smpMpalloc, if_neg (Nat.not_le.mpr hn), smpMpallocBigpool]
      simp [smpCalloc, smpAlloc, hp]
    · simpa [RefusedQuiet, hn, Nat.not_le.mpr hn] using hquiet

/-- The search for room ends at the block. -/
theorem skipped_eq (h : OneBlock pool p s off) {q : Nat} (hq : Skipped pool n pool.current q) :
    q = p := by
  induction hq with
  | refl => exact h.current
  | next _ _ hne ih =>
      subst ih
      exact absurd h.next hne

/-- When a small request finds no memory. -/
theorem smallNull_iff (h : OneBlock pool p s off) (ha : Addressed p s)
    (hoff : poolAlignment ∣ off) (hle : off ≤ s) :
    SmallNull env pool n ↔ s < off + n ∧ env.place pool.history s = none := by
  have hroom := h.room_eq ha hoff hle
  unfold SmallNull
  rw [h.psize_eq ha]
  constructor
  · rintro ⟨q, hq, hcase⟩
    have heq := h.skipped_eq hq
    subst heq
    rcases hcase with ⟨hfull, -, hp⟩ | ⟨-, hzero⟩
    · exact ⟨by omega, hp⟩
    · rw [h.align_last ha hoff hle] at hzero
      have hpos := ha.1
      omega
  · rintro ⟨hfull, hp⟩
    refine ⟨pool.current, .refl, Or.inl ?_⟩
    rw [h.current]
    exact ⟨by omega, h.next, hp⟩

/-- A request is refused if it returns null and the block has room for a record. -/
theorem refused_of_null (hs : SoundEnv env) (h : OneBlock pool p s off) (ha : Addressed p s)
    (hoff : poolAlignment ∣ off) (hmax : sizeofBigPool ≤ pool.max)
    (hrecord : off + sizeofBigPool ≤ s)
    (hrun : smpMpalloc env fuel pool n = .ok (0, pool')) :
    Refused env pool.history pool.max s off n := by
  have hle : off ≤ s := (Nat.le_add_right _ _).trans hrecord
  by_cases hn : n ≤ pool.max
  · have hnull := (smpMpalloc_null_small hs hn hrun).1
    exact Or.inl ⟨hn, (h.smallNull_iff ha hoff hle).mp hnull⟩
  · cases fuel with
    | zero => simp [smpMpalloc] at hrun
    | succ fuel =>
        rw [smpMpalloc, if_neg hn] at hrun
        rcases smpMpallocBigpool_null hs hrun with ⟨-, ⟨hp, -⟩ | ⟨-, q, -, hnull⟩⟩
        · exact Or.inr ⟨Nat.not_le.mp hn, hp⟩
        · -- the record fits into the block
          rcases hnull with ⟨-, hsmall⟩ | ⟨hless, -⟩
          · have hfull := ((h.calloc n).smallNull_iff ha hoff hle).mp hsmall
            omega
          · rw [smpCalloc_max] at hless
            omega

end OneBlock

/-! ## Destruction -/

/-- Destroying a pool of one block, without big requests that have a record, frees that
block. -/
theorem smpMpdestory_single (hsize : ⟨pool.addr, s⟩ ∈ live pool.history) (hs : sizeofPool ≤ s)
    (hne : pool.addr ≠ 0) (hnext : (pool.data pool.addr).next = 0) (hbig : pool.bigPool = 0)
    (fuel : Nat) :
    smpMpdestory (fuel + 1) pool =
      .ok (.ok, { pool with history := .free pool.addr :: pool.history }) := by
  have htouch : pool.touch ⟨pool.addr, sizeofPool⟩ = .ok () :=
    Pool.touch_ok ⟨_, hsize, Nat.le_refl _, Nat.add_le_add_left hs _⟩
  have hpass : mpdestoryPass (0, pool) = .ok (.done pool) := by simp [mpdestoryPass]
  simp only [smpMpdestory, htouch, Exec.ok_bind, smpBigpoolDestory, hbig, if_true, Exec.pure_eq,
    hnext, loop, hpass, smpFree, ne_eq, hne, not_false_eq_true]

end Mpool
end Smpcil
