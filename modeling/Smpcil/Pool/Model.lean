import Smpcil.Basic
import Smpcil.Errors
import Smpcil.Foundations.Loop
import Mathlib.Logic.Function.Basic

/-!
# The memory pool of `smp_mpool.c`

A pool is a chain of blocks that small requests are carved from, and a list of
records of the big requests.  Addresses are numbers; the block headers and the records
live in two memories indexed by address.  The underlying allocator, the page size and
whether an error text was set before are parameters.

A ghost log records every struct that a call writes to, and the history every request
and free of the underlying allocator.  No function reads the log.
-/

namespace Smpcil
namespace Mpool

open Allocator (Block History Strategy)
open Loops (Pass loop)

/-- `sizeof(struct smp_pool_data_s)`, the header of a block. -/
def sizeofPoolData : Nat := 32

/-- `sizeof(struct smp_pool_s)`, the header of the first block. -/
def sizeofPool : Nat := 56

/-- `sizeof(struct smp_big_pool_s)`. -/
def sizeofBigPool : Nat := 16

/-- `SMP_POOL_ALIGNMENT`. -/
def poolAlignment : Nat := 8

/-- `smp_align_ptr(p, a)` for a power of two {lit}`a`. -/
def smpAlignPtr (p a : Nat) : Nat := (p + (a - 1)) % 2 ^ 64 / a * a

/-- `(size_t) (p - q)`. -/
def sizeOfDiff (p q : Nat) : Nat := (p + 2 ^ 64 - q) % 2 ^ 64

/-- What the pool uses of its surroundings: the allocator, `SMP_PAGE_SIZE`, and whether
`smp_errno` has its buffer when the pool is created. -/
structure Env where
  place : Strategy
  pageSize : Nat
  errno : Bool

/-- `smp_set_error`. -/
def Env.setError (env : Env) (h : History) : History :=
  if env.errno then h else smpSetError env.place h

namespace Env

variable {env : Env} {h : History}

@[simp]
theorem live_setError : Allocator.live (env.setError h) = Allocator.live h := by
  unfold setError
  split_ifs <;> simp

theorem trace_setError (ht : Allocator.Trace env.place h) :
    Allocator.Trace env.place (env.setError h) := by
  unfold setError
  split_ifs
  · exact ht
  · exact trace_smpSetError ht

@[simp]
theorem freesLive_setError : Allocator.FreesLive (env.setError h) ↔ Allocator.FreesLive h := by
  unfold setError
  split_ifs <;> simp

theorem keptOnce_setError (hk : KeptOnce h) : KeptOnce (env.setError h) := by
  unfold setError
  split_ifs
  · exact hk
  · exact hk.setError

/-- Setting the error {lit}`k` times running gets no buffer: there is one, or all requests for
one are refused. -/
def Quiet (env : Env) (k : Nat) (h : History) : Prop :=
  env.errno = true ∨ Unheard env.place k h

theorem kept_setErrors (hnone : Allocator.kept h = []) (k : Nat) :
    Allocator.kept (env.setError^[k] h) = [] ↔ env.Quiet k h := by
  unfold Quiet
  cases herrno : env.errno with
  | true =>
      have hsame : env.setError = id := funext fun h => if_pos herrno
      rw [hsame, Function.iterate_id]
      simpa using hnone
  | false =>
      have hset : env.setError = smpSetError env.place := funext fun h => if_neg (by simp [herrno])
      rw [hset]
      simpa using Smpcil.kept_setErrors hnone k

end Env

/-- `struct smp_pool_data_s`; {lit}`dataEnd` is the field `end`. -/
structure PoolData where
  last : Nat
  dataEnd : Nat
  next : Nat
  failure : Nat
deriving DecidableEq, Repr

/-- `struct smp_big_pool_s`. -/
structure BigPool where
  next : Nat
  alloc : Nat
deriving DecidableEq, Repr

/-- `struct smp_pool_s` at {lit}`addr`, with the memory of the block headers and of the
records of big requests. -/
structure Pool where
  addr : Nat
  data : Nat → PoolData
  big : Nat → BigPool
  max : Nat
  current : Nat
  bigPool : Nat
  history : History
  writes : List Block

namespace Pool

/-- Store a block header. -/
def setData (pool : Pool) (p : Nat) (d : PoolData) : Pool :=
  { pool with
    data := Function.update pool.data p d
    writes := ⟨p, sizeofPoolData⟩ :: pool.writes }

/-- `p->data.last = v`. -/
def setLast (pool : Pool) (p v : Nat) : Pool :=
  pool.setData p { pool.data p with last := v }

/-- `p->data.next = v`. -/
def setNext (pool : Pool) (p v : Nat) : Pool :=
  pool.setData p { pool.data p with next := v }

/-- `p->data.failure = v`. -/
def setFailure (pool : Pool) (p v : Nat) : Pool :=
  pool.setData p { pool.data p with failure := v }

/-- What is carved from a block is no link. -/
@[simp]
theorem setLast_next (pool : Pool) (p v b : Nat) :
    ((pool.setLast p v).data b).next = (pool.data b).next := by
  by_cases heq : b = p <;> simp [setLast, setData, heq]

/-- A failure counter is no link. -/
@[simp]
theorem setFailure_next (pool : Pool) (p v b : Nat) :
    ((pool.setFailure p v).data b).next = (pool.data b).next := by
  by_cases heq : b = p <;> simp [setFailure, setData, heq]

/-- Store a record of a big request. -/
def setBig (pool : Pool) (r : Nat) (b : BigPool) : Pool :=
  { pool with
    big := Function.update pool.big r b
    writes := ⟨r, sizeofBigPool⟩ :: pool.writes }

/-- `pool->current = p`. -/
def setCurrent (pool : Pool) (p : Nat) : Pool :=
  { pool with current := p, writes := ⟨pool.addr, sizeofPool⟩ :: pool.writes }

/-- `pool->big_pool = r`. -/
def setBigPool (pool : Pool) (r : Nat) : Pool :=
  { pool with bigPool := r, writes := ⟨pool.addr, sizeofPool⟩ :: pool.writes }

end Pool

/-! ## The underlying allocator -/

/-- `smp_alloc`; a failed request sets the error and returns null. -/
def smpAlloc (env : Env) (pool : Pool) (size : Nat) : Nat × Pool :=
  let answer := env.place pool.history size
  let history := .alloc size answer :: pool.history
  (answer.getD 0,
    { pool with history := if answer.isNone then env.setError history else history })

/-- `smp_memalign(SMP_POOL_ALIGNMENT, size)`; it fails like `smp_alloc`. -/
def smpMemalign (env : Env) (pool : Pool) (size : Nat) : Nat × Pool := smpAlloc env pool size

/-- `smp_calloc`: a block that is then filled with zeros, or null and the error set once more. -/
def smpCalloc (env : Env) (pool : Pool) (size : Nat) : Nat × Pool :=
  let (p, pool) := smpAlloc env pool size
  if p ≠ 0 then (p, { pool with writes := ⟨p, size⟩ :: pool.writes })
  else (p, { pool with history := env.setError pool.history })

/-- `smp_free`; freeing null does nothing. -/
def smpFree (pool : Pool) (p : Nat) : Pool :=
  if p ≠ 0 then { pool with history := .free p :: pool.history } else pool

/-! ## Requests -/

/-- One pass of the search of `smp_mpalloc` for a block with room: the block and the
address found in it, or nothing at the end of the chain. -/
def mpallocPass (pool : Pool) (size p : Nat) : Exec (Pass Nat (Option (Nat × Nat))) :=
  let m := smpAlignPtr (pool.data p).last poolAlignment
  if sizeOfDiff (pool.data p).dataEnd m ≥ size then .ok (.done (some (p, m)))
  else
    let p := (pool.data p).next
    if p ≠ 0 then .ok (.again p) else .ok (.done none)

/-- One pass of the walk of `smp_mpalloc_block` to the end of the chain; the state is
{lit}`p`, {lit}`current_p` and the pool. -/
def mpallocBlockPass (s : Nat × Nat × Pool) : Exec (Pass (Nat × Nat × Pool) (Nat × Nat × Pool)) :=
  let (p, currentP, pool) := s
  if (pool.data p).next ≠ 0 then
    let failure := (pool.data p).failure
    let pool := pool.setFailure p ((failure + 1) % 2 ^ 32)
    let currentP := if failure > 4 then (pool.data p).next else currentP
    .ok (.again ((pool.data p).next, currentP, pool))
  else .ok (.done (p, currentP, pool))

/-- The rest of `smp_mpalloc_block`, once it has the block {lit}`newP` of {lit}`psize`
bytes: the request is carved from it, and it becomes the last of the chain. -/
def mpallocBlockLink (fuel : Nat) (pool : Pool) (newP psize size : Nat) :
    Exec (Nat × Pool) := do
  let m := smpAlignPtr (newP + sizeofPoolData) poolAlignment
  let pool := pool.setData newP
    { last := m + size, dataEnd := newP + psize, next := 0, failure := 0 }
  let (p, currentP, pool) ← loop .diverged mpallocBlockPass fuel (pool.current, pool.current, pool)
  let pool := pool.setNext p newP
  return (m, pool.setCurrent (if currentP ≠ 0 then currentP else newP))

/-- `smp_mpalloc_block`. -/
def smpMpallocBlock (env : Env) (fuel : Nat) (pool : Pool) (size : Nat) : Exec (Nat × Pool) :=
  let psize := sizeOfDiff (pool.data pool.addr).dataEnd pool.addr
  let (newP, pool) := smpMemalign env pool psize
  if newP = 0 then .ok (0, pool) else mpallocBlockLink fuel pool newP psize size

/-- One pass of the search of `smp_mpalloc_bigpool` for a free record; the state is
{lit}`big_p` and {lit}`n`. -/
def freeRecordPass (pool : Pool) (s : Nat × Nat) : Exec (Pass (Nat × Nat) (Option Nat)) :=
  let (bigP, n) := s
  if bigP ≠ 0 then
    if (pool.big bigP).alloc = 0 then .ok (.done (some bigP))
    else if n > 3 then .ok (.done none)
    else .ok (.again ((pool.big bigP).next, n + 1))
  else .ok (.done none)

/-- `smp_mpalloc_bigpool`; {lit}`mpalloc` is the call back into `smp_mpalloc`. -/
def smpMpallocBigpool (env : Env) (mpalloc : Pool → Nat → Exec (Nat × Pool)) (fuel : Nat)
    (pool : Pool) (size : Nat) : Exec (Nat × Pool) := do
  let (p, pool) := smpCalloc env pool size
  if p = 0 then return (0, pool)
  let found ← loop .diverged (freeRecordPass pool) fuel (pool.bigPool, 0)
  match found with
  | some bigP => return (p, pool.setBig bigP { pool.big bigP with alloc := p })
  | none =>
      let (bigP, pool) ← mpalloc pool sizeofBigPool
      if bigP = 0 then return (0, smpFree pool bigP)
      let pool := pool.setBig bigP { next := pool.bigPool, alloc := p }
      return (p, pool.setBigPool bigP)

/-- `smp_mpalloc`.  The fuel bounds the depth of the calls of `smp_mpalloc` and
`smp_mpalloc_bigpool` into each other, and each loop. -/
def smpMpalloc (env : Env) : Nat → Pool → Nat → Exec (Nat × Pool)
  | 0, _, _ => .error .diverged
  | fuel + 1, pool, size => do
      if size ≤ pool.max then
        let found ← loop .diverged (mpallocPass pool size) (fuel + 1) pool.current
        match found with
        | some (p, m) => return (m, pool.setLast p (m + size))
        | none => smpMpallocBlock env (fuel + 1) pool size
      else smpMpallocBigpool env (smpMpalloc env fuel) (fuel + 1) pool size

/-! ## Creation and release -/

/-- What `smp_mpool_create` stores in its block of {lit}`size` bytes at {lit}`p`. -/
def newPool (env : Env) (data : Nat → PoolData) (big : Nat → BigPool) (size p : Nat) : Pool :=
  let dataSize := (size + 2 ^ 64 - sizeofPool) % 2 ^ 64
  { addr := p
    data := Function.update data p
      { last := p + sizeofPool, dataEnd := p + size, next := 0, failure := 0 }
    big := big
    max := if dataSize < env.pageSize then dataSize else env.pageSize
    current := p
    bigPool := 0
    history := [.alloc size (some p)]
    writes := [⟨p, sizeofPool⟩] }

/-- `smp_mpool_create`, over memory of any contents.  Without room for the pool struct it stores
outside its block. -/
def smpMpoolCreate (env : Env) (data : Nat → PoolData) (big : Nat → BigPool) (size : Nat) :
    Exec (Option Pool) :=
  match env.place [] size with
  | none => .ok none
  | some p =>
      if size < sizeofPool then .error .outOfBounds
      else .ok (some (newPool env data big size p))

/-- What a pool that was created is. -/
theorem smpMpoolCreate_eq_some {env : Env} {data : Nat → PoolData} {big : Nat → BigPool}
    {size : Nat} {pool : Pool} : smpMpoolCreate env data big size = .ok (some pool) ↔
      ∃ p, env.place [] size = some p ∧ sizeofPool ≤ size ∧
        pool = newPool env data big size p := by
  unfold smpMpoolCreate
  cases env.place [] size with
  | none => simp
  | some p =>
      by_cases hsize : size < sizeofPool
      · simp [hsize]
      · simp [hsize, Nat.not_lt.mp hsize, eq_comm]

/-- One pass of the search of `smp_mpfree_bigpool` for the record of {lit}`p`. -/
def findRecordPass (pool : Pool) (p bigP : Nat) : Exec (Pass Nat (Option Nat)) :=
  if bigP ≠ 0 then
    if (pool.big bigP).alloc = p then .ok (.done (some bigP))
    else .ok (.again (pool.big bigP).next)
  else .ok (.done none)

/-- `smp_mpfree_bigpool`. -/
def smpMpfreeBigpool (fuel : Nat) (pool : Pool) (p : Nat) : Exec (Status × Pool) := do
  let found ← loop .diverged (findRecordPass pool p) fuel pool.bigPool
  match found with
  | some bigP =>
      let pool := smpFree pool (pool.big bigP).alloc
      return (.ok, pool.setBig bigP { pool.big bigP with alloc := 0 })
  | none => return (.ok, pool)

/-! ## Destruction

These functions free the memory that they walk through, so each access is checked against
the blocks that are live at that time. -/

/-- An access to the bytes {lit}`b`. -/
def Pool.touch (pool : Pool) (b : Block) : Exec Unit :=
  if ∃ c ∈ Allocator.live pool.history, Allocator.Within b c then .ok () else .error .useAfterFree

/-- One pass of `smp_bigpool_destory`; the state is `bigp_free` and the pool. -/
def bigpoolDestoryPass (s : Nat × Pool) : Exec (Pass (Nat × Pool) Pool) := do
  let (bigpFree, pool) := s
  if bigpFree ≠ 0 then
    pool.touch ⟨bigpFree, sizeofBigPool⟩
    let pool :=
      if (pool.big bigpFree).alloc ≠ 0 then smpFree pool (pool.big bigpFree).alloc else pool
    pool.touch ⟨bigpFree, sizeofBigPool⟩
    let pool := pool.setBig bigpFree { pool.big bigpFree with alloc := 0 }
    return .again ((pool.big bigpFree).next, pool)
  else return .done pool

/-- `smp_bigpool_destory`. -/
def smpBigpoolDestory (fuel : Nat) (pool : Pool) (bigpool : Nat) : Exec (Status × Pool) := do
  if bigpool = 0 then return (.ok, pool)
  let pool ← loop .diverged bigpoolDestoryPass fuel (bigpool, pool)
  return (.ok, pool)

/-- One pass of the loop of `smp_mpdestory` over the blocks; the state is `data_pool` and
the pool. -/
def mpdestoryPass (s : Nat × Pool) : Exec (Pass (Nat × Pool) Pool) := do
  let (dataPool, pool) := s
  if dataPool ≠ 0 then
    pool.touch ⟨dataPool, sizeofPoolData⟩
    pool.touch ⟨pool.addr, sizeofPool⟩
    let pool := pool.setNext pool.addr (pool.data dataPool).next
    let pool := smpFree (pool.setNext dataPool 0) dataPool
    pool.touch ⟨pool.addr, sizeofPool⟩
    return .again ((pool.data pool.addr).next, pool)
  else return .done pool

/-- `smp_mpdestory`. -/
def smpMpdestory (fuel : Nat) (pool : Pool) : Exec (Status × Pool) := do
  pool.touch ⟨pool.addr, sizeofPool⟩
  let (_, pool) ← smpBigpoolDestory fuel pool pool.bigPool
  pool.touch ⟨pool.addr, sizeofPool⟩
  let pool ← loop .diverged mpdestoryPass fuel ((pool.data pool.addr).next, pool)
  return (.ok, smpFree pool pool.addr)

end Mpool
end Smpcil
