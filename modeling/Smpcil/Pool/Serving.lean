import Smpcil.Pool.Runs
import Smpcil.Pool.Calls

/-!
# The pool serves the containers

The pool of `smp_mpool.c` meets the contract that the containers rely on: every request
returns, with null or with a block apart from all earlier ones.

Main results:

- Theorem {lit}`smpMpalloc_returns`: a request returns.
- Definition {lit}`poolCalls`: the calls of one container to the pool it has created.
- Theorem {lit}`poolCalls_serves`: these calls meet the contract.
-/

namespace Smpcil
namespace Mpool

open Allocator Chains
open Loops (Pass loop loop_returns)

variable {env : Env} {pool : Pool} {L : Layout} {size fuel : Nat}

/-! ## Requests return -/

/-- The search for room along a chain of blocks returns. -/
theorem mpallocPass_ends {a p : Nat} {blocks : List Nat}
    (hchain : Chain (fun b => (pool.data b).next) a blocks) (size : Nat) (hp : p ∈ blocks)
    (hfuel : blocks.length ≤ fuel) :
    ∃ found, loop .diverged (mpallocPass pool size) fuel p = .ok found := by
  rcases hchain.exists_from hp with ⟨bs, hchain, hlen⟩
  refine loop_returns (fun n p => ∃ bs, Chain (fun b => (pool.data b).next) p (p :: bs) ∧
    bs.length = n) ?_ ⟨bs, hchain, rfl⟩ (Nat.lt_of_lt_of_le hlen hfuel)
  rintro n p ⟨bs, ⟨-, hne, hrest⟩, rfl⟩
  by_cases hroom : sizeOfDiff (pool.data p).dataEnd
      (smpAlignPtr (pool.data p).last poolAlignment) ≥ size
  · have hpass : mpallocPass pool size p =
        .ok (.done (some (p, smpAlignPtr (pool.data p).last poolAlignment))) := by
      simp [mpallocPass, hroom]
    exact Or.inl ⟨_, hpass⟩
  · by_cases hnext : (pool.data p).next = 0
    · exact Or.inl ⟨none, by simp [mpallocPass, hroom, hnext]⟩
    · rcases hrest.exists_cons hnext with ⟨bs', rfl, -⟩
      have hpass : mpallocPass pool size p = .ok (.again (pool.data p).next) := by
        simp [mpallocPass, hroom, hnext]
      exact Or.inr ⟨_, bs'.length, hpass, ⟨bs', hrest, rfl⟩, Nat.lt_succ_self _⟩

/-- The walk to the end of a chain of blocks returns. -/
theorem mpallocBlockPass_ends {a p c : Nat} {blocks : List Nat}
    (hchain : Chain (fun b => (pool.data b).next) a blocks) (hp : p ∈ blocks)
    (hfuel : blocks.length ≤ fuel) :
    ∃ r, loop .diverged mpallocBlockPass fuel (p, c, pool) = .ok r := by
  rcases hchain.exists_from hp with ⟨bs, hchain, hlen⟩
  refine loop_returns (fun n (s : Nat × Nat × Pool) => ∃ bs,
    Chain (fun b => (s.2.2.data b).next) s.1 (s.1 :: bs) ∧ bs.length = n) ?_
    ⟨bs, hchain, rfl⟩ (Nat.lt_of_lt_of_le hlen hfuel)
  rintro n ⟨p, c, u⟩ ⟨bs, ⟨-, hne, hrest⟩, rfl⟩
  simp only at hne hrest
  by_cases hnext : (u.data p).next = 0
  · have hpass : mpallocBlockPass (p, c, u) = .ok (.done (p, c, u)) := by
      simp [mpallocBlockPass, hnext]
    exact Or.inl ⟨_, hpass⟩
  · rcases hrest.exists_cons hnext with ⟨bs', rfl, -⟩
    have hpass : mpallocBlockPass (p, c, u) = .ok (.again ((u.data p).next,
        if (u.data p).failure > 4 then (u.data p).next else c,
        u.setFailure p (((u.data p).failure + 1) % 2 ^ 32))) := by
      simp only [mpallocBlockPass, ne_eq, hnext, not_false_iff, if_true,
        Pool.setFailure_next]
    refine Or.inr ⟨_, bs'.length, hpass, ⟨bs', ?_, rfl⟩, Nat.lt_succ_self _⟩
    simp only [Pool.setFailure_next]
    exact hrest

/-- The search for a free record gives up after five records. -/
theorem freeRecordPass_returns (pool : Pool) (hfuel : 5 ≤ fuel) :
    ∃ found, loop .diverged (freeRecordPass pool) fuel (pool.bigPool, 0) = .ok found := by
  refine loop_returns (fun k (s : Nat × Nat) => s.2 + k = 4) ?_ (Nat.zero_add 4) hfuel
  rintro k ⟨r, n⟩ hk
  simp only at hk
  by_cases hnull : r = 0
  · exact Or.inl ⟨none, by simp [freeRecordPass, hnull]⟩
  · by_cases hfree : (pool.big r).alloc = 0
    · exact Or.inl ⟨some r, by simp [freeRecordPass, hnull, hfree]⟩
    · by_cases hn : n > 3
      · exact Or.inl ⟨none, by simp [freeRecordPass, hnull, hfree, hn]⟩
      · have hpass : freeRecordPass pool (r, n) = .ok (.again ((pool.big r).next, n + 1)) := by
          simp [freeRecordPass, hnull, hfree, hn]
        refine Or.inr ⟨_, k - 1, hpass, ?_, ?_⟩
        · simp only
          omega
        · omega

/-- A new block is linked to a chain of blocks. -/
theorem mpallocBlockLink_returns {a newP psize : Nat} {blocks : List Nat}
    (hchain : Chain (fun b => (pool.data b).next) a blocks) (hcurrent : pool.current ∈ blocks)
    (hnew : newP ∉ blocks) (hfuel : blocks.length ≤ fuel) :
    ∃ r, mpallocBlockLink fuel pool newP psize size = .ok r := by
  have hchain' : Chain (fun b => ((pool.setData newP
      ⟨smpAlignPtr (newP + sizeofPoolData) poolAlignment + size, newP + psize, 0, 0⟩).data
        b).next) a blocks := by
    refine hchain.congr fun b hb => ?_
    have hne : b ≠ newP := fun heq => hnew (heq ▸ hb)
    simp [Pool.setData, hne]
  rcases mpallocBlockPass_ends (c := pool.current) hchain' hcurrent hfuel with
    ⟨⟨p, c, u⟩, hrun⟩
  refine ⟨(smpAlignPtr (newP + sizeofPoolData) poolAlignment,
    (u.setNext p newP).setCurrent (if c ≠ 0 then c else newP)), ?_⟩
  have hsame : ∀ d, (pool.setData newP d).current = pool.current := fun _ => rfl
  simp only [mpallocBlockLink, hsame, hrun, Exec.ok_bind, Exec.pure_eq]

/-- A request that no block has room for returns. -/
theorem smpMpallocBlock_returns (hs : SoundEnv env) (h : Inv env pool L)
    (hfuel : L.blocks.length ≤ fuel) :
    ∃ r, smpMpallocBlock env fuel pool size = .ok r := by
  rcases h.memalign hs L.psize with ⟨hinv, hnew⟩
  simp only [smpMpallocBlock, h.psize_eq hs]
  by_cases hnull : (smpMemalign env pool L.psize).1 = 0
  · exact ⟨_, if_pos hnull⟩
  · rw [if_neg hnull]
    exact mpallocBlockLink_returns hinv.chain hinv.current (h.newBlock_notMem (hnew hnull).2)
      hfuel

/-- A small request returns. -/
theorem smpMpalloc_returns_small (hs : SoundEnv env) (h : Inv env pool L)
    (hsize : size ≤ pool.max) (hfuel : L.blocks.length ≤ fuel) :
    ∃ r, smpMpalloc env fuel pool size = .ok r := by
  have hpos := List.length_pos_of_mem h.first_mem
  obtain ⟨fuel, rfl⟩ : ∃ k, fuel = k + 1 := ⟨fuel - 1, by omega⟩
  rcases mpallocPass_ends h.chain size h.current hfuel with ⟨found, hfound⟩
  rw [smpMpalloc, if_pos hsize, hfound]
  cases found with
  | none => exact smpMpallocBlock_returns hs h hfuel
  | some b => exact ⟨_, rfl⟩

/-- A big request returns if the one for its record does. -/
theorem smpMpallocBigpool_returns (hs : SoundEnv env) (h : Inv env pool L)
    {mpalloc : Pool → Nat → Exec (Nat × Pool)} (hsize : 0 < size) (hfuel : 5 ≤ fuel)
    (hcall : ∀ (u : Pool) (L' : Layout), Inv env u L' → L'.blocks = L.blocks →
      u.max = pool.max → ∃ r, mpalloc u sizeofBigPool = .ok r) :
    ∃ r, smpMpallocBigpool env mpalloc fuel pool size = .ok r := by
  rcases smpCalloc_spec hs h hsize with ⟨-, hmax, -, -, hheld⟩
  simp only [smpMpallocBigpool]
  by_cases hnull : (smpCalloc env pool size).1 = 0
  · exact ⟨_, if_pos hnull⟩
  · rw [if_neg hnull]
    rcases freeRecordPass_returns (smpCalloc env pool size).2 hfuel with ⟨found, hfound⟩
    rw [hfound]
    cases found with
    | some r => exact ⟨_, rfl⟩
    | none =>
        rcases hcall _ _ (hheld hnull) rfl hmax with ⟨⟨bigP, u⟩, hrun⟩
        by_cases hbigP : bigP = 0
        · refine ⟨(0, smpFree u bigP), ?_⟩
          simp only [Exec.ok_bind, hrun, if_pos hbigP, Exec.pure_eq]
        · refine ⟨((smpCalloc env pool size).1, (u.setBig bigP
            { next := u.bigPool, alloc := (smpCalloc env pool size).1 }).setBigPool bigP), ?_⟩
          simp only [Exec.ok_bind, hrun, if_neg hbigP, Exec.pure_eq]

/-- A request returns if a record is a small request. -/
theorem smpMpalloc_returns (hs : SoundEnv env) (h : Inv env pool L) (size : Nat)
    (hmax : sizeofBigPool ≤ pool.max) (hfuel : L.blocks.length + 5 ≤ fuel) :
    ∃ r, smpMpalloc env fuel pool size = .ok r := by
  by_cases hsize : size ≤ pool.max
  · exact smpMpalloc_returns_small hs h hsize (by omega)
  · obtain ⟨fuel, rfl⟩ : ∃ k, fuel = k + 1 := ⟨fuel - 1, by omega⟩
    rw [smpMpalloc, if_neg hsize]
    refine smpMpallocBigpool_returns hs h (by omega) (by omega) ?_
    intro u L' hinv hblocks humax
    have hlen : L'.blocks.length ≤ fuel := by
      rw [hblocks]
      omega
    exact smpMpalloc_returns_small hs hinv (humax ▸ hmax) hlen

/-- A pool has at most one block for each request of the underlying allocator. -/
theorem Inv.blocks_length_le (h : Inv env pool L) :
    L.blocks.length ≤ pool.history.length := by
  have hinj : Function.Injective fun b : Nat => (⟨b, L.psize⟩ : Block) := by
    intro b b' heq
    exact congrArg Block.addr heq
  have hnodup := h.chain.nodup.map hinj
  have hsub : L.blocks.map (fun b => (⟨b, L.psize⟩ : Block)) ⊆ live pool.history := by
    intro c hc
    exact h.isLive c (List.mem_append_left _ (List.mem_append_left _ hc))
  have hle := (List.subperm_of_subset hnodup hsub).length_le
  rw [List.length_map] at hle
  exact hle.trans (length_live_le pool.history)

/-- The largest small request of a new pool. -/
theorem smpMpoolCreate_max (hs : SoundEnv env) (hpage : sizeofBigPool ≤ env.pageSize)
    {data : Nat → PoolData} {big : Nat → BigPool} (hroom : sizeofPool + sizeofBigPool ≤ size)
    (hcreate : smpMpoolCreate env data big size = .ok (some pool)) : sizeofBigPool ≤ pool.max := by
  rcases smpMpoolCreate_eq_some.mp hcreate with ⟨p, hp, -, rfl⟩
  have hbound := hs.bounded hp
  have hdata : (size + 2 ^ 64 - sizeofPool) % 2 ^ 64 = size - sizeofPool := by
    unfold sizeofPool at *
    omega
  simp only [newPool, hdata]
  split_ifs
  · omega
  · exact hpage

/-! ## The calls of a container -/

/-- A container's side of the pool: the contents of the memory that the pool is created
in, the pool once it is created, and the blocks got from it. -/
structure World where
  data : Nat → PoolData
  big : Nat → BigPool
  pool : Option Pool
  issued : List Block

/-- The creation sizes that the room computed in a block is right for, with room for a
record. -/
def Fitting (size : Nat) : Prop := poolAlignment ∣ size ∧ sizeofPool + sizeofBigPool ≤ size

instance (size : Nat) : Decidable (Fitting size) := inferInstanceAs (Decidable (_ ∧ _))

example : ∀ size ∈ [1024, 2048, 4096], Fitting size := by decide

namespace World

/-- `smp_mpool_create`, where a container creates its one pool of a fitting size; any
other creation is refused here. -/
def create (env : Env) (w : World) (size : Nat) : Exec (Bool × World) :=
  if w.pool.isNone ∧ Fitting size then do
    match ← smpMpoolCreate env w.data w.big size with
    | some pool => return (true, { w with pool := some pool })
    | none => return (false, w)
  else .ok (false, w)

/-- What creates a pool. -/
theorem create_eq_true {w w' : World} (hcreate : w.create env size = .ok (true, w')) :
    w.pool = none ∧ Fitting size ∧ ∃ pool, smpMpoolCreate env w.data w.big size = .ok (some pool) ∧
      w' = { w with pool := some pool } := by
  unfold create at hcreate
  split_ifs at hcreate with hfit
  · rcases Exec.bind_eq_ok.mp hcreate with ⟨created, hp, hdone⟩
    cases created with
    | none => simp at hdone
    | some pool =>
        simp only [Exec.pure_eq, Except.ok.injEq, Prod.mk.injEq, true_and] at hdone
        exact ⟨by simpa using hfit.1, hfit.2, pool, hp, hdone.symm⟩
  · simp at hcreate

/-- `smp_mpalloc`.  No container requests before it has its pool; here such a request is
refused. -/
def mpalloc (env : Env) (w : World) (size : Nat) : Exec (VoidPtr × World) :=
  match w.pool with
  | none => .ok (NULL, w)
  | some pool => do
      let (m, pool) ← smpMpalloc env (pool.history.length + 5) pool size
      return (m, { w with
        pool := some pool
        issued := if m = NULL then w.issued else ⟨m, size⟩ :: w.issued })

/-- `smp_mpdestory`, which does nothing without a pool. -/
def destory (w : World) : Exec World :=
  match w.pool with
  | none => .ok w
  | some pool => do
      let _ ← smpMpdestory (pool.history.length + 5) pool
      return { w with pool := none, issued := [] }

/-- `smp_set_error`, as far as the pool is concerned. -/
def setError (env : Env) (w : World) : World :=
  { w with pool := w.pool.map fun pool => { pool with history := env.setError pool.history } }

/-- The blocks got from a pool are its regions. -/
def Good (env : Env) (w : World) : Prop :=
  (w.pool = none ∧ w.issued = []) ∨
    ∃ pool L, w.pool = some pool ∧ Inv env pool L ∧ sizeofBigPool ≤ pool.max ∧
      w.issued.Perm (L.small ++ L.bigs)

example (data : Nat → PoolData) (big : Nat → BigPool) : Good env ⟨data, big, none, []⟩ :=
  Or.inl ⟨rfl, rfl⟩

end World

/-- The calls of one container to its pool. -/
def poolCalls (env : Env) : PoolCalls World where
  create := World.create env
  mpalloc := World.mpalloc env
  destory := World.destory
  setError := World.setError env

namespace World

variable {w w' : World}

theorem Good.regions (h : w.Good env) (hs : SoundEnv env) :
    w.issued.Pairwise Apart ∧
      ∀ b ∈ w.issued, 0 < b.addr ∧ poolAlignment ∣ b.addr ∧ b.addr + b.size ≤ 2 ^ 47 := by
  rcases h with ⟨-, hnone⟩ | ⟨pool, L, -, hinv, -, hperm⟩
  · simp [hnone]
  · constructor
    · exact (hperm.pairwise_iff fun hab => hab.symm).mpr hinv.regionsApart
    · intro b hb
      exact hinv.regionAddr hs (hperm.mem_iff.mp hb)

/-- A new pool has handed out nothing. -/
theorem Good.create (h : w.Good env) (hs : SoundEnv env) (hpage : sizeofBigPool ≤ env.pageSize)
    (hcreate : w.create env size = .ok (true, w')) : w'.Good env := by
  rcases create_eq_true hcreate with ⟨hnone, ⟨hdvd, hroom⟩, pool, hp, rfl⟩
  have hissued : w.issued = [] := by
    rcases h with ⟨-, hissued⟩ | ⟨pool', L, hsome, -⟩
    · exact hissued
    · simp [hsome] at hnone
  refine Or.inr ⟨pool, _, rfl, smpMpoolCreate_spec hs hdvd hp,
    smpMpoolCreate_max hs hpage hroom hp, ?_⟩
  rw [hissued]
  exact List.Perm.nil

/-- A request is refused, or answered with a block apart from all earlier ones. -/
theorem Good.mpalloc (h : w.Good env) (hs : SoundEnv env) (size : Nat) :
    ∃ m w', w.mpalloc env size = .ok (m, w') ∧ w'.Good env ∧
      PoolCalls.Granted size w.issued m w'.issued := by
  have hgood := h
  rcases h with ⟨hnone, -⟩ | ⟨pool, L, hsome, hinv, hmax, hperm⟩
  · exact ⟨NULL, w, by simp [World.mpalloc, hnone], hgood, Or.inl ⟨rfl, rfl⟩⟩
  · have hfuel : L.blocks.length + 5 ≤ pool.history.length + 5 :=
      Nat.add_le_add_right hinv.blocks_length_le 5
    rcases smpMpalloc_returns hs hinv size hmax hfuel with ⟨⟨m, pool'⟩, hrun⟩
    rcases smpMpalloc_spec hs hinv hrun with ⟨L', hserved⟩
    have hcall : w.mpalloc env size = .ok (m, { w with
        pool := some pool'
        issued := if m = NULL then w.issued else ⟨m, size⟩ :: w.issued }) := by
      simp only [World.mpalloc, hsome, hrun, Exec.ok_bind, Exec.pure_eq]
    refine ⟨m, _, hcall, ?_⟩
    have hmax' : sizeofBigPool ≤ pool'.max := hserved.max ▸ hmax
    by_cases hm : m = NULL
    · rcases hserved.region with ⟨-, hsmall, hbigs⟩ | hreg | hreg
      · refine ⟨Or.inr ⟨pool', L', rfl, hserved.inv, hmax', ?_⟩, Or.inl ⟨hm, ?_⟩⟩
        · rw [if_pos hm, hsmall, hbigs]
          exact hperm
        · exact if_pos hm
      · exact absurd hm hreg.1
      · exact absurd hm hreg.1
    · have hnew : (⟨m, size⟩ :: w.issued).Perm (L'.small ++ L'.bigs) := by
        rcases hserved.region with hreg | ⟨-, -, hsmall, hbigs, -⟩ | ⟨-, -, -, hsmall, hbigs⟩
        · exact absurd hreg.1 hm
        · rw [hsmall, hbigs]
          exact hperm.cons _
        · rw [hsmall, hbigs]
          exact (hperm.cons _).trans List.perm_middle.symm
      have hgood' : Good env { w with pool := some pool', issued := ⟨m, size⟩ :: w.issued } :=
        Or.inr ⟨pool', L', rfl, hserved.inv, hmax', hnew⟩
      rcases hgood'.regions hs with ⟨happ, haddr⟩
      rcases haddr ⟨m, size⟩ List.mem_cons_self with ⟨-, hdvd, hbound⟩
      simp only [if_neg hm]
      exact ⟨hgood', Or.inr ⟨hm, hdvd, hbound, (List.pairwise_cons.mp happ).1, rfl⟩⟩

/-- An error text is no block of the pool. -/
theorem Good.setError (h : w.Good env) : (w.setError env).Good env := by
  rcases h with ⟨hnone, hissued⟩ | ⟨pool, L, hsome, hinv, hmax, hperm⟩
  · exact Or.inl ⟨by simp [World.setError, hnone], hissued⟩
  · exact Or.inr ⟨_, L, by simp only [World.setError, hsome, Option.map_some], hinv.setError,
      hmax, hperm⟩

end World

/-- The pool meets the contract of the containers. -/
theorem poolCalls_serves (hs : SoundEnv env) (hpage : sizeofBigPool ≤ env.pageSize) :
    (poolCalls env).Serves (World.Good env) World.issued := by
  constructor
  case create =>
    intro w w' n hgood hcreate
    exact hgood.create hs hpage hcreate
  case mpalloc =>
    intro w n hgood
    exact hgood.mpalloc hs n
  case setError => exact fun hgood => ⟨hgood.setError, rfl⟩
  case apart =>
    intro w hgood
    exact (hgood.regions hs).1
  case bounded =>
    intro w hgood b hb
    rcases (hgood.regions hs).2 b hb with ⟨hpos, -, hle⟩
    exact ⟨Nat.pos_iff_ne_zero.mp hpos, hle⟩

end Mpool
end Smpcil
