import Smpcil.Pool.Accounting

/-!
# The life of a container's pool

A container creates its pool, requests from it, and destroys it with itself.  The state of the
calls keeps what the requests lost and, once the pool is gone, what the underlying allocator saw.

Main results:

- Definition {lit}`lifeCalls`: the calls of a container, up to the end of its pool.
- Theorem {lit}`lifeCalls_serves`: these calls meet the contract of the containers.
- Theorems {lit}`Life.begun_lost` and {lit}`Life.begun_destory`: what a pool loses, and what its
  end leaves.
-/

namespace Smpcil
namespace Mpool

open Allocator Chains

variable {env : Env} {pool pool' : Pool} {L : Layout} {size : Nat}

/-- The surroundings of a container, with the blocks lost by its requests and the history of the
underlying allocator once the pool is destroyed. -/
structure Life where
  world : World
  lost : List Block
  past : Option History

namespace Life

/-- Before a container is created, over memory of any contents. -/
def start (data : Nat → PoolData) (big : Nat → BigPool) : Life := ⟨⟨data, big, none, []⟩, [], none⟩

/-- `smp_mpool_create`. -/
def create (env : Env) (life : Life) (size : Nat) : Exec (Bool × Life) := do
  let (created, world) ← life.world.create env size
  return (created, { life with world := world })

/-- `smp_mpalloc`, which may lose a block. -/
def mpalloc (env : Env) (life : Life) (size : Nat) : Exec (VoidPtr × Life) := do
  let (m, world) ← life.world.mpalloc env size
  let lost := life.world.pool.elim [] fun pool => lostBy env pool size m
  return (m, { life with world := world, lost := lost ++ life.lost })

/-- `smp_mpdestory`.  No pool has as many blocks or records as the address space has bytes. -/
def destory (life : Life) : Exec Life :=
  match life.world.pool with
  | none => .ok life
  | some pool => do
      let (_, pool) ← smpMpdestory PoolCalls.bound pool
      return { life with
        world := { life.world with pool := none, issued := [] }
        past := some pool.history }

/-- `smp_set_error`. -/
def setError (env : Env) (life : Life) : Life :=
  { life with world := life.world.setError env }

/-- What the underlying allocator has seen. -/
def history (life : Life) : History :=
  match life.world.pool with
  | none => life.past.getD []
  | some pool => pool.history

/-- The accounts of the pool of a container. -/
structure Good (env : Env) (life : Life) : Prop where
  world : life.world.Good env
  fresh : life.world.pool = none → life.lost = [] ∧ life.past = none
  accounts : ∀ {pool}, life.world.pool = some pool → ∃ L, Inv env pool L ∧
    sizeofBigPool ≤ pool.max ∧ Accounts pool L life.lost ∧ KeptOnce pool.history ∧
      FreesLive pool.history

theorem good_start (data : Nat → PoolData) (big : Nat → BigPool) : (start data big).Good env := by
  constructor
  case world => exact Or.inl ⟨rfl, rfl⟩
  case fresh => exact fun _ => ⟨rfl, rfl⟩
  case accounts =>
    intro pool hpool
    simp [start] at hpool

end Life

/-- The calls of a container to its pool, up to the end of the pool. -/
def lifeCalls (env : Env) : PoolCalls Life where
  create := Life.create env
  mpalloc := Life.mpalloc env
  destory := Life.destory
  setError := Life.setError env

namespace Life

variable {life life' : Life} {m : VoidPtr}

/-- What creates a pool. -/
theorem exists_of_create (hcreate : life.create env size = .ok (true, life')) :
    life.world.create env size = .ok (true, life'.world) ∧ life'.lost = life.lost ∧
      life'.past = life.past ∧ life.world.pool = none ∧ Fitting size ∧
      ∃ pool, life'.world.pool = some pool ∧
        smpMpoolCreate env life.world.data life.world.big size = .ok (some pool) := by
  rcases Exec.bind_eq_ok.mp hcreate with ⟨⟨created, world⟩, hrun, hdone⟩
  simp only [Exec.pure_eq, Except.ok.injEq, Prod.mk.injEq] at hdone
  rcases hdone with ⟨rfl, rfl⟩
  refine ⟨hrun, rfl, rfl, ?_⟩
  rcases World.create_eq_true hrun with ⟨hnone, hfit, pool, hnew, rfl⟩
  exact ⟨hnone, hfit, pool, rfl, hnew⟩

/-- A new pool has its accounts. -/
theorem Good.create (h : life.Good env) (hs : SoundEnv env) (hpage : sizeofBigPool ≤ env.pageSize)
    (hcreate : life.create env size = .ok (true, life')) : life'.Good env := by
  rcases exists_of_create hcreate with
    ⟨hworld, hlost, hpast, hnone, ⟨hdvd, hroom⟩, pool, hpool, hnew⟩
  constructor
  case world => exact h.world.create hs hpage hworld
  case fresh =>
    intro hnot
    simp [hpool] at hnot
  case accounts =>
    intro pool₁ hpool₁
    rw [hpool, Option.some.injEq] at hpool₁
    subst hpool₁
    refine ⟨_, smpMpoolCreate_spec hs hdvd hnew, smpMpoolCreate_max hs hpage hroom hnew, ?_,
      (Accounted.create hnew).keptOnce, (Reachable.create hnew).freesLive hs hdvd⟩
    rw [hlost, (h.fresh hnone).1]
    exact Accounts.create hnew

/-- What a request with a pool runs. -/
theorem mpalloc_eq (hpool : life.world.pool = some pool) (n : Nat) :
    life.mpalloc env n = (do
      let (m, pool') ← smpMpalloc env (pool.history.length + 5) pool n
      return (m, ⟨{ life.world with
        pool := some pool'
        issued := if m = NULL then life.world.issued else ⟨m, n⟩ :: life.world.issued },
        lostBy env pool n m ++ life.lost, life.past⟩)) := by
  simp only [Life.mpalloc, World.mpalloc, hpool, Option.elim_some]
  cases smpMpalloc env (pool.history.length + 5) pool n with
  | error e => rfl
  | ok r => rfl

/-- A request keeps the accounts. -/
theorem Good.mpalloc (h : life.Good env) (hs : SoundEnv env) (n : Nat) :
    ∃ m life', life.mpalloc env n = .ok (m, life') ∧ life'.Good env ∧
      PoolCalls.Granted n life.world.issued m life'.world.issued := by
  rcases h.world.mpalloc hs n with ⟨m, world, hworld, hgood, hgrant⟩
  have hrun : life.mpalloc env n = .ok (m, ⟨world,
      (life.world.pool.elim [] fun pool => lostBy env pool n m) ++ life.lost, life.past⟩) := by
    simp only [Life.mpalloc, hworld, Exec.ok_bind, Exec.pure_eq]
  refine ⟨m, _, hrun, ?_, hgrant⟩
  cases hpool : life.world.pool with
  | none =>
      have hsame : world = life.world := by
        simp only [World.mpalloc, hpool, Except.ok.injEq, Prod.mk.injEq] at hworld
        exact hworld.2.symm
      constructor
      case world => exact hgood
      case fresh => exact fun _ => h.fresh hpool
      case accounts =>
        intro pool₁ hpool₁
        simp [hsame, hpool] at hpool₁
  | some pool =>
      rw [mpalloc_eq hpool] at hrun
      rcases Exec.bind_eq_ok.mp hrun with ⟨⟨m₁, pool'⟩, hcall, hdone⟩
      simp only [Exec.pure_eq, Except.ok.injEq, Prod.mk.injEq] at hdone
      rcases hdone with ⟨rfl, hlife⟩
      rw [Life.mk.injEq] at hlife
      have hnew : world.pool = some pool' := hlife.1 ▸ rfl
      rcases h.accounts hpool with ⟨L, hinv, hmax, ha, hkept, hfrees⟩
      rcases smpMpalloc_accounts hs hinv hmax ha hcall with ⟨L', hserved, ha'⟩
      constructor
      case world => exact hgood
      case fresh =>
        intro hnot
        simp [hnew] at hnot
      case accounts =>
        intro pool₁ hpool₁
        rw [hnew, Option.some.injEq] at hpool₁
        subst hpool₁
        exact ⟨L', hserved.inv, hserved.max ▸ hmax, ha', smpMpalloc_keptOnce hkept hcall,
          smpMpalloc_freesLive hfrees hcall⟩

/-- An error text changes no accounts. -/
theorem Good.setError (h : life.Good env) : (life.setError env).Good env := by
  constructor
  case world => exact h.world.setError
  case fresh => exact fun hnone => h.fresh (by simpa [Life.setError, World.setError] using hnone)
  case accounts =>
    intro pool₁ hpool₁
    simp only [Life.setError, World.setError, Option.map_eq_some_iff] at hpool₁
    rcases hpool₁ with ⟨pool, hpool, rfl⟩
    rcases h.accounts hpool with ⟨L, hinv, hmax, ha, hkept, hfrees⟩
    exact ⟨L, hinv.setError, hmax, ⟨by rw [Env.live_setError]; exact ha.all, ha.pos⟩,
      Env.keptOnce_setError hkept, Env.freesLive_setError.mpr hfrees⟩

end Life

/-- The calls of a container meet the contract. -/
theorem lifeCalls_serves (hs : SoundEnv env) (hpage : sizeofBigPool ≤ env.pageSize) :
    (lifeCalls env).Serves (Life.Good env) fun life => life.world.issued := by
  have hserves := poolCalls_serves hs hpage
  constructor
  case create => exact fun hgood hcreate => hgood.create hs hpage hcreate
  case mpalloc => exact fun n hgood => hgood.mpalloc hs n
  case setError => exact fun hgood => ⟨hgood.setError, rfl⟩
  case apart => exact fun hgood => hserves.apart hgood.world
  case bounded => exact fun hgood => hserves.bounded hgood.world

namespace Life

variable {life life' : Life} {m n : Nat}

/-- A block that a container got lies in a live block of the underlying allocator. -/
theorem Good.within (h : life.Good env) {b : Block} (hb : b ∈ life.world.issued) :
    ∃ c ∈ live life.history, Within b c := by
  rcases h.world with ⟨-, hnone⟩ | ⟨pool, L, hpool, hinv, -, hperm⟩
  · simp [hnone] at hb
  · have hhistory : life.history = pool.history := by simp [Life.history, hpool]
    rw [hhistory]
    rcases List.mem_append.mp (hperm.mem_iff.mp hb) with hb | hb
    · rcases hinv.carvedWithin (List.mem_append_left _ hb) with ⟨a, ha, hw⟩
      exact ⟨_, hinv.blockLive ha, hw⟩
    · exact ⟨b, hinv.isLive b (by simp [Layout.owned, hb]), Within.refl b⟩

/-- Two layouts of one pool have the same blocks. -/
theorem whole_eq {L' : Layout} (h : Inv env pool L) (h' : Inv env pool L') :
    L.whole = L'.whole := by
  have hblocks : L.blocks = L'.blocks := h.chain.unique h'.chain
  have hend := h.blockEnd _ h.current
  rw [h'.blockEnd _ h'.current, Nat.add_left_cancel_iff] at hend
  rw [Layout.whole, Layout.whole, hblocks, hend]

/-- A block that a container got does not overlap what its pool has lost. -/
theorem Good.apart_lost (h : life.Good env) (hs : SoundEnv env) {b c : Block}
    (hb : b ∈ life.world.issued) (hc : c ∈ life.lost) : Apart b c := by
  rcases h.world with ⟨-, hnone⟩ | ⟨pool, L, hpool, hinv, -, hperm⟩
  · simp [hnone] at hb
  rcases h.accounts hpool with ⟨L', hinv', -, ha, -⟩
  have hall : ∀ d ∈ L'.whole ++ L'.bigs, Apart d c :=
    fun d hd => (List.pairwise_append.mp (ha.apart hs hinv')).2.2 d hd c hc
  rcases List.mem_append.mp (hperm.mem_iff.mp hb) with hb | hb
  · rcases hinv.carvedWithin (List.mem_append_left _ hb) with ⟨a, hblock, hw⟩
    have hwhole : ⟨a, L.psize⟩ ∈ L'.whole := by
      rw [← whole_eq hinv hinv']
      exact List.mem_map_of_mem hblock
    exact hw.apart (Within.refl c) (hall _ (List.mem_append_left _ hwhole))
  · rcases hinv.recorded b hb with ⟨r, hr, halloc⟩
    rw [hinv.records.unique hinv'.records] at hr
    have hlive : b ∈ live pool.history := hinv.isLive b (by simp [Layout.owned, hb])
    have hpos : 0 < b.addr := (hinv.trace.block hs hlive).1
    rcases hinv'.allocBig r hr (by omega) with ⟨d, hd, haddr⟩
    rcases List.mem_append.mp (ha.all.mem_iff.mp hlive) with hb' | hb'
    · exact hall b hb'
    · exact absurd (haddr.trans halloc) (ha.lost_ne hs hinv' hb' (List.mem_append_right _ hd))

/-- The blocks of a pool are fewer than the bytes of the address space. -/
theorem blocks_lt (hs : SoundEnv env) (h : Inv env pool L) :
    L.blocks.length < PoolCalls.bound := by
  apply h.chain.length_lt
  · exact Nat.two_pow_pos 47
  · intro b hb
    have hbound := (h.blockAddr hs hb).2.2
    have hheader := h.header
    unfold PoolCalls.bound
    unfold sizeofPool at hheader
    omega

/-- So are the records. -/
theorem records_lt (hs : SoundEnv env) (h : Inv env pool L) :
    L.records.length < PoolCalls.bound := by
  apply h.records.length_lt
  · exact Nat.two_pow_pos 47
  · intro r hr
    rcases h.carvedWithin (Inv.record_carved hr) with ⟨b, hb, hw⟩
    have hbound := (h.blockAddr hs hb).2.2
    unfold Within recordAt sizeofBigPool at hw
    simp only at hw
    unfold PoolCalls.bound
    omega

/-- What the end of a pool leaves to the underlying allocator: {lit}`lost` is live, besides at
most the one buffer of an error text, and nothing was freed that was not live at the time. -/
def Leaves (lost : List Block) (life : Life) : Prop :=
  ∃ past, life.past = some past ∧ (live past).Perm lost ∧ KeptOnce past ∧ FreesLive past

/-- The end of a pool leaves what was lost. -/
theorem Good.destory (h : life.Good env) (hs : SoundEnv env) (hpool : life.world.pool = some pool) :
    ∃ life', (lifeCalls env).destory life = .ok life' ∧ life'.Leaves life.lost := by
  rcases h.accounts hpool with ⟨L, hinv, -, ha, hkept, hfrees⟩
  rcases ha.destory hs hinv hfrees (records_lt hs hinv) (blocks_lt hs hinv) with
    ⟨pool', hrun, hlive, hsame, hfrees'⟩
  refine ⟨⟨{ life.world with pool := none, issued := [] }, life.lost, some pool'.history⟩, ?_,
    pool'.history, rfl, hlive, hkept.congr hsame, hfrees'⟩
  simp only [lifeCalls, Life.destory, hpool, hrun, Exec.ok_bind, Exec.pure_eq]

/-! ## Pools that were created and asked -/

/-- A request keeps the size of the largest small request, and loses at most a big block. -/
theorem mpalloc_lost (hs : SoundEnv env) (h : life.Good env) (hpool : life.world.pool = some pool)
    (hrun : (lifeCalls env).mpalloc life n = .ok (m, life')) :
    (∀ b ∈ life'.lost, b ∈ life.lost ∨ b.size = n ∧ pool.max < n) ∧
      ∃ pool', life'.world.pool = some pool' ∧ pool'.max = pool.max := by
  simp only [lifeCalls, mpalloc_eq hpool] at hrun
  rcases Exec.bind_eq_ok.mp hrun with ⟨⟨m₁, pool'⟩, hcall, hdone⟩
  simp only [Exec.pure_eq, Except.ok.injEq, Prod.mk.injEq] at hdone
  rcases hdone with ⟨rfl, rfl⟩
  rcases h.accounts hpool with ⟨L, hinv, -⟩
  rcases smpMpalloc_spec hs hinv hcall with ⟨L', hserved⟩
  refine ⟨fun b hb => ?_, pool', rfl, hserved.max⟩
  rcases List.mem_append.mp hb with hb | hb
  · unfold lostBy at hb
    split_ifs at hb with hboth
    · simp only [Option.mem_toList, Option.map_eq_some_iff] at hb
      rcases hb with ⟨q, -, rfl⟩
      exact Or.inr ⟨rfl, hboth.2⟩
    · simp at hb
  · exact Or.inl hb

/-- A new pool: the size of its largest small request, and nothing lost. -/
theorem create_max (h : life.Good env)
    (hcreate : (lifeCalls env).create life size = .ok (true, life')) :
    life'.lost = [] ∧ ∃ pool, life'.world.pool = some pool ∧ pool.max = maxOf env size := by
  rcases exists_of_create hcreate with ⟨-, hlost, -, hnone, -, pool, hpool, hnew⟩
  refine ⟨hlost.trans (h.fresh hnone).1, pool, hpool, ?_⟩
  rcases smpMpoolCreate_eq_some.mp hnew with ⟨p, -, -, rfl⟩
  exact newPool_max

variable {P : Nat → Prop}

/-- What a created pool has lost: blocks that are too big for the blocks of the pool. -/
theorem begun_lost (hs : SoundEnv env) (hpage : sizeofBigPool ≤ env.pageSize)
    (h : (lifeCalls env).Begun (Life.Good env) P size life) :
    life.Good env ∧ (∀ b ∈ life.lost, P b.size ∧ maxOf env size < b.size) ∧
      ∃ pool, life.world.pool = some pool ∧ pool.max = maxOf env size := by
  have hserves := lifeCalls_serves hs hpage
  rcases h with ⟨w₀, w₁, hgood₀, hcreate, hasked⟩
  rcases create_max hgood₀ hcreate with ⟨hlost₁, hpool₁⟩
  have hgood₁ := hserves.create hgood₀ hcreate
  induction hasked with
  | none => exact ⟨hgood₁, by simp [hlost₁], hpool₁⟩
  | @ask life₁ life₂ n m _ hn hcall ih =>
      rcases ih with ⟨hgood, hlost, pool, hpool, hmax⟩
      rcases hserves.mpalloc n hgood with ⟨m', life', hcall', hgood', -⟩
      rw [hcall, Except.ok.injEq, Prod.mk.injEq] at hcall'
      rcases hcall' with ⟨rfl, rfl⟩
      rcases mpalloc_lost hs hgood hpool hcall with ⟨hlost', pool', hpool', hmax'⟩
      refine ⟨hgood', fun b hb => ?_, pool', hpool', hmax'.trans hmax⟩
      rcases hlost' b hb with hb | ⟨hsize, hbig⟩
      · exact hlost b hb
      · rw [hsize]
        exact ⟨hn, hmax ▸ hbig⟩
  | error _ ih =>
      rcases ih with ⟨hgood, hlost, pool, hpool, hmax⟩
      have hpool' := congrArg
        (Option.map fun pool => { pool with history := env.setError pool.history }) hpool
      exact ⟨hgood.setError, hlost, _, hpool', hmax⟩

/-- The end of a created pool leaves what was lost. -/
theorem begun_destory (hs : SoundEnv env) (hpage : sizeofBigPool ≤ env.pageSize)
    (h : (lifeCalls env).Begun (Life.Good env) P size life) :
    ∃ life', (lifeCalls env).destory life = .ok life' ∧ life'.Leaves life.lost := by
  rcases begun_lost hs hpage h with ⟨hgood, -, pool, hpool, -⟩
  exact hgood.destory hs hpool

/-- A pool that was asked for small sizes only has lost nothing. -/
theorem begun_small (hs : SoundEnv env) (hpage : sizeofBigPool ≤ env.pageSize)
    (h : (lifeCalls env).Begun (Life.Good env) P size life) (hP : ∀ n, P n → n ≤ maxOf env size) :
    life.lost = [] := by
  rcases begun_lost hs hpage h with ⟨-, hlost, -⟩
  rw [List.eq_nil_iff_forall_not_mem]
  intro b hb
  rcases hlost b hb with ⟨hb, hbig⟩
  exact absurd (hP _ hb) (Nat.not_le.mpr hbig)

end Life
end Mpool
end Smpcil
