import Smpcil.Pool.Requests

/-!
# Runs of a pool

All sequences of requests and frees on one pool, under any answers of the underlying
allocator, and for which creation sizes a pool stays inside its blocks.

Main results:

- Theorem {lit}`Reachable.inv`: the layout invariant in every reachable state.
- Theorem {lit}`reachable_regions_apart`: the regions handed out are apart from each other
  and from everything the pool keeps for itself.
- Theorem {lit}`safe_iff`: the creation sizes for which no request leaves its block.
-/

namespace Smpcil
namespace Mpool

open Allocator Chains
open Loops (Pass loop)

variable {env : Env} {pool pool' : Pool} {size : Nat}

/-! ## Requests and frees -/

/-- A pool with the regions a client got from it: those carved from blocks, and the big
ones not freed yet. -/
structure Client where
  pool : Pool
  small : List Block
  big : List Block

/-- The client after a request of {lit}`n` bytes was answered with {lit}`m`. -/
def Client.served (c : Client) (n m : Nat) (pool : Pool) : Client :=
  if m = 0 then { c with pool := pool }
  else if n ≤ c.pool.max then { c with pool := pool, small := ⟨m, n⟩ :: c.small }
  else { c with pool := pool, big := ⟨m, n⟩ :: c.big }

@[simp]
theorem Client.served_pool (c : Client) (n m : Nat) (pool : Pool) :
    (c.served n m pool).pool = pool := by
  unfold Client.served
  split_ifs <;> rfl

/-- The client after `smp_mpfree_bigpool(pool, p)`. -/
def Client.freed (c : Client) (p : Nat) (pool : Pool) : Client :=
  { c with pool := pool, big := c.big.filter fun r => r.addr ≠ p }

/-- The states of all runs on a pool created with {lit}`size`. -/
inductive Reachable (env : Env) (size : Nat) : Client → Prop where
  | create {data : Nat → PoolData} {big : Nat → BigPool} {pool : Pool} :
      smpMpoolCreate env data big size = .ok (some pool) → Reachable env size ⟨pool, [], []⟩
  | request {c : Client} {fuel n m : Nat} {pool : Pool} : Reachable env size c →
      smpMpalloc env fuel c.pool n = .ok (m, pool) → Reachable env size (c.served n m pool)
  | free {c : Client} {fuel p : Nat} {st : Status} {pool : Pool} : Reachable env size c →
      smpMpfreeBigpool fuel c.pool p = .ok (st, pool) → Reachable env size (c.freed p pool)

/-- The layout invariant holds in every reachable state. -/
theorem Reachable.inv (hs : SoundEnv env) (haligned : poolAlignment ∣ size)
    {c : Client} (h : Reachable env size c) :
    ∃ L, Inv env c.pool L ∧ L.psize = size ∧ L.small = c.small ∧ L.bigs = c.big := by
  induction h with
  | create hcreate => exact ⟨_, smpMpoolCreate_spec hs haligned hcreate, rfl, rfl, rfl⟩
  | @request c fuel n m pool _ hrun ih =>
      rcases ih with ⟨L, hinv, hpsize, hsmall, hbig⟩
      rcases smpMpalloc_spec hs hinv hrun with ⟨L', hserved⟩
      refine ⟨L', ?_, hserved.psize.trans hpsize, ?_, ?_⟩
      · rw [Client.served_pool]
        exact hserved.inv
      · unfold Client.served
        rcases hserved.region with ⟨h₀, hs', -⟩ | ⟨h₀, hle, hs', -⟩ | ⟨h₀, hlt, -, hs', -⟩
        · simp only at h₀
          simp [h₀, hs', hsmall]
        · simp only at h₀ hs'
          simp [h₀, hle, hs', hsmall]
        · simp only at h₀
          simp [h₀, Nat.not_le.mpr hlt, hs', hsmall]
      · unfold Client.served
        rcases hserved.region with ⟨h₀, -, hb'⟩ | ⟨h₀, hle, -, hb', -⟩ | ⟨h₀, hlt, -, -, hb'⟩
        · simp only at h₀
          simp [h₀, hb', hbig]
        · simp only at h₀
          simp [h₀, hle, hb', hbig]
        · simp only at h₀ hb'
          simp [h₀, Nat.not_le.mpr hlt, hb', hbig]
  | @free c fuel p st pool _ hrun ih =>
      rcases ih with ⟨L, hinv, hpsize, hsmall, hbig⟩
      refine ⟨_, (smpMpfreeBigpool_spec hs hinv hrun).1, hpsize, hsmall, ?_⟩
      simp [Client.freed, hbig]

/-- In every reachable state of a pool whose size is a multiple of the alignment, under any
failures of the underlying allocator: regions from blocks are aligned, all regions in use are
apart from each other, from every block header and from every record, the current block is on
the chain of blocks and the chain ends without a cycle; and a request that returns null writes
to no region in use. -/
theorem reachable_regions_apart (hs : SoundEnv env) (haligned : poolAlignment ∣ size)
    {c : Client} (h : Reachable env size c) :
    (∀ r ∈ c.small, poolAlignment ∣ r.addr) ∧ (c.small ++ c.big).Pairwise Apart ∧
      (∃ blocks records, Chain (fun b => (c.pool.data b).next) c.pool.addr blocks ∧
        blocks.Nodup ∧ c.pool.current ∈ blocks ∧
        Chain (fun r => (c.pool.big r).next) c.pool.bigPool records ∧
        ∀ r ∈ c.small ++ c.big, (∀ b ∈ blocks, Apart ⟨b, headerSize c.pool.addr b⟩ r) ∧
          ∀ q ∈ records, Apart (recordAt q) r) ∧
      ∀ fuel n pool', smpMpalloc env fuel c.pool n = .ok (0, pool') →
        ∃ ws, pool'.writes = ws ++ c.pool.writes ∧
          ∀ w ∈ ws, ∀ r ∈ c.small ++ c.big, Apart w r := by
  rcases h.inv hs haligned with ⟨L, hinv, -, hsmall, hbig⟩
  rw [← hsmall, ← hbig]
  refine ⟨?_, ?_, ⟨L.blocks, L.records, hinv.chain, hinv.chain.nodup, hinv.current,
    hinv.records, ?_⟩, ?_⟩
  · intro r hr
    exact (hinv.inBlock r (List.mem_append_left _ hr)).1
  · exact hinv.regionsApart
  · intro r hr
    constructor
    · intro b hb
      exact hinv.headerApart_regions hb (Nat.le_refl _) r hr
    · intro q hq
      exact hinv.recordApart hq hr
  · intro fuel n pool' hrun
    rcases smpMpalloc_spec hs hinv hrun with ⟨L', hserved⟩
    exact hserved.writes

/-- A request that fits into the current block is carved from it. -/
theorem smpMpalloc_fits (env : Env) (fuel : Nat) {n : Nat} (hn : n ≤ pool.max)
    (hroom : n ≤ sizeOfDiff (pool.data pool.current).dataEnd
      (smpAlignPtr (pool.data pool.current).last poolAlignment)) :
    smpMpalloc env (fuel + 1) pool n =
      .ok (smpAlignPtr (pool.data pool.current).last poolAlignment, pool.setLast pool.current
        (smpAlignPtr (pool.data pool.current).last poolAlignment + n)) := by
  have hpass : mpallocPass pool n pool.current =
      .ok (.done (some (pool.current,
        smpAlignPtr (pool.data pool.current).last poolAlignment))) := by
    simp [mpallocPass, hroom]
  simp only [smpMpalloc, hn, if_true, loop, hpass]
  rfl

/-- Creation with 128 bytes over a bump allocator, a small request and a big one. -/
theorem reachable_regions_apart_sample :
    ∃ c, Reachable (bumpEnv 4096) 128 c ∧ c.small = [⟨64, 10⟩] ∧
      c.big = [⟨144, 80⟩] ∧ (c.small ++ c.big).Pairwise Apart := by
  have hcreate : Reachable (bumpEnv 4096) 128 _ :=
    @Reachable.create _ _ (fun _ => ⟨0, 0, 0, 0⟩) (fun _ => ⟨0, 0⟩) _ rfl
  have hsmall := @Reachable.request _ _ _ _ 10 64 _ hcreate
    (smpMpalloc_fits _ 0 (by decide) (by decide))
  have hbig := @Reachable.request _ _ _ 2 80 144 _ hsmall rfl
  have happ := reachable_regions_apart (bumpEnv_sound 4096) (by decide) hbig
  exact ⟨_, hbig, rfl, rfl, happ.2.1⟩

/-! ## Creation sizes -/

/-- The pools of all runs that only request. -/
inductive Requested (env : Env) (size : Nat) : Pool → Prop where
  | create {data : Nat → PoolData} {big : Nat → BigPool} {pool : Pool} :
      smpMpoolCreate env data big size = .ok (some pool) → Requested env size pool
  | request {fuel n m : Nat} {pool pool' : Pool} : Requested env size pool →
      smpMpalloc env fuel pool n = .ok (m, pool') → Requested env size pool'

/-- The underlying allocator answered every request with a block. -/
def AllServed (h : History) : Prop := ∀ n, Event.alloc n none ∉ h

/-- The blocks that `data.next` reaches from the pool. -/
inductive OnChain (pool : Pool) : Nat → Prop where
  | first : OnChain pool pool.addr
  | next {b : Nat} : OnChain pool b → (pool.data b).next ≠ 0 →
      OnChain pool (pool.data b).next

/-- A region lies in the data area of one block, or is a live block of the underlying
allocator apart from all blocks of the pool. -/
def RegionOk (pool : Pool) (r : Block) : Prop :=
  (∃ b, OnChain pool b ∧ b + headerSize pool.addr b ≤ r.addr ∧
    r.addr + r.size ≤ (pool.data b).dataEnd) ∨
  (r ∈ live pool.history ∧
    ∀ b, OnChain pool b → Apart ⟨b, (pool.data b).dataEnd - b⟩ r)

/-- Nothing on a pool of {lit}`size` bytes leaves the blocks it got: neither its creation nor any
run of requests. -/
def Safe (pageSize size : Nat) : Prop :=
  ∀ env : Env, env.pageSize = pageSize → SoundEnv env →
    (∀ data big, ∃ created, smpMpoolCreate env data big size = .ok created) ∧
    ∀ pool, Requested env size pool → AllServed pool.history →
      (∀ b, OnChain pool b → (pool.data b).last ≤ (pool.data b).dataEnd) ∧
      ∀ fuel n m pool', smpMpalloc env fuel pool n = .ok (m, pool') →
        AllServed pool'.history → m ≠ 0 → RegionOk pool' ⟨m, n⟩

/-- The blocks that can be reached are those of the chain. -/
theorem onChain_iff {blocks : List Nat}
    (hchain : Chain (fun b => (pool.data b).next) pool.addr blocks)
    (hfirst : pool.addr ∈ blocks) {b : Nat} : OnChain pool b ↔ b ∈ blocks := by
  constructor
  · intro hb
    induction hb with
    | first => exact hfirst
    | next _ hne ih =>
        rcases hchain.next_mem ih with hnil | hmem
        · exact absurd hnil hne
        · exact hmem
  · -- along the chain, from the block before
    have hreach : ∀ (l : List Nat) (p : Nat), Chain (fun b => (pool.data b).next) p l →
        (p ≠ 0 → OnChain pool p) → ∀ b ∈ l, OnChain pool b := by
      intro l
      induction l with
      | nil => simp
      | cons a l ih =>
          rintro p ⟨rfl, hne, hrest⟩ hp b hb
          rcases List.mem_cons.mp hb with rfl | hb
          · exact hp hne
          · exact ih _ hrest (fun hnext => (hp hne).next hnext) b hb
    exact hreach _ _ hchain (fun _ => .first) b

theorem Inv.onChain_iff {L : Layout} (h : Inv env pool L) {b : Nat} :
    OnChain pool b ↔ b ∈ L.blocks :=
  Mpool.onChain_iff h.chain h.first_mem

theorem Requested.inv (hs : SoundEnv env) (haligned : poolAlignment ∣ size)
    (h : Requested env size pool) : ∃ L, Inv env pool L := by
  induction h with
  | create hcreate => exact ⟨_, smpMpoolCreate_spec hs haligned hcreate⟩
  | request _ hrun ih =>
      rcases ih with ⟨L, hinv⟩
      rcases smpMpalloc_spec hs hinv hrun with ⟨L', hserved⟩
      exact ⟨L', hserved.inv⟩

theorem Requested.placed (h : Requested env size pool) : ∃ p, env.place [] size = some p := by
  induction h with
  | create hcreate =>
      rcases smpMpoolCreate_eq_some.mp hcreate with ⟨p, hp, -⟩
      exact ⟨p, hp⟩
  | request _ _ ih => exact ih

/-- Pools of a size that is a multiple of the alignment and holds the header. -/
theorem safe_of_aligned {pageSize : Nat} (haligned : poolAlignment ∣ size)
    (hheader : sizeofPool ≤ size) : Safe pageSize size := by
  intro env _ hs
  refine ⟨fun data big => ?_, fun pool hpool _ => ?_⟩
  · unfold smpMpoolCreate
    cases env.place [] size with
    | none => exact ⟨_, rfl⟩
    | some p => exact ⟨_, if_neg (Nat.not_lt.mpr hheader)⟩
  rcases hpool.inv hs haligned with ⟨L, hinv⟩
  constructor
  · intro b hb
    have hmem := hinv.onChain_iff.mp hb
    rw [hinv.blockEnd b hmem]
    exact (hinv.blockLast b hmem).2
  · intro fuel n m pool' hrun _ hm
    rcases smpMpalloc_spec hs hinv hrun with ⟨L', hserved⟩
    have hinv' := hserved.inv
    rcases hserved.region with hnull | ⟨-, -, hsmall, -⟩ | ⟨-, -, -, -, hbigs⟩
    · exact absurd hnull.1 hm
    · have hmem : (⟨m, n⟩ : Block) ∈ L'.carved := by simp [Layout.carved, hsmall]
      rcases (hinv'.inBlock _ hmem).2 with ⟨b, hb, hlo, hhi⟩
      refine Or.inl ⟨b, hinv'.onChain_iff.mpr hb, hlo, ?_⟩
      have hlast := (hinv'.blockLast b hb).2
      rw [hinv'.blockEnd b hb]
      omega
    · have hmem : (⟨m, n⟩ : Block) ∈ L'.bigs := by simp [hbigs]
      refine Or.inr ⟨hinv'.isLive _ (by simp [Layout.owned, hmem]), ?_⟩
      intro b hb
      have hb' := hinv'.onChain_iff.mp hb
      have hend : (pool'.data b).dataEnd - b = L'.psize := by
        rw [hinv'.blockEnd b hb']
        omega
      rw [hend]
      exact hinv'.bigApart hb' hmem

/-- A pool of one block at address 8, after {lit}`j` requests of one byte. -/
structure OneByte (size j : Nat) (pool : Pool) : Prop where
  addr : pool.addr = 8
  current : pool.current = 8
  next : (pool.data 8).next = 0
  dataEnd : (pool.data 8).dataEnd = 8 + size
  last : 56 + 8 * j < (pool.data 8).last ∧ (pool.data 8).last ≤ 64 + 8 * j
  max : 1 ≤ pool.max
  bigPool : pool.bigPool = 0
  history : pool.history = [.alloc size (some 8)]

/-- A request that the room computed in the block admits is granted behind the others. -/
theorem OneByte.granted {j n : Nat} (h : OneByte size j pool) (hj : j ≤ 2 ^ 47)
    (hdata : pool'.data = pool.data) (hcurrent : pool'.current = pool.current)
    (hn : n ≤ pool'.max) (hroom : n ≤ (8 + size + 2 ^ 64 - (64 + 8 * j)) % 2 ^ 64) (env : Env) :
    smpMpalloc env 1 pool' n = .ok (64 + 8 * j, pool'.setLast 8 (64 + 8 * j + n)) := by
  rcases h.last with ⟨hlo, hhi⟩
  have halign : smpAlignPtr (pool.data 8).last poolAlignment = 64 + 8 * j := by
    unfold smpAlignPtr poolAlignment
    omega
  have hfits := smpMpalloc_fits env 0 hn
    (by rw [hcurrent, h.current, hdata, halign, h.dataEnd]; exact hroom)
  rw [hcurrent, h.current, hdata, halign] at hfits
  exact hfits

/-- One more request of one byte, which the code grants whenever the room it computes is
not zero; below zero that number wraps. -/
theorem OneByte.step {j : Nat} (h : OneByte size j pool) (hj : j ≤ 2 ^ 47)
    (hroom : (8 + size + 2 ^ 64 - (64 + 8 * j)) % 2 ^ 64 ≠ 0) (env : Env) :
    ∃ pool', smpMpalloc env 1 pool 1 = .ok (64 + 8 * j, pool') ∧ OneByte size (j + 1) pool' := by
  refine ⟨_, h.granted hj rfl rfl h.max (Nat.pos_of_ne_zero hroom) env, ?_⟩
  constructor
  case addr => exact h.addr
  case current => exact h.current
  case next => simp [Pool.setLast, Pool.setData, h.next]
  case dataEnd => simp [Pool.setLast, Pool.setData, h.dataEnd]
  case last =>
    simp [Pool.setLast, Pool.setData]
    omega
  case max => exact h.max
  case bigPool => exact h.bigPool
  case history => exact h.history

/-- The only block of a chain of one. -/
theorem onChain_single {p b : Nat} (haddr : pool.addr = p) (hnext : (pool.data p).next = 0)
    (hb : OnChain pool b) : b = p := by
  induction hb with
  | first => exact haddr
  | next _ hne ih =>
      rw [ih] at hne
      exact absurd hnext hne

theorem bumpEnv_place {pageSize : Nat} (hsize : size + 8 ≤ 2 ^ 47) :
    (bumpEnv pageSize).place [] size = some 8 := by
  simp [bumpEnv, bump, topOf, poolAlignment]
  omega

theorem OneByte.create (hpage : 0 < env.pageSize) (hsize : size + 8 ≤ 2 ^ 47)
    (hplace : env.place [] size = some 8) (hheader : sizeofPool < size) : ∃ pool,
      smpMpoolCreate env (fun _ => ⟨0, 0, 0, 0⟩) (fun _ => ⟨0, 0⟩) size = .ok (some pool) ∧
        OneByte size 0 pool := by
  refine ⟨_, smpMpoolCreate_eq_some.mpr ⟨8, hplace, Nat.le_of_lt hheader, rfl⟩, ?_⟩
  unfold newPool
  constructor
  case addr => rfl
  case current => rfl
  case next => simp
  case dataEnd => simp
  case last => simp [sizeofPool]
  case max =>
    have hdata : (size + 2 ^ 64 - sizeofPool) % 2 ^ 64 ≠ 0 := by
      unfold sizeofPool at *
      omega
    simp only
    split
    · omega
    · exact hpage
  case bigPool => rfl
  case history => rfl

/-- All requests of one byte up to the first one without room are granted. -/
theorem OneByte.run {j : Nat} (hpage : 0 < env.pageSize) (hsize : size + 8 ≤ 2 ^ 47)
    (hplace : env.place [] size = some 8) (hj : j ≤ 2 ^ 47) (hheader : sizeofPool < size)
    (hroom : ∀ i < j, (8 + size + 2 ^ 64 - (64 + 8 * i)) % 2 ^ 64 ≠ 0) :
    ∃ pool, Requested env size pool ∧ OneByte size j pool := by
  induction j with
  | zero =>
      rcases create hpage hsize hplace hheader with ⟨pool, hcreate, hone⟩
      exact ⟨pool, .create hcreate, hone⟩
  | succ j ih =>
      rcases ih (by omega) (fun i hi => hroom i (by omega)) with ⟨pool, hpool, hone⟩
      rcases hone.step (by omega) (hroom j (by omega)) env with ⟨pool', hrun, hone'⟩
      exact ⟨pool', hpool.request hrun, hone'⟩

/-- A granted request of one byte without room leaves the block. -/
theorem OneByte.not_safe {pageSize j : Nat} (hpage : 0 < pageSize) (hsize : size + 8 ≤ 2 ^ 47)
    (hj : j ≤ 2 ^ 47) (hheader : sizeofPool < size)
    (hroom : ∀ i ≤ j, (8 + size + 2 ^ 64 - (64 + 8 * i)) % 2 ^ 64 ≠ 0)
    (hpast : size ≤ 56 + 8 * j) : ¬ Safe pageSize size := by
  intro hsafe
  rcases @run (bumpEnv pageSize) _ _ hpage hsize (bumpEnv_place hsize) hj hheader
    (fun i hi => hroom i (by omega)) with ⟨pool, hpool, hone⟩
  rcases hone.step hj (hroom j (Nat.le_refl _)) (bumpEnv pageSize) with
    ⟨pool', hrun, hone'⟩
  have hserved : ∀ {u : Pool} {i : Nat}, OneByte size i u → AllServed u.history := by
    intro u i hu n hmem
    simp [hu.history] at hmem
  have hok := ((hsafe _ rfl (bumpEnv_sound pageSize)).2 pool hpool (hserved hone)).2 _ _ _ _ hrun
    (hserved hone') (by omega)
  rcases hok with ⟨b, hb, -, hend⟩ | ⟨hlive, -⟩
  · rw [onChain_single hone'.addr hone'.next hb, hone'.dataEnd] at hend
    simp only at hend
    omega
  · rw [hone'.history] at hlive
    simp at hlive
    omega

/-- The creation sizes for which requests stay inside the blocks of the pool: multiples of
the alignment that hold the header.  No block is large enough for the sizes of the second
part, so creation fails there. -/
theorem safe_iff {pageSize : Nat} (hpage : 0 < pageSize) :
    Safe pageSize size ↔ (poolAlignment ∣ size ∧ sizeofPool ≤ size) ∨ 2 ^ 47 < size + 8 := by
  constructor
  · intro hsafe
    by_contra hnot
    have hsize : size + 8 ≤ 2 ^ 47 := by omega
    by_cases hheader : sizeofPool ≤ size
    · have haligned : ¬ poolAlignment ∣ size := fun hdvd => hnot (Or.inl ⟨hdvd, hheader⟩)
      unfold poolAlignment sizeofPool at *
      refine @OneByte.not_safe _ _ size hpage hsize (by omega) (by unfold sizeofPool; omega) ?_
        (by omega) hsafe
      intro i hi
      omega
    · -- the pool struct does not fit into the block
      rcases (hsafe _ rfl (bumpEnv_sound pageSize)).1 (fun _ => ⟨0, 0, 0, 0⟩) (fun _ => ⟨0, 0⟩) with
        ⟨created, hcreate⟩
      simp [smpMpoolCreate, bumpEnv_place hsize, Nat.not_le.mp hheader] at hcreate
  · rintro (⟨haligned, hheader⟩ | hlarge)
    · exact safe_of_aligned haligned hheader
    · intro env _ hs
      have hnone : env.place [] size = none := by
        cases hp : env.place [] size with
        | none => rfl
        | some p =>
            have hpos := hs.nonzero hp
            have hdvd := hs.aligned hp
            have hbound := hs.bounded hp
            unfold poolAlignment at hdvd
            omega
      refine ⟨fun data big => ⟨none, by simp [smpMpoolCreate, hnone]⟩, fun pool hpool _ => ?_⟩
      rcases hpool.placed with ⟨p, hp⟩
      simp [hnone] at hp

/-- A pool of one page. -/
theorem safe_iff_page : Safe 4096 4096 :=
  (safe_iff (by decide)).mpr (Or.inl ⟨by decide, by decide⟩)

/-- In a pool of 4098 bytes the 507th request of one byte is granted six bytes behind the
end of the block. -/
theorem not_safe_4098 : ¬ Safe 4096 4098 := by
  apply @OneByte.not_safe _ _ 506
  · decide
  · decide
  · decide
  · decide
  · intro i hi
    omega
  · decide

end Mpool
end Smpcil
