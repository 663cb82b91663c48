import Smpcil.Pool.Serving

/-!
# Which requests end

The calls of `smp_mpalloc` and `smp_mpalloc_bigpool` into each other, for pools of every
creation size over an allocator that grants every request.  The layout invariant needs a
size that is a multiple of the alignment; what is needed here is only that the blocks stay
live and that the big regions are no blocks.

Main results:

- Theorems {lit}`smpMpalloc_small` and {lit}`smpMpalloc_big`: what a request does.
- Theorem {lit}`smpMpalloc_diverges`: without room for a record a big request never ends.
- Theorem {lit}`Reachable.sane`: the blocks and the records in every reachable state.
- Theorem {lit}`Reachable.ends_iff`: the requests that end in a reachable state.
-/

namespace Smpcil
namespace Mpool

open Allocator Chains
open Loops (Pass loop loop_partial)

variable {env : Env} {pool pool' : Pool} {blocks blocks' records : List Nat} {size n fuel m : Nat}

/-! ## Blocks and records -/

/-- The blocks of a pool form a chain, are live and aligned. -/
structure BlocksOk (pool : Pool) (blocks : List Nat) : Prop where
  chain : Chain (fun b => (pool.data b).next) pool.addr blocks
  current : pool.current ∈ blocks
  isLive : ∀ b ∈ blocks, LiveAt pool.history b
  aligned : ∀ b ∈ blocks, poolAlignment ∣ b

/-- The first block is that of the pool. -/
theorem BlocksOk.first_mem (h : BlocksOk pool blocks) : pool.addr ∈ blocks := by
  rcases h.chain.head_mem with hnil | hmem
  · have hempty : blocks = [] := (hnil ▸ h.chain).eq_nil
    have hcurrent := h.current
    rw [hempty] at hcurrent
    exact absurd hcurrent List.not_mem_nil
  · exact hmem

/-- The links of the records stay among them, and each big region is live, is no block and
has one record. -/
structure RecordsOk (pool : Pool) (blocks records : List Nat) : Prop where
  first : pool.bigPool = 0 ∨ pool.bigPool ∈ records
  next : ∀ r ∈ records, (pool.big r).next = 0 ∨ (pool.big r).next ∈ records
  isLive : ∀ r ∈ records, (pool.big r).alloc ≠ 0 →
    LiveAt pool.history (pool.big r).alloc ∧ (pool.big r).alloc ∉ blocks
  injective : ∀ r ∈ records, ∀ s ∈ records, (pool.big r).alloc ≠ 0 →
    (pool.big r).alloc = (pool.big s).alloc → r = s

/-- A small request changes no record and makes no block of what was live before. -/
structure Carved (pool : Pool) (blocks : List Nat) (pool' : Pool) (blocks' : List Nat) :
    Prop where
  blocksOk : BlocksOk pool' blocks'
  big : pool'.big = pool.big
  bigPool : pool'.bigPool = pool.bigPool
  max : pool'.max = pool.max
  kept : ∀ a, LiveAt pool.history a → LiveAt pool'.history a ∧ (a ∈ blocks' → a ∈ blocks)

/-- The records outlast a small request. -/
theorem Carved.recordsOk (h : Carved pool blocks pool' blocks')
    (hrecords : RecordsOk pool blocks records) : RecordsOk pool' blocks' records := by
  constructor
  case first =>
    rw [h.bigPool]
    exact hrecords.first
  case next =>
    rw [h.big]
    exact hrecords.next
  case isLive =>
    rw [h.big]
    intro r hr hne
    rcases hrecords.isLive r hr hne with ⟨hlive, hnot⟩
    rcases h.kept _ hlive with ⟨hlive', hback⟩
    exact ⟨hlive', fun hmem => hnot (hback hmem)⟩
  case injective =>
    rw [h.big]
    exact hrecords.injective

/-! ## Small requests -/

/-- Carving from a block changes no link. -/
theorem BlocksOk.setLast (h : BlocksOk pool blocks) (b v : Nat) :
    Carved pool blocks (pool.setLast b v) blocks := by
  constructor
  case blocksOk =>
    exact ⟨h.chain.congr fun a _ => pool.setLast_next b v a, h.current, h.isLive, h.aligned⟩
  case big => rfl
  case bigPool => rfl
  case max => rfl
  case kept => exact fun a ha => ⟨ha, id⟩

/-- The walk along the blocks, between two passes: only failure counters have changed. -/
structure Walking (pool : Pool) (blocks : List Nat) (s : Nat × Nat × Pool) : Prop where
  here : s.1 ∈ blocks
  current : s.2.1 ∈ blocks
  links : ∀ a, (s.2.2.data a).next = (pool.data a).next
  rooms : ∀ a, (s.2.2.data a).last = (pool.data a).last ∧
    (s.2.2.data a).dataEnd = (pool.data a).dataEnd
  addr : s.2.2.addr = pool.addr
  big : s.2.2.big = pool.big
  bigPool : s.2.2.bigPool = pool.bigPool
  max : s.2.2.max = pool.max
  history : s.2.2.history = pool.history

/-- One pass goes on to the next block. -/
theorem Walking.step {p c c' v : Nat} {u : Pool} (h : Walking pool blocks (p, c, u))
    (hchain : Chain (fun b => (pool.data b).next) pool.addr blocks)
    (hnext : (u.data p).next ≠ 0) (hc' : c' = c ∨ c' = (u.data p).next) :
    Walking pool blocks ((u.data p).next, c', u.setFailure p v) := by
  have hin : (u.data p).next ∈ blocks := by
    have hlink := h.links p
    simp only at hlink
    rcases hchain.next_mem h.here with hnil | hmem
    · exact absurd (hlink.trans hnil) hnext
    · rw [hlink]
      exact hmem
  constructor
  case here => exact hin
  case current =>
    rcases hc' with rfl | rfl
    · exact h.current
    · exact hin
  case links =>
    intro a
    rw [Pool.setFailure_next]
    exact h.links a
  case rooms =>
    intro a
    have hsame := h.rooms a
    by_cases heq : a = p <;> simpa [Pool.setFailure, Pool.setData, heq] using hsame
  case addr => exact h.addr
  case big => exact h.big
  case bigPool => exact h.bigPool
  case max => exact h.max
  case history => exact h.history

/-- The walk ends at the last block. -/
theorem Walking.run {s r : Nat × Nat × Pool} (h : Walking pool blocks s)
    (hchain : Chain (fun b => (pool.data b).next) pool.addr blocks)
    (hrun : loop .diverged mpallocBlockPass fuel s = .ok r) :
    Walking pool blocks r ∧ (r.2.2.data r.1).next = 0 := by
  apply mpallocBlockPass_walk (Walking pool blocks) _ h hrun
  intro p c c' u v hw hnext hc'
  exact hw.step hchain hnext hc'

/-- A block of {lit}`psize` bytes at {lit}`newP` has become the last of the chain, with a region
of {lit}`size` bytes at {lit}`m`. -/
structure Joined (pool : Pool) (blocks : List Nat) (newP psize size m : Nat) (pool' : Pool) :
    Prop where
  blocksOk : BlocksOk pool' (blocks ++ [newP])
  addr : pool'.addr = pool.addr
  big : pool'.big = pool.big
  bigPool : pool'.bigPool = pool.bigPool
  max : pool'.max = pool.max
  history : pool'.history = pool.history
  region : m = smpAlignPtr (newP + sizeofPoolData) poolAlignment
  room : (pool'.data newP).last = m + size ∧ (pool'.data newP).dataEnd = newP + psize
  rooms : ∀ b ∈ blocks, (pool'.data b).last = (pool.data b).last ∧
    (pool'.data b).dataEnd = (pool.data b).dataEnd

/-- A new block becomes the last of the chain. -/
theorem BlocksOk.link (h : BlocksOk pool blocks) {newP psize : Nat} (hne : newP ≠ 0)
    (hlive : LiveAt pool.history newP) (hdvd : poolAlignment ∣ newP) (hnew : newP ∉ blocks)
    (hrun : mpallocBlockLink fuel pool newP psize size = .ok (m, pool')) :
    Joined pool blocks newP psize size m pool' := by
  unfold mpallocBlockLink at hrun
  rw [Exec.bind_eq_ok] at hrun
  rcases hrun with ⟨⟨p, c, u⟩, hloop, hdone⟩
  have hchain : Chain (fun b => ((pool.setData newP
      ⟨smpAlignPtr (newP + sizeofPoolData) poolAlignment + size, newP + psize, 0, 0⟩).data
        b).next) pool.addr blocks := by
    apply h.chain.congr
    intro b hb
    have hbne : b ≠ newP := fun heq => hnew (heq ▸ hb)
    simp [Pool.setData, hbne]
  have hstart : Walking (pool.setData newP
      ⟨smpAlignPtr (newP + sizeofPoolData) poolAlignment + size, newP + psize, 0, 0⟩) blocks
      (pool.current, pool.current, pool.setData newP
        ⟨smpAlignPtr (newP + sizeofPoolData) poolAlignment + size, newP + psize, 0, 0⟩) :=
    ⟨h.current, h.current, fun _ => rfl, fun _ => ⟨rfl, rfl⟩, rfl, rfl, rfl, rfl, rfl⟩
  rcases hstart.run hchain hloop with ⟨hw, hlast⟩
  simp only [Exec.pure_eq, Except.ok.injEq, Prod.mk.injEq] at hdone
  rcases hdone with ⟨rfl, rfl⟩
  rw [if_pos (hchain.ne_zero hw.current)]
  -- the walk stopped at the last block
  have hlink := hw.links p
  simp only at hlink hlast
  rcases hchain.exists_snoc hw.here (hlink.symm.trans hlast) with ⟨l, hblocks⟩
  have hnodup := hchain.nodup
  rw [hblocks, List.nodup_append'] at hnodup
  have hpne : newP ≠ p := fun heq => hnew (heq ▸ hw.here)
  have hrooms : ∀ b, (((u.setNext p newP).setCurrent c).data b).last = (u.data b).last ∧
      (((u.setNext p newP).setCurrent c).data b).dataEnd = (u.data b).dataEnd := by
    intro b
    by_cases heq : b = p <;> simp [Pool.setCurrent, Pool.setNext, Pool.setData, heq]
  constructor
  case blocksOk =>
    constructor
    case chain =>
      rw [hblocks, List.append_assoc]
      have haddr : ((u.setNext p newP).setCurrent c).addr = pool.addr := hw.addr
      rw [haddr]
      apply (hblocks ▸ hchain).snoc hne
      · intro b hb
        have hbne : b ≠ p := fun heq => List.disjoint_left.mp hnodup.2.2 hb (by simp [heq])
        simpa [Pool.setCurrent, Pool.setNext, Pool.setData, hbne] using hw.links b
      · simp [Pool.setCurrent, Pool.setNext, Pool.setData]
      · have hlink := hw.links newP
        simp only [Pool.setData, Function.update_self] at hlink
        simp [Pool.setCurrent, Pool.setNext, Pool.setData, hpne, hlink]
    case current => exact List.mem_append_left _ hw.current
    case isLive =>
      have hhistory : ((u.setNext p newP).setCurrent c).history = pool.history := hw.history
      rw [hhistory]
      intro b hb
      rcases List.mem_append.mp hb with hb | hb
      · exact h.isLive b hb
      · rw [List.mem_singleton.mp hb]
        exact hlive
    case aligned =>
      intro b hb
      rcases List.mem_append.mp hb with hb | hb
      · exact h.aligned b hb
      · rw [List.mem_singleton.mp hb]
        exact hdvd
  case addr => exact hw.addr
  case big => exact hw.big
  case bigPool => exact hw.bigPool
  case max => exact hw.max
  case history => exact hw.history
  case region => rfl
  case room =>
    rw [(hrooms newP).1, (hrooms newP).2, (hw.rooms newP).1, (hw.rooms newP).2]
    simp [Pool.setData]
  case rooms =>
    intro b hb
    have hbne : b ≠ newP := fun heq => hnew (heq ▸ hb)
    rw [(hrooms b).1, (hrooms b).2, (hw.rooms b).1, (hw.rooms b).2]
    simp [Pool.setData, hbne]

/-- What `smp_memalign` answers over a generous allocator. -/
theorem smpMemalign_generous (hg : Generous poolAlignment env.place) (pool : Pool) (size : Nat) :
    ∃ a, a ≠ 0 ∧ poolAlignment ∣ a ∧ ¬ LiveAt pool.history a ∧ smpMemalign env pool size =
      (a, { pool with history := .alloc size (some a) :: pool.history }) := by
  rcases hg.grants pool.history size with ⟨a, ha⟩
  refine ⟨a, hg.nonzero ha, hg.aligned ha, hg.fresh ha, ?_⟩
  simp [smpMemalign, smpAlloc, ha]

/-- The blocks stay as they are while the allocator grants a request. -/
theorem BlocksOk.granted (h : BlocksOk pool blocks) (size a : Nat) (ws : List Block) :
    BlocksOk { pool with history := .alloc size (some a) :: pool.history, writes := ws }
      blocks :=
  ⟨h.chain, h.current, fun b hb => liveAt_alloc.mpr (Or.inr (h.isLive b hb)), h.aligned⟩

/-- A small request is carved from a block of the chain, or from a new one. -/
inductive SmallRun (pool : Pool) (blocks : List Nat) (n : Nat) : Nat → Pool → Prop where
  | found {b : Nat} : b ∈ blocks →
      n ≤ sizeOfDiff (pool.data b).dataEnd (smpAlignPtr (pool.data b).last poolAlignment) →
      SmallRun pool blocks n (smpAlignPtr (pool.data b).last poolAlignment)
        (pool.setLast b (smpAlignPtr (pool.data b).last poolAlignment + n))
  | new {a psize m : Nat} {pool' : Pool} : ¬ LiveAt pool.history a →
      psize = sizeOfDiff (pool.data pool.addr).dataEnd pool.addr →
      Joined { pool with history := .alloc psize (some a) :: pool.history } blocks a psize n m
        pool' →
      SmallRun pool blocks n m pool'

/-- What a small request does. -/
theorem smpMpalloc_small (hg : Generous poolAlignment env.place) (h : BlocksOk pool blocks)
    (hn : n ≤ pool.max) (hrun : smpMpalloc env fuel pool n = .ok (m, pool')) :
    SmallRun pool blocks n m pool' := by
  cases fuel with
  | zero => simp [smpMpalloc] at hrun
  | succ fuel =>
      rw [smpMpalloc, if_pos hn, Exec.bind_eq_ok] at hrun
      rcases hrun with ⟨found, hloop, hrun⟩
      rcases mpallocPass_spec h.chain h.current hloop with rfl | ⟨b, hb, rfl, hroom⟩
      · simp only [smpMpallocBlock] at hrun
        rcases smpMemalign_generous hg pool
          (sizeOfDiff (pool.data pool.addr).dataEnd pool.addr) with ⟨a, hne, hdvd, hnot, hgrant⟩
        rw [hgrant, if_neg hne] at hrun
        have hold : a ∉ blocks := fun hmem => hnot (h.isLive a hmem)
        exact .new hnot rfl ((h.granted _ a pool.writes).link hne (liveAt_alloc.mpr (Or.inl rfl))
          hdvd hold hrun)
      · simp only [Exec.pure_eq, Except.ok.injEq, Prod.mk.injEq] at hrun
        rcases hrun with ⟨rfl, rfl⟩
        exact .found hb hroom

/-- A small request changes no record. -/
theorem SmallRun.carved (h : BlocksOk pool blocks) (hrun : SmallRun pool blocks n m pool') :
    ∃ blocks', Carved pool blocks pool' blocks' := by
  cases hrun with
  | found _ _ => exact ⟨blocks, h.setLast _ _⟩
  | @new a psize m pool' hnot _ hjoined =>
      refine ⟨blocks ++ [a], hjoined.blocksOk, hjoined.big, hjoined.bigPool, hjoined.max, ?_⟩
      intro b hb
      constructor
      · rw [hjoined.history]
        exact liveAt_alloc.mpr (Or.inr hb)
      · intro hmem
        rcases List.mem_append.mp hmem with hmem | hmem
        · exact hmem
        · exact absurd (List.mem_singleton.mp hmem ▸ hb) hnot

/-- A small request returns. -/
theorem BlocksOk.smpMpalloc_returns (hg : Generous poolAlignment env.place)
    (h : BlocksOk pool blocks) (hn : n ≤ pool.max) (hfuel : blocks.length ≤ fuel) :
    ∃ r, smpMpalloc env fuel pool n = .ok r := by
  have hpos := List.length_pos_of_mem h.current
  obtain ⟨fuel, rfl⟩ : ∃ k, fuel = k + 1 := ⟨fuel - 1, by omega⟩
  rcases mpallocPass_ends h.chain n h.current hfuel with ⟨found, hfound⟩
  rw [smpMpalloc, if_pos hn, hfound]
  cases found with
  | some b => exact ⟨_, rfl⟩
  | none =>
      simp only [Exec.ok_bind, smpMpallocBlock]
      rcases smpMemalign_generous hg pool
        (sizeOfDiff (pool.data pool.addr).dataEnd pool.addr) with ⟨a, hne, -, hnot, hgrant⟩
      rw [hgrant, if_neg hne]
      have hold : a ∉ blocks := fun hmem => hnot (h.isLive a hmem)
      have hgranted := h.granted (sizeOfDiff (pool.data pool.addr).dataEnd pool.addr) a
        pool.writes
      exact mpallocBlockLink_returns hgranted.chain hgranted.current hold hfuel

/-! ## Records -/

/-- A record is stored: one of a big region that no other record has, or an empty one. -/
theorem RecordsOk.store (h : RecordsOk pool blocks records) {r p next : Nat}
    (hnext : next = 0 ∨ next ∈ r :: records)
    (hp : p ≠ 0 → LiveAt pool.history p ∧ p ∉ blocks ∧
      ∀ s ∈ records, s ≠ r → (pool.big s).alloc ≠ p) :
    RecordsOk (pool.setBig r ⟨next, p⟩) blocks (r :: records) := by
  have hself : (pool.setBig r ⟨next, p⟩).big r = ⟨next, p⟩ := by simp [Pool.setBig]
  have hother : ∀ s, s ≠ r → (pool.setBig r ⟨next, p⟩).big s = pool.big s := by
    intro s hs
    simp [Pool.setBig, hs]
  constructor
  case first =>
    rcases h.first with hnil | hmem
    · exact Or.inl hnil
    · exact Or.inr (List.mem_cons_of_mem _ hmem)
  case next =>
    intro s hs
    by_cases heq : s = r
    · rw [heq, hself]
      exact hnext
    · rw [hother s heq]
      rcases h.next s (List.mem_of_ne_of_mem heq hs) with hnil | hmem
      · exact Or.inl hnil
      · exact Or.inr (List.mem_cons_of_mem _ hmem)
  case isLive =>
    intro s hs hne
    by_cases heq : s = r
    · rw [heq, hself] at hne ⊢
      exact ⟨(hp hne).1, (hp hne).2.1⟩
    · rw [hother s heq] at hne ⊢
      exact h.isLive s (List.mem_of_ne_of_mem heq hs) hne
  case injective =>
    intro s hs t ht hne heq
    by_cases hsr : s = r
    · by_cases htr : t = r
      · rw [hsr, htr]
      · rw [hsr, hself] at hne heq
        rw [hother t htr] at heq
        exact absurd heq.symm ((hp hne).2.2 t (List.mem_of_ne_of_mem htr ht) htr)
    · rw [hother s hsr] at hne heq
      by_cases htr : t = r
      · rw [htr, hself] at heq
        simp only at heq
        exact absurd heq ((hp (heq ▸ hne)).2.2 s (List.mem_of_ne_of_mem hsr hs) hsr)
      · rw [hother t htr] at heq
        exact h.injective s (List.mem_of_ne_of_mem hsr hs) t (List.mem_of_ne_of_mem htr ht) hne
          heq

/-- A free record is one of the records. -/
theorem freeRecordPass_mem (h : RecordsOk pool blocks records) {r : Nat}
    (hrun : loop .diverged (freeRecordPass pool) fuel (pool.bigPool, 0) = .ok (some r)) :
    r ∈ records := by
  have hspec : ∀ r', some r = some r' → r' ∈ records := by
    refine loop_partial (fun s : Nat × Nat => s.1 = 0 ∨ s.1 ∈ records)
      (fun found => ∀ r', found = some r' → r' ∈ records) ?_ ?_ h.first hrun
    · rintro ⟨q, k⟩ found hq hpass r' rfl
      simp only [freeRecordPass] at hpass
      split_ifs at hpass with hne hfree
      · simp only [Except.ok.injEq, Pass.done.injEq, Option.some.injEq] at hpass
        subst hpass
        exact hq.resolve_left hne
      all_goals simp at hpass
    · rintro ⟨q, k⟩ s' hq hpass
      simp only [freeRecordPass] at hpass
      split_ifs at hpass with hne hfree hfar
      all_goals simp only [Except.ok.injEq, Pass.again.injEq, reduceCtorEq] at hpass
      subst hpass
      exact h.next q (hq.resolve_left hne)
  exact hspec r rfl

/-- The record found for a region is one of the records. -/
theorem findRecordPass_mem (h : RecordsOk pool blocks records) {p r : Nat}
    (hrun : loop .diverged (findRecordPass pool p) fuel pool.bigPool = .ok (some r)) :
    r ∈ records := by
  have hspec : ∀ r', some r = some r' → r' ∈ records := by
    refine loop_partial (fun q => q = 0 ∨ q ∈ records)
      (fun found => ∀ r', found = some r' → r' ∈ records) ?_ ?_ h.first hrun
    · rintro q found hq hpass r' rfl
      simp only [findRecordPass] at hpass
      split_ifs at hpass with hne hfound
      · simp only [Except.ok.injEq, Pass.done.injEq, Option.some.injEq] at hpass
        subst hpass
        exact hq.resolve_left hne
      all_goals simp at hpass
    · rintro q s' hq hpass
      simp only [findRecordPass] at hpass
      split_ifs at hpass with hne hfound
      all_goals simp only [Except.ok.injEq, Pass.again.injEq, reduceCtorEq] at hpass
      subst hpass
      exact h.next q (hq.resolve_left hne)
  exact hspec r rfl

/-! ## Big requests -/

/-- The pool when the region of a big request is granted at {lit}`a`. -/
def Pool.zeroed (pool : Pool) (n a : Nat) : Pool :=
  { pool with
    history := .alloc n (some a) :: pool.history
    writes := ⟨a, n⟩ :: pool.writes }

/-- What `smp_calloc` answers over a generous allocator. -/
theorem smpCalloc_generous (hg : Generous poolAlignment env.place) (pool : Pool) (size : Nat) :
    ∃ a, a ≠ 0 ∧ ¬ LiveAt pool.history a ∧ smpCalloc env pool size = (a, pool.zeroed size a) := by
  rcases smpMemalign_generous hg pool size with ⟨a, hne, -, hnot, hgrant⟩
  rw [smpMemalign] at hgrant
  refine ⟨a, hne, hnot, ?_⟩
  simp [smpCalloc, hgrant, hne, Pool.zeroed]

/-- A big request gets its region, and then a free record, a new one, or none. -/
inductive BigRun (env : Env) (pool : Pool) (n : Nat) : Nat → Pool → Prop where
  | reused {a r fuel : Nat} : a ≠ 0 → ¬ LiveAt pool.history a →
      loop .diverged (freeRecordPass (pool.zeroed n a)) fuel (pool.bigPool, 0) = .ok (some r) →
      BigRun env pool n a ((pool.zeroed n a).setBig r { pool.big r with alloc := a })
  | recorded {a r fuel : Nat} {u : Pool} : a ≠ 0 → ¬ LiveAt pool.history a →
      smpMpalloc env fuel (pool.zeroed n a) sizeofBigPool = .ok (r, u) → r ≠ 0 →
      BigRun env pool n a ((u.setBig r ⟨u.bigPool, a⟩).setBigPool r)
  | unrecorded {a fuel : Nat} {u : Pool} : a ≠ 0 → ¬ LiveAt pool.history a →
      smpMpalloc env fuel (pool.zeroed n a) sizeofBigPool = .ok (0, u) → BigRun env pool n 0 u

/-- What a big request does. -/
theorem smpMpalloc_big (hg : Generous poolAlignment env.place) (hn : ¬ n ≤ pool.max)
    (hrun : smpMpalloc env fuel pool n = .ok (m, pool')) : BigRun env pool n m pool' := by
  cases fuel with
  | zero => simp [smpMpalloc] at hrun
  | succ fuel =>
      rcases smpCalloc_generous hg pool n with ⟨a, hne, hnot, hgrant⟩
      rw [smpMpalloc, if_neg hn, smpMpallocBigpool, hgrant] at hrun
      simp only [if_neg hne, Exec.bind_eq_ok] at hrun
      rcases hrun with ⟨found, hfound, hrun⟩
      cases found with
      | some r =>
          simp only [Exec.pure_eq, Except.ok.injEq, Prod.mk.injEq] at hrun
          rcases hrun with ⟨rfl, rfl⟩
          exact .reused hne hnot hfound
      | none =>
          simp only [Exec.bind_eq_ok] at hrun
          rcases hrun with ⟨⟨r, u⟩, hcall, hrun⟩
          by_cases hr : r = 0
          · subst hr
            simp only [if_true, smpFree, ne_eq, not_true_eq_false, if_false, Exec.pure_eq,
              Except.ok.injEq, Prod.mk.injEq] at hrun
            rcases hrun with ⟨rfl, rfl⟩
            exact .unrecorded hne hnot hcall
          · simp only [if_neg hr, Exec.pure_eq, Except.ok.injEq, Prod.mk.injEq] at hrun
            rcases hrun with ⟨rfl, rfl⟩
            exact .recorded hne hnot hcall hr

/-- Without a record, and without room for one in a small request, a big request never
ends: each record asks for another one. -/
theorem smpMpalloc_diverges (hg : Generous poolAlignment env.place)
    (hmax : pool.max < sizeofBigPool) (hnone : pool.bigPool = 0) (hn : pool.max < n) (fuel : Nat) :
    smpMpalloc env fuel pool n = .error .diverged := by
  induction fuel generalizing pool n with
  | zero => rfl
  | succ fuel ih =>
      obtain ⟨a, u, hne, humax, hu, hgrant⟩ : ∃ a u, a ≠ 0 ∧ u.max = pool.max ∧
          u.bigPool = 0 ∧ smpCalloc env pool n = (a, u) := by
        rcases smpCalloc_generous hg pool n with ⟨a, hne, -, hgrant⟩
        exact ⟨a, pool.zeroed n a, hne, rfl, hnone, hgrant⟩
      have hfree : loop .diverged (freeRecordPass u) (fuel + 1) (0, 0) = .ok none := by
        simp [loop, freeRecordPass]
      have hinner : smpMpalloc env fuel u sizeofBigPool = .error .diverged :=
        ih (humax ▸ hmax) hu (humax ▸ hmax)
      rw [smpMpalloc, if_neg (Nat.not_le.mpr hn), smpMpallocBigpool, hgrant]
      simp only [if_neg hne, hu, hfree, Exec.ok_bind, hinner, Exec.error_bind]

/-- The state of a pool between two calls. -/
structure Sane (pool : Pool) (blocks records : List Nat) : Prop where
  blocksOk : BlocksOk pool blocks
  recordsOk : RecordsOk pool blocks records
  noRecord : pool.max < sizeofBigPool → pool.bigPool = 0

/-- The region of a big request in progress is live, is no block and has no record. -/
structure Held (pool : Pool) (blocks records : List Nat) (p : Nat) : Prop where
  isLive : LiveAt pool.history p
  noBlock : p ∉ blocks
  noRecord : ∀ r ∈ records, (pool.big r).alloc ≠ p

/-- The region of a big request is granted. -/
theorem Sane.granted (h : Sane pool blocks records) {a : Nat} (hne : a ≠ 0)
    (hnot : ¬ LiveAt pool.history a) (n : Nat) :
    BlocksOk (pool.zeroed n a) blocks ∧ RecordsOk (pool.zeroed n a) blocks records ∧
      Held (pool.zeroed n a) blocks records a := by
  refine ⟨h.blocksOk.granted n a _, ?_, ?_⟩
  · constructor
    case first => exact h.recordsOk.first
    case next => exact h.recordsOk.next
    case isLive =>
      intro r hr hr₀
      rcases h.recordsOk.isLive r hr hr₀ with ⟨hlive, hblock⟩
      exact ⟨liveAt_alloc.mpr (Or.inr hlive), hblock⟩
    case injective => exact h.recordsOk.injective
  · constructor
    case isLive => exact liveAt_alloc.mpr (Or.inl rfl)
    case noBlock => exact fun hmem => hnot (h.blocksOk.isLive a hmem)
    case noRecord =>
      intro r hr heq
      have hlive := (h.recordsOk.isLive r hr (heq ▸ hne)).1
      exact hnot (heq ▸ hlive)

/-- A big request leaves a pool as it should be. -/
theorem Sane.bigRun (hg : Generous poolAlignment env.place) (h : Sane pool blocks records)
    (hroom : sizeofBigPool ≤ pool.max) (hrun : BigRun env pool n m pool') :
    ∃ blocks' records', Sane pool' blocks' records' ∧ pool'.max = pool.max := by
  cases hrun with
  | @reused _ r _ hne hnot hfound =>
      rcases h.granted hne hnot n with ⟨hblocks, hrecords, hheld⟩
      have hr := freeRecordPass_mem hrecords hfound
      have hnext : (pool.big r).next = 0 ∨ (pool.big r).next ∈ r :: records :=
        (hrecords.next r hr).imp_right (List.mem_cons_of_mem _)
      have hstored := hrecords.store hnext fun _ =>
        ⟨hheld.isLive, hheld.noBlock, fun s hs _ => hheld.noRecord s hs⟩
      exact ⟨blocks, r :: records, ⟨⟨hblocks.chain, hblocks.current, hblocks.isLive,
        hblocks.aligned⟩, hstored, h.noRecord⟩, rfl⟩
  | @recorded _ r _ u hne hnot hcall hr =>
      rcases h.granted hne hnot n with ⟨hblocks, hrecords, hheld⟩
      rcases (smpMpalloc_small hg hblocks hroom hcall).carved hblocks with ⟨blocks', hcarved⟩
      have hrecords' := hcarved.recordsOk hrecords
      have humax : u.max = pool.max := hcarved.max
      rcases hcarved.kept m hheld.isLive with ⟨hlive, hback⟩
      have hfirst : u.bigPool = 0 ∨ u.bigPool ∈ r :: records :=
        hrecords'.first.imp_right (List.mem_cons_of_mem _)
      have hstored := hrecords'.store hfirst fun _ =>
        ⟨hlive, fun hmem => hheld.noBlock (hback hmem), fun s hs _ => by
          rw [hcarved.big]
          exact hheld.noRecord s hs⟩
      refine ⟨blocks', r :: records, ⟨?_, ?_, ?_⟩, humax⟩
      · exact ⟨hcarved.blocksOk.chain, hcarved.blocksOk.current, hcarved.blocksOk.isLive,
          hcarved.blocksOk.aligned⟩
      · exact ⟨Or.inr List.mem_cons_self, hstored.next, hstored.isLive, hstored.injective⟩
      · intro hless
        have hsame : ((u.setBig r ⟨u.bigPool, m⟩).setBigPool r).max = u.max := rfl
        omega
  | unrecorded hne hnot hcall =>
      rcases h.granted hne hnot n with ⟨hblocks, hrecords, -⟩
      rcases (smpMpalloc_small hg hblocks hroom hcall).carved hblocks with ⟨blocks', hcarved⟩
      have humax : pool'.max = pool.max := hcarved.max
      refine ⟨blocks', records, ⟨hcarved.blocksOk, hcarved.recordsOk hrecords, ?_⟩, humax⟩
      intro hless
      omega

/-- A request leaves a pool as it should be. -/
theorem Sane.smpMpalloc (hg : Generous poolAlignment env.place) (h : Sane pool blocks records)
    (hrun : smpMpalloc env fuel pool n = .ok (m, pool')) :
    ∃ blocks' records', Sane pool' blocks' records' ∧ pool'.max = pool.max := by
  by_cases hn : n ≤ pool.max
  · rcases (smpMpalloc_small hg h.blocksOk hn hrun).carved h.blocksOk with ⟨blocks', hcarved⟩
    refine ⟨blocks', records, ⟨hcarved.blocksOk, hcarved.recordsOk h.recordsOk, ?_⟩, hcarved.max⟩
    rw [hcarved.max, hcarved.bigPool]
    exact h.noRecord
  · have hroom : sizeofBigPool ≤ pool.max := by
      by_contra hless
      rw [smpMpalloc_diverges hg (by omega) (h.noRecord (by omega)) (by omega)] at hrun
      simp at hrun
    exact h.bigRun hg hroom (smpMpalloc_big hg hn hrun)

/-- Freeing a big region leaves a pool as it should be. -/
theorem Sane.smpMpfreeBigpool (h : Sane pool blocks records) {p : Nat} {st : Status}
    (hrun : smpMpfreeBigpool fuel pool p = .ok (st, pool')) :
    ∃ records', Sane pool' blocks records' ∧ pool'.max = pool.max := by
  unfold Mpool.smpMpfreeBigpool at hrun
  rw [Exec.bind_eq_ok] at hrun
  rcases hrun with ⟨found, hfound, hrun⟩
  cases found with
  | none =>
      simp only [Exec.pure_eq, Except.ok.injEq, Prod.mk.injEq] at hrun
      rcases hrun with ⟨-, rfl⟩
      exact ⟨records, h, rfl⟩
  | some r =>
      have hr := findRecordPass_mem h.recordsOk hfound
      simp only [Exec.pure_eq, Except.ok.injEq, Prod.mk.injEq] at hrun
      rcases hrun with ⟨-, rfl⟩
      have hnext : (pool.big r).next = 0 ∨ (pool.big r).next ∈ r :: records :=
        (h.recordsOk.next r hr).imp_right (List.mem_cons_of_mem _)
      have hstored : RecordsOk (pool.setBig r ⟨(pool.big r).next, 0⟩) blocks (r :: records) :=
        h.recordsOk.store hnext fun hne => absurd rfl hne
      by_cases hfree : (pool.big r).alloc = 0
      · simp only [smpFree, hfree, ne_eq, not_true_eq_false, if_false]
        exact ⟨r :: records, ⟨⟨h.blocksOk.chain, h.blocksOk.current, h.blocksOk.isLive,
          h.blocksOk.aligned⟩, hstored, h.noRecord⟩, rfl⟩
      · simp only [smpFree, ne_eq, hfree, not_false_eq_true, if_true]
        rcases h.recordsOk.isLive r hr hfree with ⟨-, hblock⟩
        refine ⟨r :: records, ⟨⟨h.blocksOk.chain, h.blocksOk.current, ?_, h.blocksOk.aligned⟩, ?_,
          h.noRecord⟩, rfl⟩
        · intro b hb
          exact liveAt_free.mpr ⟨fun heq => hblock (heq ▸ hb), h.blocksOk.isLive b hb⟩
        · refine ⟨hstored.first, hstored.next, ?_, hstored.injective⟩
          intro s hs hne
          rcases hstored.isLive s hs hne with ⟨hlive, hnot⟩
          refine ⟨liveAt_free.mpr ⟨?_, hlive⟩, hnot⟩
          intro heq
          by_cases hsr : s = r
          · rw [hsr] at hne
            simp [Pool.setBig] at hne
          · simp only [Pool.setBig, Function.update_of_ne hsr] at heq
            have hsame := h.recordsOk.injective s (List.mem_of_ne_of_mem hsr hs) r hr
              (heq ▸ hfree) heq
            exact hsr hsame

/-! ## Runs -/

/-- The largest small request of a pool of {lit}`size` bytes. -/
def maxOf (env : Env) (size : Nat) : Nat :=
  min ((size + 2 ^ 64 - sizeofPool) % 2 ^ 64) env.pageSize

theorem newPool_max {data : Nat → PoolData} {big : Nat → BigPool} {p : Nat} :
    (newPool env data big size p).max = maxOf env size := by
  unfold newPool maxOf
  simp only
  split_ifs <;> omega

/-- A record is a small request if the creation size has room for the header and for a record
behind it. -/
theorem sizeofBigPool_le_maxOf_iff (hpage : sizeofBigPool ≤ env.pageSize) (hsize : size < 2 ^ 64)
    (hheader : sizeofPool ≤ size) :
    sizeofBigPool ≤ maxOf env size ↔ sizeofPool + sizeofBigPool ≤ size := by
  unfold maxOf sizeofBigPool sizeofPool at *
  omega

/-- A new pool. -/
theorem smpMpoolCreate_sane (hg : Generous poolAlignment env.place) {data : Nat → PoolData}
    {big : Nat → BigPool} (hcreate : smpMpoolCreate env data big size = .ok (some pool)) :
    Sane pool [pool.addr] [] ∧ pool.max = maxOf env size := by
  rcases smpMpoolCreate_eq_some.mp hcreate with ⟨a, ha, -, rfl⟩
  refine ⟨?_, newPool_max⟩
  constructor
  case blocksOk =>
    constructor
    case chain => exact ⟨rfl, hg.nonzero ha, by simp [newPool]⟩
    case current => exact List.mem_cons_self
    case isLive => simp [LiveAt, newPool]
    case aligned =>
      intro b hb
      rw [List.mem_singleton.mp hb]
      exact hg.aligned ha
  case recordsOk => exact ⟨Or.inl rfl, by simp, by simp, by simp⟩
  case noRecord => exact fun _ => rfl

/-- A request returns if a record is a small request. -/
theorem Sane.smpMpalloc_returns (hg : Generous poolAlignment env.place)
    (h : Sane pool blocks records) (hroom : sizeofBigPool ≤ pool.max) (n : Nat)
    (hfuel : blocks.length + 5 ≤ fuel) :
    ∃ r, Mpool.smpMpalloc env fuel pool n = .ok r := by
  by_cases hn : n ≤ pool.max
  · exact h.blocksOk.smpMpalloc_returns hg hn (by omega)
  · obtain ⟨fuel, rfl⟩ : ∃ k, fuel = k + 1 := ⟨fuel - 1, by omega⟩
    rcases smpCalloc_generous hg pool n with ⟨a, hne, hnot, hgrant⟩
    rw [Mpool.smpMpalloc, if_neg hn, smpMpallocBigpool, hgrant]
    simp only [if_neg hne]
    rcases @freeRecordPass_returns (fuel + 1) (smpCalloc env pool n).2 (by omega) with
      ⟨found, hfound⟩
    rw [hgrant] at hfound
    rw [hfound]
    cases found with
    | some r => exact ⟨_, rfl⟩
    | none =>
        have hblocks : BlocksOk (pool.zeroed n a) blocks := h.blocksOk.granted n a _
        have hcall : ∃ r, Mpool.smpMpalloc env fuel (pool.zeroed n a) sizeofBigPool = .ok r :=
          hblocks.smpMpalloc_returns hg hroom (by omega)
        rcases hcall with ⟨⟨r, u⟩, hrun⟩
        simp only [Exec.ok_bind, hrun, Exec.pure_eq]
        split_ifs
        · exact ⟨_, rfl⟩
        · exact ⟨_, rfl⟩

/-- The header of a pool has a size of its own. -/
theorem Reachable.header {c : Client} (h : Reachable env size c) : sizeofPool ≤ size := by
  induction h with
  | create hcreate =>
      rcases smpMpoolCreate_eq_some.mp hcreate with ⟨p, -, hheader, -⟩
      exact hheader
  | request _ _ ih => exact ih
  | free _ _ ih => exact ih

end Mpool
end Smpcil
