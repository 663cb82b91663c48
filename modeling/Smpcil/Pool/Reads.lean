import Smpcil.Pool.Requests
import Smpcil.Foundations.TwoRuns

/-!
# What a pool reads

Two runs of one call on pools that differ in the contents of memory: requests and frees
read the headers of the chain of blocks and the records of big requests, and nothing else.

Main results:

- Definition {lit}`Agree`: two pools with the same headers and records.
- Theorem {lit}`Inv.smpMpalloc_lift`: a request does the same on both.
- Theorem {lit}`Inv.readsLive`: requests and frees read live memory only.
-/

namespace Smpcil
namespace Mpool

open Allocator Chains
open Loops (Pass loop loop_partial)

variable {env : Env} {pool pool' : Pool} {L : Layout} {size fuel : Nat}

/-! ## Pools that agree -/

/-- Two pools that differ at most in the contents of memory away from the block headers
{lit}`bs` and the records {lit}`rs`. -/
structure Agree (bs rs : List Nat) (pool pool₂ : Pool) : Prop where
  addr : pool₂.addr = pool.addr
  max : pool₂.max = pool.max
  current : pool₂.current = pool.current
  bigPool : pool₂.bigPool = pool.bigPool
  history : pool₂.history = pool.history
  writes : pool₂.writes = pool.writes
  data : ∀ b ∈ bs, pool₂.data b = pool.data b
  big : ∀ r ∈ rs, pool₂.big r = pool.big r

namespace Agree

variable {bs rs : List Nat} {pool₂ : Pool}

theorem setData (h : Agree bs rs pool pool₂) (p : Nat) {d d₂ : PoolData} (hd : d₂ = d) :
    Agree bs rs (pool.setData p d) (pool₂.setData p d₂) := by
  subst hd
  refine { h with writes := ?_, data := fun b hb => ?_ }
  · simp [Pool.setData, h.writes]
  · by_cases heq : b = p <;> simp [Pool.setData, heq, h.data b hb]

theorem setBig (h : Agree bs rs pool pool₂) (r : Nat) {b b₂ : BigPool} (hb : b₂ = b) :
    Agree bs rs (pool.setBig r b) (pool₂.setBig r b₂) := by
  subst hb
  refine { h with writes := ?_, big := fun r' hr' => ?_ }
  · simp [Pool.setBig, h.writes]
  · by_cases heq : r' = r <;> simp [Pool.setBig, heq, h.big r' hr']

theorem setCurrent (h : Agree bs rs pool pool₂) (p : Nat) :
    Agree bs rs (pool.setCurrent p) (pool₂.setCurrent p) := by
  refine { h with current := rfl, writes := ?_ }
  simp [Pool.setCurrent, h.writes, h.addr]

theorem setBigPool (h : Agree bs rs pool pool₂) (r : Nat) :
    Agree bs rs (pool.setBigPool r) (pool₂.setBigPool r) := by
  refine { h with bigPool := rfl, writes := ?_ }
  simp [Pool.setBigPool, h.writes, h.addr]

theorem smpAlloc (h : Agree bs rs pool pool₂) (env : Env) (n : Nat) :
    (smpAlloc env pool₂ n).1 = (smpAlloc env pool n).1 ∧
      Agree bs rs (smpAlloc env pool n).2 (smpAlloc env pool₂ n).2 := by
  refine ⟨?_, { h with history := ?_ }⟩
  · simp [Mpool.smpAlloc, h.history]
  · simp [Mpool.smpAlloc, h.history]

theorem smpMemalign (h : Agree bs rs pool pool₂) (env : Env) (n : Nat) :
    (smpMemalign env pool₂ n).1 = (smpMemalign env pool n).1 ∧
      Agree bs rs (smpMemalign env pool n).2 (smpMemalign env pool₂ n).2 := h.smpAlloc env n

theorem smpCalloc (h : Agree bs rs pool pool₂) (env : Env) (n : Nat) :
    (smpCalloc env pool₂ n).1 = (smpCalloc env pool n).1 ∧
      Agree bs rs (smpCalloc env pool n).2 (smpCalloc env pool₂ n).2 := by
  rcases h.smpAlloc env n with ⟨hp, hagree⟩
  simp only [Mpool.smpCalloc, hp]
  split_ifs
  · exact ⟨rfl, { hagree with writes := by simp [hagree.writes] }⟩
  · exact ⟨rfl, { hagree with history := by simp [hagree.history] }⟩

theorem smpFree (h : Agree bs rs pool pool₂) (p : Nat) :
    Agree bs rs (smpFree pool p) (smpFree pool₂ p) := by
  unfold Mpool.smpFree
  split_ifs
  · exact { h with history := by simp [h.history] }
  · exact h

end Agree

/-! ## Requests and frees -/

namespace Inv

open TwoRuns

variable {pool₂ : Pool}

/-- The outcomes of a request or a free on two pools that agree. -/
abbrev SameOutcome {α : Type} (bs rs : List Nat) (r r₂ : α × Pool) : Prop :=
  r₂.1 = r.1 ∧ Agree bs rs r.2 r₂.2

/-- The search for room reads the headers of the chain. -/
theorem mpallocPass_agree (h : Inv env pool L) (hagree : Agree L.blocks L.records pool pool₂)
    (n : Nat) : loop .diverged (mpallocPass pool₂ n) fuel pool.current =
      loop .diverged (mpallocPass pool n) fuel pool.current := by
  apply Loops.loop_congr (fun b => b ∈ L.blocks)
  · intro b hb
    simp only [mpallocPass, hagree.data b hb]
  · intro b b' hb hpass
    by_cases hroom : sizeOfDiff (pool.data b).dataEnd
        (smpAlignPtr (pool.data b).last poolAlignment) ≥ n
    · simp [mpallocPass, hroom] at hpass
    · by_cases hnext : (pool.data b).next = 0
      · simp [mpallocPass, hroom, hnext] at hpass
      · simp [mpallocPass, hroom, hnext] at hpass
        exact hpass ▸ (h.chain.next_mem hb).resolve_left hnext
  · exact h.current

/-- The search for a free record reads the records. -/
theorem freeRecordPass_agree (h : Inv env pool L) (hagree : Agree L.blocks L.records pool pool₂) :
    loop .diverged (freeRecordPass pool₂) fuel (pool.bigPool, 0) =
      loop .diverged (freeRecordPass pool) fuel (pool.bigPool, 0) := by
  apply Loops.loop_congr (fun s => s.1 = 0 ∨ s.1 ∈ L.records)
  · rintro ⟨r, n⟩ (rfl | hr)
    · rfl
    · simp only at hr
      simp only [freeRecordPass, hagree.big r hr]
  · rintro ⟨r, n⟩ s' hr hpass
    by_cases hnull : r = 0
    · simp [freeRecordPass, hnull] at hpass
    · by_cases hfree : (pool.big r).alloc = 0
      · simp [freeRecordPass, hnull, hfree] at hpass
      · by_cases hn : n > 3
        · simp [freeRecordPass, hnull, hfree, hn] at hpass
        · simp [freeRecordPass, hnull, hfree, hn] at hpass
          subst hpass
          exact h.records.next_mem (hr.resolve_left hnull)
  · exact h.records.head_mem

/-- The search for the record of a big block reads the records. -/
theorem findRecordPass_agree (h : Inv env pool L) (hagree : Agree L.blocks L.records pool pool₂)
    (p : Nat) : loop .diverged (findRecordPass pool₂ p) fuel pool.bigPool =
      loop .diverged (findRecordPass pool p) fuel pool.bigPool := by
  apply Loops.loop_congr (fun r => r = 0 ∨ r ∈ L.records)
  · rintro r (rfl | hr)
    · rfl
    · simp only [findRecordPass, hagree.big r hr]
  · rintro r r' hr hpass
    by_cases hnull : r = 0
    · simp [findRecordPass, hnull] at hpass
    · by_cases hfound : (pool.big r).alloc = p
      · simp [findRecordPass, hnull, hfound] at hpass
      · simp [findRecordPass, hnull, hfound] at hpass
        exact hpass ▸ h.records.next_mem (hr.resolve_left hnull)
  · exact h.records.head_mem

/-- The two walks to the end of the chain, side by side. -/
structure Beside (bs rs : List Nat) (s s₂ : Nat × Nat × Pool) : Prop where
  here : s₂.1 = s.1
  current : s₂.2.1 = s.2.1
  mem : s.1 ∈ bs
  next : ∀ b ∈ bs, (s.2.2.data b).next = 0 ∨ (s.2.2.data b).next ∈ bs
  agree : Agree bs rs s.2.2 s₂.2.2

/-- The walk to the end of the chain reads the headers of the chain. -/
theorem mpallocBlockPass_lift {bs rs : List Nat} (s s₂ : Nat × Nat × Pool)
    (h : Beside bs rs s s₂) :
    Lift (PassRel (Beside bs rs) (Beside bs rs)) (mpallocBlockPass s) (mpallocBlockPass s₂) := by
  rcases s with ⟨p, c, u⟩
  rcases s₂ with ⟨p₂, c₂, u₂⟩
  rcases h with ⟨rfl, rfl, hmem, hnext, hagree⟩
  simp only at hmem hnext hagree
  have hcell := hagree.data p₂ hmem
  by_cases hend : (u.data p₂).next = 0
  · simp only [mpallocBlockPass, hcell, hend, ne_eq, not_true_eq_false, if_false]
    exact ⟨rfl, rfl, hmem, hnext, hagree⟩
  · have hagree' : Agree bs rs (u.setFailure p₂ (((u.data p₂).failure + 1) % 2 ^ 32))
        (u₂.setFailure p₂ (((u.data p₂).failure + 1) % 2 ^ 32)) :=
      hagree.setData p₂ (by rw [hcell])
    simp only [mpallocBlockPass, hcell, ne_eq, hend, not_false_eq_true, if_true]
    have hcell' := hagree'.data p₂ hmem
    rw [hcell']
    refine ⟨rfl, rfl, ?_, ?_, hagree'⟩
    · simp only [Pool.setFailure_next]
      exact (hnext p₂ hmem).resolve_left hend
    · intro b hb
      simp only [Pool.setFailure_next]
      exact hnext b hb

/-- Linking a new block reads the headers of the chain. -/
theorem mpallocBlockLink_lift {bs rs : List Nat} (hagree : Agree bs rs pool pool₂)
    {newP psize n : Nat} (hnew : newP ∉ bs) (hcurrent : pool.current ∈ bs)
    (hnext : ∀ b ∈ bs, (pool.data b).next = 0 ∨ (pool.data b).next ∈ bs) :
    Lift (SameOutcome bs rs) (mpallocBlockLink fuel pool newP psize n)
      (mpallocBlockLink fuel pool₂ newP psize n) := by
  unfold mpallocBlockLink
  simp only
  have hagree' := hagree.setData newP (d := ⟨smpAlignPtr (newP + sizeofPoolData) poolAlignment + n,
    newP + psize, 0, 0⟩) rfl
  refine Lift.bind (R := Beside bs rs) (Lift.loop mpallocBlockPass_lift ?_) ?_
  · refine ⟨hagree.current, hagree.current, hcurrent, ?_, hagree'⟩
    intro b hb
    have hne : b ≠ newP := fun heq => hnew (heq ▸ hb)
    simpa [Pool.setData, hne] using hnext b hb
  · rintro ⟨p, c, u⟩ ⟨p₂, c₂, u₂⟩ ⟨rfl, rfl, hmem, -, hwalk⟩
    simp only at hmem hwalk
    refine ⟨rfl, Agree.setCurrent (hwalk.setData p₂ ?_) _⟩
    rw [hwalk.data p₂ hmem]

/-- A request does the same on two pools that agree on the block headers and the records. -/
theorem smpMpalloc_lift (hs : SoundEnv env) (h : Inv env pool L)
    (hagree : Agree L.blocks L.records pool pool₂) (n : Nat) :
    Lift (SameOutcome L.blocks L.records) (smpMpalloc env fuel pool n)
      (smpMpalloc env fuel pool₂ n) := by
  induction fuel generalizing pool pool₂ n L with
  | zero => rfl
  | succ fuel ih =>
      unfold smpMpalloc
      rw [hagree.max, hagree.current]
      by_cases hn : n ≤ pool.max
      · rw [if_pos hn, if_pos hn, h.mpallocPass_agree hagree]
        cases hloop : loop .diverged (mpallocPass pool n) (fuel + 1) pool.current with
        | error e => rfl
        | ok found =>
            simp only [Exec.ok_bind]
            rcases mpallocPass_spec h.chain h.current hloop with rfl | ⟨b, hb, rfl, -⟩
            · -- a new block
              have hpsize : sizeOfDiff (pool.data pool.addr).dataEnd pool.addr = L.psize := by
                have hbound := (h.blockAddr hs h.first_mem).2.2
                rw [h.blockEnd _ h.first_mem, sizeOfDiff_of_le hbound (by omega)]
                omega
              rcases hagree.smpMemalign env L.psize with ⟨hanswer, hagree'⟩
              rcases h.memalign hs L.psize with ⟨hinv, hnew⟩
              simp only [smpMpallocBlock, hagree.addr, hagree.data _ h.first_mem, hpsize, hanswer]
              split_ifs with hnull
              · exact ⟨rfl, hagree'⟩
              · exact mpallocBlockLink_lift hagree' (hinv.newBlock_notMem (hnew hnull).2)
                  hinv.current fun b hb => hinv.chain.next_mem hb
            · refine ⟨rfl, hagree.setData b ?_⟩
              rw [hagree.data b hb]
      · rw [if_neg hn, if_neg hn]
        rcases hagree.smpCalloc env n with ⟨hanswer, hagree'⟩
        rcases smpCalloc_spec hs h (show 0 < n by omega) with ⟨-, -, -, -, hheld⟩
        simp only [smpMpallocBigpool, hanswer]
        by_cases hp : (smpCalloc env pool n).1 = 0
        · rw [if_pos hp, if_pos hp]
          exact ⟨rfl, hagree'⟩
        · rw [if_neg hp, if_neg hp]
          have hinv := hheld hp
          rw [hagree'.bigPool, hinv.freeRecordPass_agree hagree']
          cases hloop : loop .diverged (freeRecordPass (smpCalloc env pool n).2) (fuel + 1)
              ((smpCalloc env pool n).2.bigPool, 0) with
          | error e => rfl
          | ok found =>
              simp only [Exec.ok_bind]
              rcases freeRecordPass_spec hinv hloop with rfl | ⟨bigP, hmem, rfl, -⟩
              · refine Lift.bind (ih hinv hagree' sizeofBigPool) ?_
                rintro ⟨bigP, u⟩ ⟨bigP₂, u₂⟩ ⟨rfl, hu⟩
                simp only at hu ⊢
                split_ifs
                · exact ⟨rfl, hu.smpFree _⟩
                · rw [hu.bigPool]
                  exact ⟨rfl, (hu.setBig _ rfl).setBigPool _⟩
              · refine ⟨rfl, hagree'.setBig bigP ?_⟩
                rw [hagree'.big bigP hmem]

/-- A free does the same on two pools that agree on the block headers and the records. -/
theorem smpMpfreeBigpool_lift (h : Inv env pool L)
    (hagree : Agree L.blocks L.records pool pool₂) (p : Nat) :
    Lift (SameOutcome L.blocks L.records) (smpMpfreeBigpool fuel pool p)
      (smpMpfreeBigpool fuel pool₂ p) := by
  unfold smpMpfreeBigpool
  rw [hagree.bigPool, h.findRecordPass_agree hagree]
  cases hloop : loop .diverged (findRecordPass pool p) fuel pool.bigPool with
  | error e => rfl
  | ok found =>
      simp only [Exec.ok_bind]
      rcases findRecordPass_spec h hloop with ⟨rfl, -⟩ | ⟨bigP, hmem, rfl, -⟩
      · exact ⟨rfl, hagree⟩
      · have hcell := hagree.big bigP hmem
        have hfree := hagree.smpFree (pool.big bigP).alloc
        refine ⟨rfl, ?_⟩
        simp only [hcell]
        refine hfree.setBig bigP ?_
        rw [hfree.big bigP hmem]

end Inv

/-- Two pools that differ at most in the contents of memory that is not live. -/
structure SameLive (pool pool₂ : Pool) : Prop where
  addr : pool₂.addr = pool.addr
  max : pool₂.max = pool.max
  current : pool₂.current = pool.current
  bigPool : pool₂.bigPool = pool.bigPool
  history : pool₂.history = pool.history
  writes : pool₂.writes = pool.writes
  data : ∀ p, (∃ c ∈ live pool.history, Within ⟨p, sizeofPoolData⟩ c) → pool₂.data p = pool.data p
  big : ∀ r, (∃ c ∈ live pool.history, Within (recordAt r) c) → pool₂.big r = pool.big r

/-- What two calls return and what they request and free is the same. -/
def SameCall {α : Type} : Exec (α × Pool) → Exec (α × Pool) → Prop :=
  TwoRuns.Lift fun r r₂ => r₂.1 = r.1 ∧ r₂.2.history = r.2.history

/-- Requests and frees read live memory only: what is elsewhere changes nothing. -/
def ReadsLive (env : Env) (pool : Pool) : Prop :=
  ∀ pool₂, SameLive pool pool₂ → ∀ fuel,
    (∀ n, SameCall (smpMpalloc env fuel pool n) (smpMpalloc env fuel pool₂ n)) ∧
    ∀ p, SameCall (smpMpfreeBigpool fuel pool p) (smpMpfreeBigpool fuel pool₂ p)

/-- The block headers and the records of a pool are live. -/
theorem Inv.readsLive (hs : SoundEnv env) (h : Inv env pool L) : ReadsLive env pool := by
  intro pool₂ hsame fuel
  have hagree : Agree L.blocks L.records pool pool₂ := by
    refine { hsame with data := fun b hb => ?_, big := fun r hr => ?_ }
    · refine hsame.data b ⟨_, h.blockLive hb, Nat.le_refl _, ?_⟩
      have hheader := h.header
      unfold sizeofPool sizeofPoolData at *
      simp only
      omega
    · rcases h.carvedWithin (record_carved hr) with ⟨b, hb, hw⟩
      exact hsame.big r ⟨_, h.blockLive hb, hw⟩
  constructor
  · intro n
    exact (Inv.smpMpalloc_lift hs h hagree n).mono fun r r₂ hout => ⟨hout.1, hout.2.history⟩
  · intro p
    exact (Inv.smpMpfreeBigpool_lift h hagree p).mono fun r r₂ hout => ⟨hout.1, hout.2.history⟩

end Mpool
end Smpcil
