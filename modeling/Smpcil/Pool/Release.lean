import Smpcil.Pool.Reads
import Smpcil.Pool.Runs

/-!
# Release of a pool

What `smp_mpdestory` frees, at the end of any run of requests and frees.

Main results:

- Theorem {lit}`smpMpdestory_spec`: the destruction of a pool returns, accesses live memory
  only, and frees the blocks and the big blocks of its layout.
- Theorem {lit}`Reachable.freesLive`: over a run nothing is freed twice.
- Theorem {lit}`released_once`: over a whole run everything is freed once.
-/

namespace Smpcil
namespace Mpool

open Allocator Chains
open Loops (Pass loop loop_spec loop_partial)

variable {env : Env} {pool pool' : Pool} {L : Layout} {size fuel : Nat}

/-! ## Live memory -/

theorem Pool.touch_ok {b : Block} (h : ∃ c ∈ live pool.history, Within b c) :
    pool.touch b = .ok () :=
  if_pos h

namespace Inv

/-- A block of the pool and a big block start at different addresses. -/
theorem block_ne_big (h : Inv env pool L) {b : Nat} {c : Block} (hb : b ∈ L.blocks)
    (hc : c ∈ L.bigs) : b ≠ c.addr := by
  have happ := h.bigApart hb hc
  have hheader := h.header
  have hpos := h.bigPos c (List.mem_append_left _ hc)
  unfold Apart sizeofPool at *
  simp only at happ
  omega

/-- A block of the pool stays live when others are freed. -/
theorem block_live_frees (h : Inv env pool L) {b : Nat} (hb : b ∈ L.blocks) {l : List Nat}
    (hl : b ∉ l) : ⟨b, L.psize⟩ ∈ live (l.map Event.free ++ pool.history) := by
  rw [live_frees, List.mem_filter]
  exact ⟨h.blockLive hb, by simpa using hl⟩

/-- The bytes at the start of a block are accessible as long as the block is live. -/
theorem touch_block (h : Inv env pool L) {b n : Nat} (hb : b ∈ L.blocks) (hn : n ≤ sizeofPool)
    {l : List Nat} (hl : b ∉ l) (hhistory : pool'.history = l.map Event.free ++ pool.history) :
    pool'.touch ⟨b, n⟩ = .ok () := by
  have hlive := h.block_live_frees hb hl
  rw [← hhistory] at hlive
  refine Pool.touch_ok ⟨_, hlive, Nat.le_refl _, ?_⟩
  have hheader := h.header
  simp only
  omega

/-- A record is accessible as long as no block of the pool is freed. -/
theorem touch_record (h : Inv env pool L) {r : Nat} (hr : r ∈ L.records) {l : List Nat}
    (hl : ∀ b ∈ L.blocks, b ∉ l) (hhistory : pool'.history = l.map Event.free ++ pool.history) :
    pool'.touch ⟨r, sizeofBigPool⟩ = .ok () := by
  rcases h.carvedWithin (record_carved hr) with ⟨b, hb, hw⟩
  exact Pool.touch_ok ⟨_, hhistory ▸ h.block_live_frees hb (hl b hb), hw⟩

/-- The big blocks start at different addresses. -/
theorem bigs_nodup (h : Inv env pool L) : (L.bigs.map Block.addr).Nodup := by
  have happ := h.ownedApart
  rw [Layout.owned, List.append_assoc, List.pairwise_append, List.pairwise_append] at happ
  refine List.pairwise_map.mpr (happ.2.1.1.imp_of_mem fun hb hc hapart => ?_)
  have hposb := h.bigPos _ (List.mem_append_left _ hb)
  have hposc := h.bigPos _ (List.mem_append_left _ hc)
  unfold Apart at hapart
  omega

end Inv

/-! ## The big blocks -/

/-- The big blocks that the records {lit}`rs` hold. -/
def heldBy (pool : Pool) (rs : List Nat) : List Nat :=
  (rs.filter fun r => (pool.big r).alloc ≠ 0).map fun r => (pool.big r).alloc

theorem heldBy_append (pool : Pool) (rs rs' : List Nat) :
    heldBy pool (rs ++ rs') = heldBy pool rs ++ heldBy pool rs' := by
  simp [heldBy]

namespace Inv

/-- The records hold the big blocks of the layout, each once. -/
theorem heldBy_perm (h : Inv env pool L) (hs : SoundEnv env) :
    (heldBy pool L.records).Perm (L.bigs.map Block.addr) := by
  have hnodup : (heldBy pool L.records).Nodup := by
    refine List.Nodup.map_on ?_ (h.records.nodup.filter _)
    intro r hr r' hr' heq
    rcases List.mem_filter.mp hr with ⟨hr, hne⟩
    exact h.allocInj r hr r' (List.mem_filter.mp hr').1 (by simpa using hne) heq
  refine (List.perm_ext_iff_of_nodup hnodup h.bigs_nodup).mpr fun a => ?_
  simp only [heldBy, List.mem_map, List.mem_filter]
  constructor
  · rintro ⟨r, ⟨hr, hne⟩, rfl⟩
    exact h.allocBig r hr (by simpa using hne)
  · rintro ⟨c, hc, rfl⟩
    rcases h.recorded c hc with ⟨r, hr, hra⟩
    refine ⟨r, ⟨hr, ?_⟩, hra⟩
    have hpos := (h.trace.block hs (h.isLive c (by simp [Layout.owned, hc]))).1
    rw [hra]
    simpa using Nat.pos_iff_ne_zero.mp hpos

/-- No block of the pool starts where a big block of a record does. -/
theorem block_notMem_heldBy (h : Inv env pool L) {b : Nat} (hb : b ∈ L.blocks)
    {rs : List Nat} (hrs : ∀ r ∈ rs, r ∈ L.records) : b ∉ heldBy pool rs := by
  intro hmem
  rcases List.mem_map.mp hmem with ⟨r, hr, heq⟩
  rcases List.mem_filter.mp hr with ⟨hr, hne⟩
  rcases h.allocBig r (hrs r hr) (by simpa using hne) with ⟨c, hc, hca⟩
  exact h.block_ne_big hb hc (by rw [hca, heq])

end Inv

/-- The records {lit}`rs` of {lit}`pool` are empty in {lit}`pool'`, and their big blocks are
freed. -/
structure Emptied (pool pool' : Pool) (rs : List Nat) : Prop where
  addr : pool'.addr = pool.addr
  data : pool'.data = pool.data
  next : ∀ r, (pool'.big r).next = (pool.big r).next
  alloc : ∀ r ∉ rs, (pool'.big r).alloc = (pool.big r).alloc
  history : pool'.history = (heldBy pool rs).reverse.map Event.free ++ pool.history

/-- One pass empties one record. -/
theorem bigpoolDestoryPass_spec (h : Inv env pool L) {l₁ l₂ : List Nat}
    {r : Nat} (hsplit : L.records = l₁ ++ r :: l₂) (hemptied : Emptied pool pool' l₁) :
    ∃ pool'', bigpoolDestoryPass (r, pool') = .ok (.again (l₂.headD 0, pool'')) ∧
      Emptied pool pool'' (l₁ ++ [r]) := by
  have hr : r ∈ L.records := by simp [hsplit]
  have hne : r ≠ 0 := h.records.ne_zero hr
  have hnodup := hsplit ▸ h.records.nodup
  have hnot : r ∉ l₁ := fun hmem =>
    (List.nodup_append.mp hnodup).2.2 r hmem r List.mem_cons_self rfl
  have hnext : (pool'.big r).next = l₂.headD 0 :=
    (hemptied.next r).trans (hsplit ▸ h.records).next_eq
  have halloc := hemptied.alloc r hnot
  let pool₁ := if (pool'.big r).alloc ≠ 0 then smpFree pool' (pool'.big r).alloc else pool'
  have hsame : pool₁.addr = pool'.addr ∧ pool₁.data = pool'.data ∧ pool₁.big = pool'.big := by
    simp only [pool₁, smpFree]
    split_ifs <;> exact ⟨rfl, rfl, rfl⟩
  have hhistory : pool₁.history =
      (heldBy pool (l₁ ++ [r])).reverse.map Event.free ++ pool.history := by
    rw [heldBy_append, List.reverse_append, List.map_append, List.append_assoc,
      ← hemptied.history]
    by_cases hnull : (pool.big r).alloc = 0
    · simp [pool₁, heldBy, halloc, hnull]
    · simp [pool₁, heldBy, halloc, hnull, smpFree]
  have htouch : pool'.touch ⟨r, sizeofBigPool⟩ = .ok () := by
    refine h.touch_record hr (fun b hb hmem => ?_) hemptied.history
    exact h.block_notMem_heldBy hb (by simp +contextual [hsplit]) (List.mem_reverse.mp hmem)
  have htouch₁ : pool₁.touch ⟨r, sizeofBigPool⟩ = .ok () := by
    refine h.touch_record hr (fun b hb hmem => ?_) hhistory
    refine h.block_notMem_heldBy hb ?_ (List.mem_reverse.mp hmem)
    intro r' hr'
    rw [hsplit]
    simp only [List.mem_append, List.mem_cons] at hr' ⊢
    tauto
  refine ⟨pool₁.setBig r { pool₁.big r with alloc := 0 }, ?_, ?_⟩
  · have hlast : ((pool₁.setBig r { pool₁.big r with alloc := 0 }).big r).next = l₂.headD 0 := by
      simp [Pool.setBig, hsame, hnext]
    simp only [bigpoolDestoryPass, if_pos hne, htouch, Exec.ok_bind]
    change (pool₁.touch ⟨r, sizeofBigPool⟩ >>= _) = _
    rw [htouch₁, Exec.ok_bind, hlast]
    rfl
  · constructor
    case addr => exact hsame.1.trans hemptied.addr
    case data => exact hsame.2.1.trans hemptied.data
    case next =>
      intro r'
      by_cases heq : r' = r
      · subst heq
        simp [Pool.setBig, hsame, hemptied.next]
      · simp [Pool.setBig, hsame, hemptied.next, heq]
    case alloc =>
      intro r' hr'
      simp only [List.mem_append, List.mem_singleton, not_or] at hr'
      simp [Pool.setBig, hsame, hr'.2, hemptied.alloc r' hr'.1]
    case history => exact hhistory

/-- The destruction of the list of records frees all big blocks. -/
theorem smpBigpoolDestory_spec (h : Inv env pool L)
    (hfuel : L.records.length < fuel) : ∃ pool', smpBigpoolDestory fuel pool pool.bigPool =
      .ok (.ok, pool') ∧ Emptied pool pool' L.records := by
  have hstart : Emptied pool pool [] := ⟨rfl, rfl, fun _ => rfl, fun _ _ => rfl, rfl⟩
  have hloop : ∃ pool', loop .diverged bigpoolDestoryPass fuel (pool.bigPool, pool) = .ok pool' ∧
      Emptied pool pool' L.records := by
    refine loop_spec (fun n s => ∃ l₁ l₂, L.records = l₁ ++ l₂ ∧ s.1 = l₂.headD 0 ∧
      l₂.length = n ∧ Emptied pool s.2 l₁) (fun pool' => Emptied pool pool' L.records) ?_
      ⟨[], L.records, rfl, h.records.head_eq, rfl, hstart⟩ hfuel
    rintro n ⟨r, pool'⟩ ⟨l₁, l₂, hsplit, hr, rfl, hemptied⟩
    simp only at hr hemptied
    subst hr
    cases l₂ with
    | nil =>
        refine Or.inl ⟨pool', rfl, ?_⟩
        rw [hsplit, List.append_nil]
        exact hemptied
    | cons r l₂ =>
        rcases bigpoolDestoryPass_spec h hsplit hemptied with ⟨pool'', hpass, hnext⟩
        exact Or.inr ⟨_, l₂.length, hpass, ⟨l₁ ++ [r], l₂, by simp [hsplit], rfl, rfl, hnext⟩,
          Nat.lt_succ_self _⟩
  rcases hloop with ⟨pool', hrun, hemptied⟩
  by_cases hnull : pool.bigPool = 0
  · have hnil : L.records = [] := (hnull ▸ h.records).eq_nil
    refine ⟨pool, by simp [smpBigpoolDestory, hnull], ?_⟩
    rw [hnil]
    exact hstart
  · exact ⟨pool', by simp [smpBigpoolDestory, hnull, hrun], hemptied⟩

/-! ## The blocks -/

/-- The blocks {lit}`s` behind the first one are freed in {lit}`pool'`, and {lit}`t` are still
chained to it; {lit}`gone` is what was freed before them. -/
structure Unlinked (pool pool' : Pool) (gone s t : List Nat) : Prop where
  addr : pool'.addr = pool.addr
  first : (pool'.data pool.addr).next = t.headD 0
  next : ∀ b ∈ t, (pool'.data b).next = (pool.data b).next
  history : pool'.history = (s.reverse ++ gone).map Event.free ++ pool.history

/-- One pass frees one block. -/
theorem mpdestoryPass_spec (h : Inv env pool L) {gone s t : List Nat} {b : Nat}
    (hsplit : L.blocks = pool.addr :: (s ++ b :: t)) (hgone : ∀ b ∈ L.blocks, b ∉ gone)
    (hunlinked : Unlinked pool pool' gone s (b :: t)) :
    ∃ pool'', mpdestoryPass (b, pool') = .ok (.again (t.headD 0, pool'')) ∧
      Unlinked pool pool'' gone (s ++ [b]) t := by
  have hb : b ∈ L.blocks := by simp [hsplit]
  have hne : b ≠ 0 := h.chain.ne_zero hb
  have hnodup := hsplit ▸ h.chain.nodup
  rcases List.nodup_cons.mp hnodup with ⟨haddr, hrest⟩
  rcases List.nodup_append.mp hrest with ⟨-, ht, hst⟩
  have hba : b ≠ pool.addr := fun heq => haddr (by simp [heq])
  have hbs : b ∉ s := fun hmem => hst b hmem b List.mem_cons_self rfl
  have hbt := (List.nodup_cons.mp ht).1
  have hnext : (pool.data b).next = t.headD 0 := by
    have hchain := h.chain
    rw [hsplit, ← List.cons_append] at hchain
    exact hchain.next_eq
  have htouch : ∀ a ∈ L.blocks, a ∉ s → ∀ n ≤ sizeofPool, pool'.touch ⟨a, n⟩ = .ok () := by
    intro a ha has n hn
    refine h.touch_block ha hn ?_ hunlinked.history
    simp [has, hgone a ha]
  have has : pool.addr ∉ s := fun hmem => haddr (by simp [hmem])
  let pool₁ := smpFree ((pool'.setNext pool'.addr (pool'.data b).next).setNext b 0) b
  have hhistory : pool₁.history =
      ((s ++ [b]).reverse ++ gone).map Event.free ++ pool.history := by
    have hfree : pool₁.history = .free b :: pool'.history := by
      simp [pool₁, smpFree, hne, Pool.setNext, Pool.setData]
    rw [hfree, hunlinked.history]
    simp
  have hfirst : (pool₁.data pool.addr).next = t.headD 0 := by
    have hsame : (pool'.data b).next = t.headD 0 :=
      (hunlinked.next b List.mem_cons_self).trans hnext
    simp [pool₁, smpFree, hne, Pool.setNext, Pool.setData, hunlinked.addr, hba.symm, hsame]
  have haddr₁ : pool₁.addr = pool.addr := by
    simp [pool₁, smpFree, hne, Pool.setNext, Pool.setData, hunlinked.addr]
  have htouch₁ : pool₁.touch ⟨pool₁.addr, sizeofPool⟩ = .ok () := by
    rw [haddr₁]
    refine h.touch_block h.first_mem (Nat.le_refl _) ?_ hhistory
    simp [has, hba.symm, hgone _ h.first_mem]
  refine ⟨pool₁, ?_, haddr₁, hfirst, ?_, hhistory⟩
  · simp only [mpdestoryPass, if_pos hne, htouch b hb hbs sizeofPoolData (by decide),
      hunlinked.addr, htouch _ h.first_mem has sizeofPool (Nat.le_refl _), Exec.ok_bind]
    rw [← hunlinked.addr]
    change (pool₁.touch ⟨pool₁.addr, sizeofPool⟩ >>= _) = _
    rw [htouch₁, Exec.ok_bind]
    change Except.ok (Pass.again ((pool₁.data pool₁.addr).next, pool₁)) = _
    rw [haddr₁, hfirst]
  · intro b' hb'
    have hb'b : b' ≠ b := fun heq => hbt (heq ▸ hb')
    have hb'a : b' ≠ pool.addr := fun heq => haddr (by simp [← heq, hb'])
    have hold := hunlinked.next b' (List.mem_cons_of_mem _ hb')
    simp [pool₁, smpFree, hne, Pool.setNext, Pool.setData, hunlinked.addr, hb'b, hb'a, hold]

/-- The destruction of a pool returns, accesses live memory only, and frees the blocks of the
pool and the big blocks of its records. -/
theorem smpMpdestory_spec (hs : SoundEnv env) (h : Inv env pool L)
    (hrecords : L.records.length < fuel) (hblocks : L.blocks.length < fuel) :
    ∃ (pool' : Pool) (l : List Nat), smpMpdestory fuel pool = .ok (.ok, pool') ∧
      pool'.history = l.map Event.free ++ pool.history ∧
      l.Perm (L.blocks ++ L.bigs.map Block.addr) := by
  rcases smpBigpoolDestory_spec h hrecords with ⟨pool₁, hbig, hemptied⟩
  rcases h.chain.exists_cons (h.chain.ne_zero h.first_mem) with ⟨bs, hbs, hrest⟩
  have hgone : ∀ b ∈ L.blocks, b ∉ (heldBy pool L.records).reverse := by
    intro b hb hmem
    exact h.block_notMem_heldBy hb (fun r hr => hr) (List.mem_reverse.mp hmem)
  have hstart : Unlinked pool pool₁ (heldBy pool L.records).reverse [] bs := by
    refine ⟨hemptied.addr, ?_, fun b _ => by rw [hemptied.data], hemptied.history⟩
    rw [hemptied.data]
    exact hrest.head_eq
  have hloop : ∃ pool₂, loop .diverged mpdestoryPass fuel
      ((pool₁.data pool₁.addr).next, pool₁) = .ok pool₂ ∧
      Unlinked pool pool₂ (heldBy pool L.records).reverse bs [] := by
    refine loop_spec (fun n st => ∃ s t, bs = s ++ t ∧ st.1 = t.headD 0 ∧ t.length = n ∧
      Unlinked pool st.2 (heldBy pool L.records).reverse s t)
      (fun pool₂ => Unlinked pool pool₂ (heldBy pool L.records).reverse bs []) ?_
      ⟨[], bs, rfl, ?_, rfl, hstart⟩ (by simp [hbs] at hblocks; omega)
    · rintro n ⟨b, pool'⟩ ⟨s, t, hsplit, hb, rfl, hunlinked⟩
      simp only at hb hunlinked
      subst hb
      cases t with
      | nil =>
          refine Or.inl ⟨pool', rfl, ?_⟩
          rw [hsplit, List.append_nil]
          exact hunlinked
      | cons b t =>
          rcases mpdestoryPass_spec h (hbs.trans (by rw [hsplit])) hgone hunlinked with
            ⟨pool'', hpass, hnext⟩
          exact Or.inr ⟨_, t.length, hpass, ⟨s ++ [b], t, by simp [hsplit], rfl, rfl, hnext⟩,
            Nat.lt_succ_self _⟩
    · rw [hemptied.addr]
      exact hstart.first
  rcases hloop with ⟨pool₂, hrun, hunlinked⟩
  have hne : pool.addr ≠ 0 := h.chain.ne_zero h.first_mem
  have htouch : pool.touch ⟨pool.addr, sizeofPool⟩ = .ok () :=
    h.touch_block h.first_mem (Nat.le_refl _) (l := []) (by simp) rfl
  have htouch₁ : pool₁.touch ⟨pool₁.addr, sizeofPool⟩ = .ok () := by
    rw [hemptied.addr]
    exact h.touch_block h.first_mem (Nat.le_refl _) (hgone _ h.first_mem) hemptied.history
  refine ⟨smpFree pool₂ pool₂.addr, pool.addr :: (bs.reverse ++ (heldBy pool L.records).reverse),
    ?_, ?_, ?_⟩
  · simp only [smpMpdestory, htouch, hbig, htouch₁, hrun, Exec.ok_bind]
    rfl
  · rw [hunlinked.addr]
    simp [smpFree, hne, hunlinked.history]
  · rw [hbs, List.cons_append]
    refine List.Perm.cons _ ((List.reverse_perm bs).append ?_)
    exact (List.reverse_perm _).trans (h.heldBy_perm hs)

/-- A destruction that returns does the same under any larger fuel. -/
theorem smpMpdestory_mono {fuel' : Nat} {r : Status × Pool} (hle : fuel ≤ fuel')
    (hrun : smpMpdestory fuel pool = .ok r) : smpMpdestory fuel' pool = .ok r := by
  unfold smpMpdestory at hrun ⊢
  rcases Exec.bind_eq_ok.mp hrun with ⟨u, htouch, hrun⟩
  rcases Exec.bind_eq_ok.mp hrun with ⟨⟨st, pool₁⟩, hbig, hrun⟩
  rcases Exec.bind_eq_ok.mp hrun with ⟨u₁, htouch₁, hrun⟩
  rcases Exec.bind_eq_ok.mp hrun with ⟨pool₂, hloop, hdone⟩
  have hbig' : smpBigpoolDestory fuel' pool pool.bigPool = .ok (st, pool₁) := by
    unfold smpBigpoolDestory at hbig ⊢
    split_ifs at hbig ⊢ with hnull
    · exact hbig
    · rcases Exec.bind_eq_ok.mp hbig with ⟨pool₃, hloop₃, hdone₃⟩
      rw [Loops.loop_mono hle hloop₃]
      exact hdone₃
  rw [htouch, Exec.ok_bind, hbig', Exec.ok_bind]
  simp only
  rw [htouch₁, Exec.ok_bind, Loops.loop_mono hle hloop]
  exact hdone

/-! ## Frees during a run -/

/-- Linking a new block requests and frees nothing. -/
theorem mpallocBlockLink_history {newP psize : Nat} {r : Nat × Pool}
    (hrun : mpallocBlockLink fuel pool newP psize size = .ok r) :
    r.2.history = pool.history := by
  rcases Exec.bind_eq_ok.mp hrun with ⟨⟨p, c, u⟩, hloop, hdone⟩
  have hsame : u.history = pool.history := by
    refine loop_partial (fun s => s.2.2.history = pool.history)
      (fun s => s.2.2.history = pool.history) ?_ ?_ rfl hloop
    · rintro ⟨p, c, u⟩ r hu hpass
      by_cases hnext : (u.data p).next = 0
      · simp [mpallocBlockPass, hnext] at hpass
        subst hpass
        exact hu
      · simp [mpallocBlockPass, hnext] at hpass
    · rintro ⟨p, c, u⟩ s' hu hpass
      by_cases hnext : (u.data p).next = 0
      · simp [mpallocBlockPass, hnext] at hpass
      · simp only [mpallocBlockPass, hnext, ne_eq, not_false_eq_true, if_true, Except.ok.injEq,
          Pass.again.injEq] at hpass
        subst hpass
        exact hu
  simp only [Exec.pure_eq, Except.ok.injEq] at hdone
  subst hdone
  exact hsame

/-- A request of the underlying allocator frees nothing. -/
theorem smpAlloc_freesLive (h : FreesLive pool.history) (env : Env) (n : Nat) :
    FreesLive (smpAlloc env pool n).2.history := by
  simp only [smpAlloc]
  split_ifs
  · exact Env.freesLive_setError.mpr h
  · exact h

/-- A request frees nothing. -/
theorem smpMpalloc_freesLive {r : Nat × Pool} {n : Nat} (h : FreesLive pool.history)
    (hrun : smpMpalloc env fuel pool n = .ok r) : FreesLive r.2.history := by
  induction fuel generalizing pool n r with
  | zero => simp [smpMpalloc] at hrun
  | succ fuel ih =>
      have hmemalign : ∀ n, FreesLive (smpMemalign env pool n).2.history :=
        smpAlloc_freesLive h env
      unfold smpMpalloc at hrun
      by_cases hn : n ≤ pool.max
      · rw [if_pos hn] at hrun
        rcases Exec.bind_eq_ok.mp hrun with ⟨found, -, hrest⟩
        cases found with
        | some room =>
            simp only [Exec.pure_eq, Except.ok.injEq] at hrest
            subst hrest
            exact h
        | none =>
            simp only [smpMpallocBlock] at hrest
            split_ifs at hrest with hnull
            · simp only [Except.ok.injEq] at hrest
              subst hrest
              exact hmemalign _
            · rw [mpallocBlockLink_history hrest]
              exact hmemalign _
      · rw [if_neg hn] at hrun
        have hcalloc : FreesLive (smpCalloc env pool n).2.history := by
          simp only [smpCalloc]
          split_ifs
          · exact hmemalign n
          · exact Env.freesLive_setError.mpr (hmemalign n)
        simp only [smpMpallocBigpool] at hrun
        by_cases hp : (smpCalloc env pool n).1 = 0
        · rw [if_pos hp] at hrun
          simp only [Exec.pure_eq, Except.ok.injEq] at hrun
          subst hrun
          exact hcalloc
        · rw [if_neg hp] at hrun
          rcases Exec.bind_eq_ok.mp hrun with ⟨found, -, hrest⟩
          cases found with
          | some bigP =>
              simp only [Exec.pure_eq, Except.ok.injEq] at hrest
              subst hrest
              exact hcalloc
          | none =>
              rcases Exec.bind_eq_ok.mp hrest with ⟨⟨bigP, pool₂⟩, hrec, hdone⟩
              have hrecord := ih hcalloc hrec
              by_cases hbigP : bigP = 0
              · simp only [hbigP, if_true, smpFree, ne_eq, not_true_eq_false, if_false,
                  Exec.pure_eq, Except.ok.injEq] at hdone
                subst hdone
                exact hrecord
              · simp only [hbigP, if_false, Exec.pure_eq, Except.ok.injEq] at hdone
                subst hdone
                exact hrecord

/-- A free is of a live big block, or of null. -/
theorem smpMpfreeBigpool_freesLive (h : Inv env pool L) (hfrees : FreesLive pool.history) {p : Nat}
    {r : Status × Pool} (hrun : smpMpfreeBigpool fuel pool p = .ok r) :
    FreesLive r.2.history := by
  rcases Exec.bind_eq_ok.mp hrun with ⟨found, hloop, hrest⟩
  rcases findRecordPass_spec h hloop with ⟨rfl, -⟩ | ⟨bigP, hmem, rfl, hfound⟩
  · simp only [Exec.pure_eq, Except.ok.injEq] at hrest
    subst hrest
    exact hfrees
  · simp only [Exec.pure_eq, Except.ok.injEq] at hrest
    subst hrest
    by_cases hp : (pool.big bigP).alloc = 0
    · simpa [Pool.setBig, smpFree, hp] using hfrees
    · rcases h.allocBig bigP hmem hp with ⟨c, hc, hca⟩
      have hlive : c ∈ live pool.history := h.isLive c (by simp [Layout.owned, hc])
      have hhistory : ((smpFree pool (pool.big bigP).alloc).setBig bigP
          { (smpFree pool (pool.big bigP).alloc).big bigP with alloc := 0 }).history =
          .free (pool.big bigP).alloc :: pool.history := by simp [Pool.setBig, smpFree, hp]
      rw [hhistory]
      exact ⟨⟨c, hlive, hca⟩, hfrees⟩

/-- Over every run of requests and frees nothing is freed twice. -/
theorem Reachable.freesLive (hs : SoundEnv env) (haligned : poolAlignment ∣ size)
    {c : Client} (h : Reachable env size c) : FreesLive c.pool.history := by
  induction h with
  | create hcreate =>
      rcases smpMpoolCreate_eq_some.mp hcreate with ⟨p, -, -, rfl⟩
      trivial
  | @request c fuel n m pool _ hrun ih =>
      rw [Client.served_pool]
      exact smpMpalloc_freesLive ih hrun
  | free hreach hrun ih =>
      rcases hreach.inv hs haligned with ⟨L, hinv, -⟩
      exact smpMpfreeBigpool_freesLive hinv ih hrun

/-! ## Whole runs -/

/-- Over every run of requests and frees, with any pointers and under any failures of the
underlying allocator, on a pool whose size is a multiple of the alignment: no call reads memory
that is not live, and the destruction of the pool in the end returns, accesses live memory only,
frees the blocks linked into the pool and the big blocks returned and not freed yet, each once,
and nothing is freed twice. -/
theorem released_once (hs : SoundEnv env) (haligned : poolAlignment ∣ size) {c : Client}
    (h : Reachable env size c) :
    ReadsLive env c.pool ∧ ∃ (blocks : List Nat) (pool' : Pool) (frees : List Nat),
      Chain (fun b => (c.pool.data b).next) c.pool.addr blocks ∧
      (∃ enough, ∀ fuel, enough ≤ fuel → smpMpdestory fuel c.pool = .ok (.ok, pool')) ∧
      pool'.history = frees.map Event.free ++ c.pool.history ∧
      frees.Perm (blocks ++ c.big.map Block.addr) ∧ frees.Nodup ∧ FreesLive pool'.history := by
  rcases h.inv hs haligned with ⟨L, hinv, -, -, hbig⟩
  refine ⟨Inv.readsLive hs hinv, ?_⟩
  have hrecords : L.records.length < L.records.length + L.blocks.length + 1 := by omega
  have hblocks : L.blocks.length < L.records.length + L.blocks.length + 1 := by omega
  rcases smpMpdestory_spec hs hinv hrecords hblocks with ⟨pool', frees, hrun, hhistory, hperm⟩
  have hnodup : frees.Nodup := by
    rw [hperm.nodup_iff, List.nodup_append']
    refine ⟨hinv.chain.nodup, hinv.bigs_nodup, ?_⟩
    intro b hb hmem
    rcases List.mem_map.mp hmem with ⟨big, hc, heq⟩
    exact hinv.block_ne_big hb hc heq.symm
  have hreturns : ∀ fuel, L.records.length + L.blocks.length + 1 ≤ fuel →
      smpMpdestory fuel c.pool = .ok (.ok, pool') :=
    fun fuel hfuel => smpMpdestory_mono hfuel hrun
  refine ⟨L.blocks, pool', frees, hinv.chain, ⟨_, hreturns⟩, hhistory, hbig ▸ hperm, hnodup, ?_⟩
  rw [hhistory]
  refine (h.freesLive hs haligned).append hnodup fun a ha => ?_
  rcases List.mem_append.mp (hperm.mem_iff.mp ha) with ha | ha
  · exact ⟨_, hinv.blockLive ha, rfl⟩
  · rcases List.mem_map.mp ha with ⟨big, hc, heq⟩
    exact ⟨big, hinv.isLive big (by simp [Layout.owned, hc]), heq⟩

/-- After a small request and a big one the one block and the big block are freed. -/
theorem released_once_sample : ∃ (c : Client) (pool' : Pool) (frees : List Nat),
    Reachable (bumpEnv 4096) 128 c ∧
    (∃ fuel, smpMpdestory fuel c.pool = .ok (.ok, pool')) ∧
    pool'.history = frees.map Event.free ++ c.pool.history ∧ frees.Perm [8, 144] := by
  have hcreate : Reachable (bumpEnv 4096) 128 _ :=
    @Reachable.create _ _ (fun _ => ⟨0, 0, 0, 0⟩) (fun _ => ⟨0, 0⟩) _ rfl
  have hsmall := @Reachable.request _ _ _ _ 10 64 _ hcreate
    (smpMpalloc_fits _ 0 (by decide) (by decide))
  have hbig := @Reachable.request _ _ _ 2 80 144 _ hsmall rfl
  rcases released_once (bumpEnv_sound 4096) (by decide) hbig with
    ⟨-, blocks, pool', frees, hchain, ⟨enough, hrun⟩, hhistory, hperm, -⟩
  have hblocks : blocks = [8] := hchain.unique ⟨rfl, by decide, rfl⟩
  rw [hblocks] at hperm
  exact ⟨_, pool', frees, hbig, ⟨enough, hrun enough (Nat.le_refl _)⟩, hhistory, hperm⟩

end Mpool
end Smpcil
