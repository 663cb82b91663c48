import Smpcil.Pool.Layout

/-!
# Requests on a pool

What `smp_mpalloc`, `smp_mpalloc_block`, `smp_mpalloc_bigpool` and
`smp_mpfree_bigpool` do to the layout of a pool, for every answer of the underlying
allocator.  The statements are about calls that return.

Main results:

- Theorems {lit}`Inv.extend`, {lit}`Inv.reuseRecord`, {lit}`Inv.addRecord` and
  {lit}`Inv.freeRecord`: the four other steps on a layout.
- Theorem {lit}`smpMpalloc_spec`: a request keeps the invariant, hands out one new region
  or none, and writes to no region handed out before.
- Theorem {lit}`smpMpfreeBigpool_spec`: a free takes the big block out of the layout.
-/

namespace Smpcil
namespace Mpool

open Allocator Chains
open Loops (Pass loop loop_partial)

variable {env : Env} {pool pool' : Pool} {L : Layout}

/-! ## Writes -/

/-- What was written between two states is apart from the regions handed out. -/
def WritesApart (L : Layout) (pool pool' : Pool) : Prop :=
  ∃ ws, pool'.writes = ws ++ pool.writes ∧ ∀ w ∈ ws, ∀ c ∈ L.small ++ L.bigs, Apart w c

namespace WritesApart

theorem refl (L : Layout) (pool : Pool) : WritesApart L pool pool :=
  ⟨[], rfl, by simp⟩

theorem trans {pool'' : Pool} (h₁ : WritesApart L pool pool') (h₂ : WritesApart L pool' pool'') :
    WritesApart L pool pool'' := by
  rcases h₁ with ⟨ws₁, heq₁, happ₁⟩
  rcases h₂ with ⟨ws₂, heq₂, happ₂⟩
  refine ⟨ws₂ ++ ws₁, by rw [heq₂, heq₁, List.append_assoc], ?_⟩
  intro w hw
  rcases List.mem_append.mp hw with hw | hw
  · exact happ₂ w hw
  · exact happ₁ w hw

/-- One more store. -/
theorem cons {w : Block} (h : WritesApart L pool pool')
    (hw : ∀ c ∈ L.small ++ L.bigs, Apart w c) {u : Pool}
    (heq : u.writes = w :: pool'.writes) : WritesApart L pool u := by
  rcases h with ⟨ws, hws, happ⟩
  refine ⟨w :: ws, by rw [heq, hws]; rfl, ?_⟩
  intro w' hw'
  rcases List.mem_cons.mp hw' with rfl | hw'
  · exact hw
  · exact happ w' hw'

/-- Fewer regions are easier to miss. -/
theorem mono {L' : Layout} (h : WritesApart L' pool pool')
    (hsub : ∀ c ∈ L.small ++ L.bigs, c ∈ L'.small ++ L'.bigs) : WritesApart L pool pool' := by
  rcases h with ⟨ws, hws, happ⟩
  exact ⟨ws, hws, fun w hw c hc => happ w hw c (hsub c hc)⟩

end WritesApart

/-! ## The underlying allocator -/

namespace Inv

/-- A longer history with at least the same live blocks. -/
theorem withHistory (h : Inv env pool L) {history : History}
    (htrace : Trace env.place history) (hlive : ∀ c ∈ L.owned, c ∈ live history) :
    Inv env { pool with history := history } L :=
  { h with trace := htrace, isLive := hlive }

/-- A block that the pool holds without a record. -/
theorem hold (h : Inv env pool L) {c : Block} (hlive : c ∈ live pool.history)
    (happ : ∀ c' ∈ L.owned, Apart c c') (hpos : 0 < c.size) :
    Inv env pool { L with held := c :: L.held } := by
  have hperm : ({ L with held := c :: L.held } : Layout).owned.Perm (c :: L.owned) :=
    List.perm_middle
  refine { h with isLive := ?_, ownedApart := ?_, bigPos := ?_ }
  · intro c' hc'
    rcases List.mem_cons.mp (hperm.mem_iff.mp hc') with rfl | hc'
    · exact hlive
    · exact h.isLive c' hc'
  · exact (hperm.pairwise_iff fun hab => hab.symm).mpr
      (List.pairwise_cons.mpr ⟨happ, h.ownedApart⟩)
  · intro c' hc'
    simp only [List.mem_append, List.mem_cons] at hc'
    rcases hc' with hc' | rfl | hc'
    · exact h.bigPos c' (by simp [hc'])
    · exact hpos
    · exact h.bigPos c' (by simp [hc'])

/-- A request of the underlying allocator changes nothing but the history. -/
theorem memalign_same (env : Env) (pool : Pool) (size : Nat) :
    (smpMemalign env pool size).2 =
      { pool with history := (smpMemalign env pool size).2.history } := rfl

/-- A request of a new block keeps the invariant, and the block is new. -/
theorem memalign (h : Inv env pool L) (hs : SoundEnv env) (size : Nat) :
    Inv env (smpMemalign env pool size).2 L ∧
      ((smpMemalign env pool size).1 ≠ 0 →
        ⟨(smpMemalign env pool size).1, size⟩ ∈ live (smpMemalign env pool size).2.history ∧
        ∀ c ∈ L.owned, Apart ⟨(smpMemalign env pool size).1, size⟩ c) := by
  have htrace := Trace.alloc size h.trace
  simp only [smpMemalign, smpAlloc]
  cases hp : env.place pool.history size with
  | none =>
      rw [hp] at htrace
      refine ⟨h.withHistory (Env.trace_setError htrace) ?_, fun hne => absurd rfl hne⟩
      simpa using h.isLive
  | some a =>
      rw [hp] at htrace
      refine ⟨h.withHistory htrace fun c hc => ?_, fun _ => ⟨by simp, fun c hc => ?_⟩⟩
      · exact List.mem_cons_of_mem _ (h.isLive c hc)
      · exact hs.fresh hp c (h.isLive c hc)

/-- An error text is no block of the pool. -/
theorem setError (h : Inv env pool L) :
    Inv env { pool with history := env.setError pool.history } L :=
  h.withHistory (Env.trace_setError h.trace) (by simpa using h.isLive)

/-- A new block at the end of the chain, with a first region carved from it. -/
theorem extend (h : Inv env pool L) (pool' : Pool) {newP size q : Nat} {l : List Nat}
    (hlive : ⟨newP, L.psize⟩ ∈ live pool.history)
    (happ : ∀ c ∈ L.owned, Apart ⟨newP, L.psize⟩ c) (haligned : poolAlignment ∣ newP)
    (hne : newP ≠ 0) (hsize : size + sizeofPool ≤ L.psize) (hblocks : L.blocks = l ++ [q])
    (haddr : pool'.addr = pool.addr) (hmax : pool'.max = pool.max)
    (hbigPool : pool'.bigPool = pool.bigPool) (hbig : pool'.big = pool.big)
    (hhistory : pool'.history = pool.history) (hcurrent : pool'.current ∈ L.blocks ++ [newP])
    (hdata : ∀ b ∈ L.blocks, (pool'.data b).last = (pool.data b).last ∧
      (pool'.data b).dataEnd = (pool.data b).dataEnd)
    (hnext : ∀ b ∈ l, (pool'.data b).next = (pool.data b).next)
    (hq : (pool'.data q).next = newP)
    (hnew : pool'.data newP = ⟨newP + sizeofPoolData + size, newP + L.psize, 0, 0⟩) :
    Inv env pool' { L with blocks := L.blocks ++ [newP],
                           small := ⟨newP + sizeofPoolData, size⟩ :: L.small } := by
  have hheader := h.header
  have hnotin : newP ∉ L.blocks := by
    intro hmem
    have happ' := happ ⟨newP, L.psize⟩ (by simp [Layout.owned, hmem])
    unfold Apart sizeofPool at *
    simp only at happ'
    omega
  have hfirst : headerSize pool.addr newP = sizeofPoolData := by
    refine if_neg fun heq => hnotin ?_
    rw [heq]
    exact h.first_mem
  have hperm : ({ L with blocks := L.blocks ++ [newP],
                         small := ⟨newP + sizeofPoolData, size⟩ :: L.small } : Layout).owned.Perm
      (⟨newP, L.psize⟩ :: L.owned) := by
    simp only [Layout.owned, List.map_append, List.map_cons, List.map_nil, List.append_assoc,
      List.singleton_append]
    exact List.perm_middle
  have hin : Within ⟨newP + sizeofPoolData, size⟩ ⟨newP, L.psize⟩ := by
    unfold Within sizeofPool sizeofPoolData at *
    simp only
    omega
  constructor
  case trace => exact hhistory ▸ h.trace
  case aligned => exact h.aligned
  case header => exact h.header
  case maxLe => exact hmax ▸ h.maxLe
  case chain =>
    have hchain := h.chain
    rw [hblocks] at hchain
    have hsnoc := hchain.snoc hne hnext hq (by rw [hnew])
    rw [haddr]
    simpa [hblocks] using hsnoc
  case current => exact hcurrent
  case blockEnd =>
    intro b hb
    rcases List.mem_append.mp hb with hb | hb
    · rw [(hdata b hb).2]
      exact h.blockEnd b hb
    · rw [List.mem_singleton.mp hb, hnew]
  case blockLast =>
    intro b hb
    rw [haddr]
    rcases List.mem_append.mp hb with hb | hb
    · rw [(hdata b hb).1]
      exact h.blockLast b hb
    · rw [List.mem_singleton.mp hb, hnew, hfirst]
      unfold sizeofPool sizeofPoolData at *
      simp only
      omega
  case records =>
    rw [hbigPool, hbig]
    exact h.records
  case inBlock =>
    intro c hc
    rw [haddr]
    rcases List.mem_cons.mp hc with rfl | hc
    · refine ⟨?_, newP, by simp, ?_, ?_⟩
      · unfold poolAlignment sizeofPoolData at *
        simp only
        omega
      · rw [hfirst]
      · rw [hnew]
    · rcases h.inBlock c hc with ⟨hdvd, b, hb, hlo, hhi⟩
      refine ⟨hdvd, b, List.mem_append_left _ hb, hlo, ?_⟩
      rw [(hdata b hb).1]
      exact hhi
  case carvedApart =>
    refine List.pairwise_cons.mpr ⟨fun c hc => ?_, h.carvedApart⟩
    rcases h.carvedWithin hc with ⟨b, hb, hw⟩
    exact hin.apart hw (happ _ (by simp [Layout.owned, hb]))
  case isLive =>
    intro c hc
    rw [hhistory]
    rcases List.mem_cons.mp (hperm.mem_iff.mp hc) with rfl | hc
    · exact hlive
    · exact h.isLive c hc
  case ownedApart =>
    exact (hperm.pairwise_iff fun hab => hab.symm).mpr
      (List.pairwise_cons.mpr ⟨happ, h.ownedApart⟩)
  case bigPos => exact h.bigPos
  case allocBig =>
    rw [hbig]
    exact h.allocBig
  case allocInj =>
    rw [hbig]
    exact h.allocInj
  case recorded =>
    rw [hbig]
    exact h.recorded
  case tiny =>
    rw [hmax]
    exact h.tiny

end Inv

/-! ## Small requests -/

/-- The outcome {lit}`r` of a request of {lit}`size` bytes, with the new layout. -/
structure Served (env : Env) (pool : Pool) (L : Layout) (size : Nat) (r : Nat × Pool)
    (L' : Layout) : Prop where
  inv : Inv env r.2 L'
  psize : L'.psize = L.psize
  addr : r.2.addr = pool.addr
  max : r.2.max = pool.max
  writes : WritesApart L pool r.2
  region : (r.1 = 0 ∧ L'.small = L.small ∧ L'.bigs = L.bigs) ∨
    (r.1 ≠ 0 ∧ size ≤ pool.max ∧ L'.small = ⟨r.1, size⟩ :: L.small ∧ L'.bigs = L.bigs ∧
      L'.records = L.records ∧ L'.held = L.held) ∨
    (r.1 ≠ 0 ∧ pool.max < size ∧ sizeofBigPool ≤ pool.max ∧ L'.small = L.small ∧
      L'.bigs = ⟨r.1, size⟩ :: L.bigs)

/-- What the search of `smp_mpalloc` may find: a block with room, or nothing. -/
def FoundRoom (pool : Pool) (blocks : List Nat) (size : Nat) (found : Option (Nat × Nat)) :
    Prop :=
  found = none ∨ ∃ b ∈ blocks,
    found = some (b, smpAlignPtr (pool.data b).last poolAlignment) ∧
    size ≤ sizeOfDiff (pool.data b).dataEnd (smpAlignPtr (pool.data b).last poolAlignment)

/-- The search for room ends at a block of the chain that has it, or at the end. -/
theorem mpallocPass_spec {blocks : List Nat} {first size fuel p : Nat}
    {found : Option (Nat × Nat)} (hchain : Chain (fun b => (pool.data b).next) first blocks)
    (hp : p ∈ blocks) (hrun : loop .diverged (mpallocPass pool size) fuel p = .ok found) :
    FoundRoom pool blocks size found := by
  refine loop_partial (fun p => p ∈ blocks) (FoundRoom pool blocks size) ?_ ?_ hp hrun
  · intro b found hb hpass
    by_cases hroom : sizeOfDiff (pool.data b).dataEnd
        (smpAlignPtr (pool.data b).last poolAlignment) ≥ size
    · simp only [mpallocPass, hroom, if_true, Except.ok.injEq, Pass.done.injEq] at hpass
      exact Or.inr ⟨b, hb, hpass.symm, hroom⟩
    · by_cases hnext : (pool.data b).next = 0
      · simp [mpallocPass, hroom, hnext] at hpass
        exact Or.inl hpass.symm
      · simp [mpallocPass, hroom, hnext] at hpass
  · intro b b' hb hpass
    by_cases hroom : sizeOfDiff (pool.data b).dataEnd
        (smpAlignPtr (pool.data b).last poolAlignment) ≥ size
    · simp [mpallocPass, hroom] at hpass
    · by_cases hnext : (pool.data b).next = 0
      · simp [mpallocPass, hroom, hnext] at hpass
      · simp [mpallocPass, hroom, hnext] at hpass
        rcases hchain.next_mem hb with hnil | hmem
        · exact absurd hnil hnext
        · exact hpass ▸ hmem

/-- Room found in a block is carved from it. -/
theorem mpalloc_fit_spec (hs : SoundEnv env) (h : Inv env pool L) {size b : Nat}
    (hb : b ∈ L.blocks) (hsize : size ≤ pool.max)
    (hroom : size ≤
      sizeOfDiff (pool.data b).dataEnd (smpAlignPtr (pool.data b).last poolAlignment)) :
    ∃ L', Served env pool L size (smpAlignPtr (pool.data b).last poolAlignment,
      pool.setLast b (smpAlignPtr (pool.data b).last poolAlignment + size)) L' := by
  rcases h.fit hs hb with ⟨hle, hdvd, hend, hdiff⟩
  have hpos := (h.blockAddr hs hb).1
  have hlast := (h.blockLast b hb).1
  have hheader := headerSize_le pool.addr b
  refine ⟨_, h.carve hb hdvd hle (show _ + size ≤ b + L.psize by omega), rfl, rfl, rfl, ?_, ?_⟩
  · refine (WritesApart.refl L pool).cons (w := ⟨b, sizeofPoolData⟩) ?_ rfl
    intro c hc
    refine h.headerApart hb hheader.1 ?_
    rcases List.mem_append.mp hc with hc | hc
    · exact List.mem_append_left _ (List.mem_append_left _ hc)
    · exact List.mem_append_right _ hc
  · refine Or.inr (Or.inl ⟨?_, hsize, rfl, rfl, rfl, rfl⟩)
    simp only
    omega

/-- The rule of the walk of `smp_mpalloc_block`: what every step to the next block keeps holds
at the end, where no block follows. -/
theorem mpallocBlockPass_walk (Keeps : Nat × Nat × Pool → Prop)
    (hstep : ∀ p c c' u v, Keeps (p, c, u) → (u.data p).next ≠ 0 →
      (c' = c ∨ c' = (u.data p).next) → Keeps ((u.data p).next, c', u.setFailure p v))
    {fuel : Nat} {s r : Nat × Nat × Pool} (hs : Keeps s)
    (hrun : loop .diverged mpallocBlockPass fuel s = .ok r) :
    Keeps r ∧ (r.2.2.data r.1).next = 0 := by
  refine loop_partial Keeps (fun r => Keeps r ∧ (r.2.2.data r.1).next = 0) ?_ ?_ hs hrun
  · rintro ⟨p, c, u⟩ r hw hpass
    by_cases hnext : (u.data p).next = 0
    · simp [mpallocBlockPass, hnext] at hpass
      subst hpass
      exact ⟨hw, hnext⟩
    · simp [mpallocBlockPass, hnext] at hpass
  · rintro ⟨p, c, u⟩ s' hw hpass
    by_cases hnext : (u.data p).next = 0
    · simp [mpallocBlockPass, hnext] at hpass
    · simp only [mpallocBlockPass, hnext, ne_eq, not_false_eq_true, if_true,
        Pool.setFailure_next, Except.ok.injEq, Pass.again.injEq] at hpass
      subst hpass
      apply hstep p c _ u _ hw hnext
      split_ifs with hfull
      · exact Or.inr rfl
      · exact Or.inl rfl

/-- The walk of `smp_mpalloc_block` so far: it changed failure counters only. -/
structure Walked (L : Layout) (pool : Pool) (s : Nat × Nat × Pool) : Prop where
  here : s.1 ∈ L.blocks
  current : s.2.1 ∈ L.blocks
  addr : s.2.2.addr = pool.addr
  max : s.2.2.max = pool.max
  bigPool : s.2.2.bigPool = pool.bigPool
  big : s.2.2.big = pool.big
  history : s.2.2.history = pool.history
  data : ∀ b, (s.2.2.data b).last = (pool.data b).last ∧
    (s.2.2.data b).dataEnd = (pool.data b).dataEnd ∧ (s.2.2.data b).next = (pool.data b).next
  outside : ∀ b, b ∉ L.blocks → s.2.2.data b = pool.data b
  writes : WritesApart L pool s.2.2

/-- A step of the walk. -/
theorem Walked.step (h : Inv env pool L) {p c c' v : Nat} {u : Pool}
    (hw : Walked L pool (p, c, u)) (hnext : (u.data p).next ≠ 0) (hc' : c' ∈ L.blocks) :
    Walked L pool ((u.data p).next, c', u.setFailure p v) := by
  have hdata : ∀ b, ((u.setFailure p v).data b).last = (u.data b).last ∧
      ((u.setFailure p v).data b).dataEnd = (u.data b).dataEnd ∧
      ((u.setFailure p v).data b).next = (u.data b).next := by
    intro b
    by_cases heq : b = p <;> simp [Pool.setFailure, Pool.setData, heq]
  constructor
  case here =>
    have hsame := (hw.data p).2.2
    simp only at hsame ⊢
    rw [hsame] at hnext ⊢
    rcases h.chain.next_mem hw.here with hnil | hmem
    · exact absurd hnil hnext
    · exact hmem
  case current => exact hc'
  case addr => exact hw.addr
  case max => exact hw.max
  case bigPool => exact hw.bigPool
  case big => exact hw.big
  case history => exact hw.history
  case data =>
    intro b
    have hold := hw.data b
    have hnew := hdata b
    simp only at hold ⊢
    rw [hnew.1, hnew.2.1, hnew.2.2]
    exact hold
  case outside =>
    intro b hb
    have hne : b ≠ p := fun heq => hb (heq ▸ hw.here)
    have hold := hw.outside b hb
    simp only at hold ⊢
    rw [← hold]
    simp [Pool.setFailure, Pool.setData, hne]
  case writes =>
    refine hw.writes.cons (w := ⟨p, sizeofPoolData⟩) ?_ rfl
    intro r hr
    refine h.headerApart hw.here (headerSize_le pool.addr p).1 ?_
    rcases List.mem_append.mp hr with hr | hr
    · exact List.mem_append_left _ (List.mem_append_left _ hr)
    · exact List.mem_append_right _ hr

/-- The walk ends at the last block of the chain. -/
theorem mpallocBlockPass_spec (h : Inv env pool L) {fuel : Nat} {s r : Nat × Nat × Pool}
    (hs : Walked L pool s) (hrun : loop .diverged mpallocBlockPass fuel s = .ok r) :
    Walked L pool r ∧ (r.2.2.data r.1).next = 0 := by
  refine mpallocBlockPass_walk (Walked L pool) ?_ hs hrun
  intro p c c' u v hw hnext hc'
  apply hw.step h hnext
  rcases hc' with rfl | rfl
  · exact hw.current
  · exact (hw.step h (v := 0) hnext hw.current).here

/-- A new block is not in the chain yet. -/
theorem Inv.newBlock_notMem (h : Inv env pool L) {newP : Nat}
    (happ : ∀ c ∈ L.owned, Apart ⟨newP, L.psize⟩ c) : newP ∉ L.blocks := by
  intro hmem
  have happ' := happ ⟨newP, L.psize⟩ (by simp [Layout.owned, hmem])
  have hheader := h.header
  unfold Apart sizeofPool at *
  simp only at happ'
  omega

/-- Everything in a new block is apart from the regions handed out. -/
theorem Inv.newBlock_apart (h : Inv env pool L) {newP : Nat}
    (happ : ∀ c ∈ L.owned, Apart ⟨newP, L.psize⟩ c) {w : Block}
    (hw : Within w ⟨newP, L.psize⟩) : ∀ c ∈ L.small ++ L.bigs, Apart w c := by
  intro c hc
  rcases List.mem_append.mp hc with hc | hc
  · rcases h.carvedWithin (List.mem_append_left _ hc) with ⟨b, hb, hwb⟩
    exact hw.apart hwb (happ _ (by simp [Layout.owned, hb]))
  · exact hw.apart (Within.refl c) (happ _ (by simp [Layout.owned, hc]))

/-- The header of a block of the pool is apart from the regions handed out. -/
theorem Inv.headerApart_regions (h : Inv env pool L) {b size : Nat} (hb : b ∈ L.blocks)
    (hsize : size ≤ headerSize pool.addr b) : ∀ c ∈ L.small ++ L.bigs, Apart ⟨b, size⟩ c := by
  intro c hc
  refine h.headerApart hb hsize ?_
  rcases List.mem_append.mp hc with hc | hc
  · exact List.mem_append_left _ (List.mem_append_left _ hc)
  · exact List.mem_append_right _ hc

/-- The header of a new block does not change the chain yet. -/
theorem Inv.newHeader (h : Inv env pool L) {newP : Nat} (d : PoolData) (hnew : newP ∉ L.blocks) :
    Inv env (pool.setData newP d) L := by
  refine h.congr rfl rfl h.current rfl rfl rfl fun b hb => ?_
  have hne : b ≠ newP := fun heq => hnew (heq ▸ hb)
  simp [Pool.setData, hne]

/-- The size of a block, as the code computes it. -/
theorem Inv.psize_eq (h : Inv env pool L) (hs : SoundEnv env) :
    sizeOfDiff (pool.data pool.addr).dataEnd pool.addr = L.psize := by
  have hbound := (h.blockAddr hs h.first_mem).2.2
  rw [h.blockEnd _ h.first_mem, sizeOfDiff_of_le hbound (by omega)]
  omega

/-- A request carved from a new block. -/
theorem mpallocBlockLink_spec (hs : SoundEnv env) (h : Inv env pool L) {fuel size newP : Nat}
    {r : Nat × Pool} (hsize : size ≤ pool.max) (hne : newP ≠ 0)
    (hlive : ⟨newP, L.psize⟩ ∈ live pool.history)
    (happ : ∀ c ∈ L.owned, Apart ⟨newP, L.psize⟩ c)
    (hrun : mpallocBlockLink fuel pool newP L.psize size = .ok r) :
    ∃ L', Served env pool L size r L' := by
  have hmax := h.maxLe
  have hheader := h.header
  have hnotin := h.newBlock_notMem happ
  rcases h.trace.block hs hlive with ⟨-, haligned, hbound⟩
  simp only at haligned hbound
  have halign : smpAlignPtr (newP + sizeofPoolData) poolAlignment = newP + sizeofPoolData := by
    refine smpAlignPtr_self ?_ ?_
    · unfold sizeofPool sizeofPoolData at *
      omega
    · unfold poolAlignment sizeofPoolData at *
      omega
  unfold mpallocBlockLink at hrun
  rw [halign] at hrun
  have hinv₂ := h.newHeader ⟨newP + sizeofPoolData + size, newP + L.psize, 0, 0⟩ hnotin
  rcases Exec.bind_eq_ok.mp hrun with ⟨⟨p, c, u⟩, hloop, hdone⟩
  have hstart : Walked L (pool.setData newP
      ⟨newP + sizeofPoolData + size, newP + L.psize, 0, 0⟩)
      (pool.current, pool.current, pool.setData newP
        ⟨newP + sizeofPoolData + size, newP + L.psize, 0, 0⟩) :=
    ⟨h.current, h.current, rfl, rfl, rfl, rfl, rfl, fun b => ⟨rfl, rfl, rfl⟩,
      fun b _ => rfl, WritesApart.refl _ _⟩
  rcases mpallocBlockPass_spec hinv₂ hstart hloop with ⟨hw, hlast⟩
  simp only [pure, Except.pure, Except.ok.injEq] at hdone
  rw [if_pos (hinv₂.chain.ne_zero hw.current)] at hdone
  subst hdone
  -- the walk stopped at the last block
  have hsame := (hw.data p).2.2
  simp only at hsame hlast
  rcases hinv₂.chain.exists_snoc hw.here (hsame.symm.trans hlast) with ⟨l, hblocks⟩
  have hpne : newP ≠ p := fun heq => hnotin (heq ▸ hw.here)
  have hnodup := hinv₂.chain.nodup
  rw [hblocks, List.nodup_append'] at hnodup
  have hheaderIn : Within ⟨newP, sizeofPoolData⟩ ⟨newP, L.psize⟩ := by
    unfold Within sizeofPool sizeofPoolData at *
    simp only
    omega
  have hfields : ∀ b ∈ L.blocks, ((u.setNext p newP).data b).last = (pool.data b).last ∧
      ((u.setNext p newP).data b).dataEnd = (pool.data b).dataEnd ∧
      (b ≠ p → ((u.setNext p newP).data b).next = (pool.data b).next) := by
    intro b hb
    have hbne : b ≠ newP := fun heq => hnotin (heq ▸ hb)
    have hold := hw.data b
    simp only [Pool.setData, Function.update_of_ne hbne] at hold
    by_cases heq : b = p
    · subst heq
      simp [Pool.setNext, Pool.setData, hold]
    · simp [Pool.setNext, Pool.setData, heq, hold]
  refine ⟨_, h.extend ((u.setNext p newP).setCurrent c) (l := l) (q := p) hlive happ
    haligned hne (show size + sizeofPool ≤ L.psize by omega) hblocks hw.addr hw.max hw.bigPool
    hw.big hw.history ?_ ?_ ?_ ?_ ?_, rfl, hw.addr, hw.max, ?_, ?_⟩
  · exact List.mem_append_left _ hw.current
  · exact fun b hb => ⟨(hfields b hb).1, (hfields b hb).2.1⟩
  · intro b hb
    have hbne : b ≠ p := fun heq => List.disjoint_left.mp hnodup.2.2 hb (by simp [heq])
    exact (hfields b (by simp [hblocks, hb])).2.2 hbne
  · simp [Pool.setCurrent, Pool.setNext, Pool.setData]
  · have hout := hw.outside newP hnotin
    simp only [Pool.setData, Function.update_self] at hout
    simp [Pool.setCurrent, Pool.setNext, Pool.setData, hpne, hout]
  · have hfirst : WritesApart L pool (pool.setData newP
        ⟨newP + sizeofPoolData + size, newP + L.psize, 0, 0⟩) :=
      (WritesApart.refl L pool).cons (h.newBlock_apart happ hheaderIn) rfl
    refine ((hfirst.trans hw.writes).cons (w := ⟨p, sizeofPoolData⟩) ?_ rfl).cons
      (w := ⟨u.addr, sizeofPool⟩) (u := (u.setNext p newP).setCurrent c) ?_ rfl
    · exact h.headerApart_regions hw.here (headerSize_le pool.addr p).1
    · rw [hw.addr]
      exact h.headerApart_regions h.first_mem (by simp [headerSize, Pool.setData])
  · refine Or.inr (Or.inl ⟨?_, hsize, rfl, rfl, rfl, rfl⟩)
    simp only
    omega

/-- A request that no block of the chain has room for. -/
theorem smpMpallocBlock_spec (hs : SoundEnv env) (h : Inv env pool L) {fuel size : Nat}
    {r : Nat × Pool} (hsize : size ≤ pool.max)
    (hrun : smpMpallocBlock env fuel pool size = .ok r) :
    ∃ L', Served env pool L size r L' := by
  have hpsize := h.psize_eq hs
  have hsame := Inv.memalign_same env pool L.psize
  rcases h.memalign hs L.psize with ⟨hinv, hnew⟩
  simp only [smpMpallocBlock, hpsize] at hrun
  generalize (smpMemalign env pool L.psize).1 = newP at hrun hnew
  generalize (smpMemalign env pool L.psize).2 = pool₁ at hrun hnew hinv hsame
  have hwrites : WritesApart L pool pool₁ := ⟨[], by rw [hsame]; rfl, by simp⟩
  by_cases hnull : newP = 0
  · -- the underlying allocator failed
    rw [if_pos hnull, Except.ok.injEq] at hrun
    subst hrun
    exact ⟨L, hinv, rfl, by rw [hsame], by rw [hsame], hwrites, Or.inl ⟨rfl, rfl, rfl⟩⟩
  · rw [if_neg hnull] at hrun
    rcases hnew hnull with ⟨hlive, happ⟩
    have hmax : pool₁.max = pool.max := by rw [hsame]
    rcases mpallocBlockLink_spec hs hinv (hmax ▸ hsize) hnull hlive happ hrun with ⟨L', hserved⟩
    refine ⟨L', hserved.inv, hserved.psize, ?_, ?_, hwrites.trans hserved.writes, ?_⟩
    · rw [hserved.addr, hsame]
    · rw [hserved.max, hmax]
    · have hregion := hserved.region
      rwa [hmax] at hregion

/-! ## Big requests -/

/-- The bytes of a big block do not move when it gets a record. -/
theorem Layout.owned_record (L : Layout) (c : Block) :
    ({ L with bigs := c :: L.bigs } : Layout).owned.Perm
      ({ L with held := c :: L.held } : Layout).owned := by
  simp only [Layout.owned, List.append_assoc]
  refine List.Perm.append_left _ ?_
  exact List.perm_middle.symm

/-- A new record does not move any bytes either. -/
theorem Layout.carved_record (L : Layout) (r : Nat) :
    ({ L with records := r :: L.records } : Layout).carved.Perm
      ({ L with small := recordAt r :: L.small } : Layout).carved := by
  simp only [Layout.carved, List.map_cons]
  exact List.perm_middle

namespace Inv

/-- A held block starts elsewhere than the big blocks with a record. -/
theorem held_ne {c c' : Block} (h : Inv env pool { L with held := c :: L.held })
    (hc' : c' ∈ L.bigs) : c'.addr ≠ c.addr := by
  have happ := h.ownedApart
  rw [Layout.owned, List.append_assoc, List.pairwise_append, List.pairwise_append] at happ
  have hapart := happ.2.1.2.2 c' hc' c (by simp)
  have hpos := h.bigPos c (by simp)
  have hpos' := h.bigPos c' (by simp [hc'])
  unfold Apart at hapart
  omega

/-- The records after {lit}`r` is made the record of the held block {lit}`c`. -/
theorem recordFields {c : Block} (hs : SoundEnv env)
    (h : Inv env pool { L with held := c :: L.held }) (big : Nat → BigPool)
    (records : List Nat) {r : Nat} (hr : r ∈ records)
    (hsub : ∀ r' ∈ L.records, r' ∈ records) (hcases : ∀ r' ∈ records, r' = r ∨ r' ∈ L.records)
    (hnone : r ∈ L.records → (pool.big r).alloc = 0) (halloc : (big r).alloc = c.addr)
    (hsame : ∀ r', r' ≠ r → (big r').alloc = (pool.big r').alloc) :
    (∀ r' ∈ records, (big r').alloc ≠ 0 → ∃ c' ∈ c :: L.bigs, c'.addr = (big r').alloc) ∧
      (∀ r' ∈ records, ∀ r'' ∈ records, (big r').alloc ≠ 0 →
        (big r').alloc = (big r'').alloc → r' = r'') ∧
      ∀ c' ∈ c :: L.bigs, ∃ r' ∈ records, (big r').alloc = c'.addr := by
  have hold : ∀ r' ∈ L.records, r' ≠ r → (big r').alloc ≠ 0 →
      ∃ c' ∈ L.bigs, c'.addr = (big r').alloc := by
    intro r' hr' hne h₀
    rw [hsame r' hne] at h₀ ⊢
    exact h.allocBig r' hr' h₀
  have hother : ∀ r' ∈ records, r' ≠ r → (big r').alloc ≠ c.addr ∨ (big r').alloc = 0 := by
    intro r' hr' hne
    by_cases h₀ : (big r').alloc = 0
    · exact Or.inr h₀
    · rcases (hcases r' hr').resolve_left hne with hmem
      rcases hold r' hmem hne h₀ with ⟨c', hc', heq⟩
      exact Or.inl (heq ▸ h.held_ne hc')
  refine ⟨?_, ?_, ?_⟩
  · intro r' hr' h₀
    by_cases hne : r' = r
    · subst hne
      exact ⟨c, by simp, halloc.symm⟩
    · rcases hold r' ((hcases r' hr').resolve_left hne) hne h₀ with ⟨c', hc', heq⟩
      exact ⟨c', by simp [hc'], heq⟩
  · intro r' hr' r'' hr'' h₀ heq
    by_cases hne : r' = r
    · by_cases hne' : r'' = r
      · rw [hne, hne']
      · subst hne
        rw [halloc] at heq h₀
        rcases hother r'' hr'' hne' with hdiff | hzero
        · exact absurd heq.symm hdiff
        · exact absurd (heq.trans hzero) h₀
    · by_cases hne' : r'' = r
      · subst hne'
        rw [halloc] at heq
        rcases hother r' hr' hne with hdiff | hzero
        · exact absurd heq hdiff
        · exact absurd hzero h₀
      · rw [hsame r' hne] at h₀ heq
        rw [hsame r'' hne'] at heq
        exact h.allocInj r' ((hcases r' hr').resolve_left hne) r''
          ((hcases r'' hr'').resolve_left hne') h₀ heq
  · intro c' hc'
    rcases List.mem_cons.mp hc' with rfl | hc'
    · exact ⟨r, hr, halloc⟩
    · rcases h.recorded c' hc' with ⟨r', hr', heq⟩
      have hne : r' ≠ r := by
        rintro rfl
        have hpos := (h.trace.block hs (h.isLive c' (by simp [Layout.owned, hc']))).1
        rw [hnone hr'] at heq
        omega
      exact ⟨r', hsub r' hr', by rw [hsame r' hne, heq]⟩

/-- A free record becomes the record of a held block. -/
theorem reuseRecord {c : Block} {r : Nat} (hs : SoundEnv env)
    (h : Inv env pool { L with held := c :: L.held }) (hr : r ∈ L.records)
    (halloc : (pool.big r).alloc = 0) :
    Inv env (pool.setBig r { pool.big r with alloc := c.addr })
      { L with bigs := c :: L.bigs } := by
  have hperm := L.owned_record c
  have hnext : ∀ r', ((pool.setBig r { pool.big r with alloc := c.addr }).big r').next =
      (pool.big r').next := by
    intro r'
    by_cases heq : r' = r <;> simp [Pool.setBig, heq]
  rcases h.recordFields hs (pool.setBig r { pool.big r with alloc := c.addr }).big L.records hr
    (fun r' hr' => hr') (fun r' hr' => Or.inr hr') (fun _ => halloc) (by simp [Pool.setBig])
    (fun r' hne => by simp [Pool.setBig, hne]) with ⟨hbig, hinj, hrecorded⟩
  refine { h with records := ?_, isLive := ?_, ownedApart := ?_, bigPos := ?_, allocBig := hbig,
                  allocInj := hinj, recorded := hrecorded }
  · exact h.records.congr fun r' _ => hnext r'
  · exact fun c' hc' => h.isLive c' (hperm.mem_iff.mp hc')
  · exact (hperm.pairwise_iff fun hab => hab.symm).mpr h.ownedApart
  · intro c' hc'
    refine h.bigPos c' ?_
    simp only [List.mem_append, List.mem_cons] at hc' ⊢
    tauto

/-- A region of the right size becomes the first record, that of a held block. -/
theorem addRecord {c : Block} {r : Nat} (hs : SoundEnv env)
    (h : Inv env pool { L with small := recordAt r :: L.small, held := c :: L.held })
    (htiny : sizeofBigPool ≤ pool.max) :
    Inv env ((pool.setBig r { next := pool.bigPool, alloc := c.addr }).setBigPool r)
      { L with records := r :: L.records, bigs := c :: L.bigs } := by
  have hcarved := L.carved_record r
  have hperm := L.owned_record c
  -- the new record lies elsewhere than the old ones
  have hnew : ∀ r' ∈ L.records, r' ≠ r := by
    intro r' hr' heq
    have happ := (List.pairwise_cons.mp h.carvedApart).1 (recordAt r')
      (List.mem_append_right _ (List.mem_map_of_mem hr'))
    rw [heq] at happ
    unfold Apart recordAt sizeofBigPool at happ
    simp only at happ
    omega
  have hpos : r ≠ 0 := by
    rcases h.carvedWithin (c := recordAt r) (by simp [Layout.carved]) with ⟨b, hb, hw⟩
    have hb₀ := (h.blockAddr hs hb).1
    have hle := hw.1
    simp only [recordAt] at hle
    omega
  have hnext : ∀ r' ∈ L.records,
      ((pool.setBig r { next := pool.bigPool, alloc := c.addr }).big r').next =
        (pool.big r').next := by
    intro r' hr'
    simp [Pool.setBig, hnew r' hr']
  have hheld : Inv env pool { { L with small := recordAt r :: L.small } with
      held := c :: L.held } := h
  rcases hheld.recordFields hs
    (pool.setBig r { next := pool.bigPool, alloc := c.addr }).big (r :: L.records) (r := r)
    (by simp) (fun r' hr' => by simp [hr'])
    (fun r' hr' => List.mem_cons.mp hr') (fun hmem => absurd rfl (hnew r hmem))
    (by simp [Pool.setBig]) (fun r' hne => by simp [Pool.setBig, hne]) with
    ⟨hbig, hinj, hrecorded⟩
  refine { h with records := ?_, inBlock := ?_, carvedApart := ?_, isLive := ?_,
                  ownedApart := ?_, bigPos := ?_, allocBig := hbig, allocInj := hinj,
                  recorded := hrecorded, tiny := ?_ }
  · refine ⟨rfl, hpos, ?_⟩
    have hfirst : ((pool.setBig r { next := pool.bigPool, alloc := c.addr }).big r).next =
        pool.bigPool := by simp [Pool.setBig]
    change Chain _ ((pool.setBig r { next := pool.bigPool, alloc := c.addr }).big r).next _
    rw [hfirst]
    exact h.records.congr hnext
  · exact fun c' hc' => h.inBlock c' (hcarved.mem_iff.mp hc')
  · exact (hcarved.pairwise_iff fun hab => hab.symm).mpr h.carvedApart
  · exact fun c' hc' => h.isLive c' (hperm.mem_iff.mp hc')
  · exact (hperm.pairwise_iff fun hab => hab.symm).mpr h.ownedApart
  · intro c' hc'
    refine h.bigPos c' ?_
    simp only [List.mem_append, List.mem_cons] at hc' ⊢
    tauto
  · exact fun hlt => absurd hlt (Nat.not_lt.mpr htiny)

end Inv

/-- What the search of `smp_mpalloc_bigpool` may find: a free record, or nothing. -/
def FoundFree (pool : Pool) (L : Layout) (found : Option Nat) : Prop :=
  found = none ∨ ∃ r ∈ L.records, found = some r ∧ (pool.big r).alloc = 0

/-- The search for a free record. -/
theorem freeRecordPass_spec (h : Inv env pool L) {fuel : Nat} {found : Option Nat}
    (hrun : loop .diverged (freeRecordPass pool) fuel (pool.bigPool, 0) = .ok found) :
    FoundFree pool L found := by
  refine loop_partial (fun s => s.1 = 0 ∨ s.1 ∈ L.records) (FoundFree pool L) ?_ ?_ ?_ hrun
  · rintro ⟨r, n⟩ found hr hpass
    by_cases hnull : r = 0
    · simp [freeRecordPass, hnull] at hpass
      exact Or.inl hpass.symm
    · by_cases hfree : (pool.big r).alloc = 0
      · simp [freeRecordPass, hnull, hfree] at hpass
        exact Or.inr ⟨r, hr.resolve_left hnull, hpass.symm, hfree⟩
      · by_cases hn : n > 3
        · simp [freeRecordPass, hnull, hfree, hn] at hpass
          exact Or.inl hpass.symm
        · simp [freeRecordPass, hnull, hfree, hn] at hpass
  · rintro ⟨r, n⟩ s' hr hpass
    by_cases hnull : r = 0
    · simp [freeRecordPass, hnull] at hpass
    · by_cases hfree : (pool.big r).alloc = 0
      · simp [freeRecordPass, hnull, hfree] at hpass
      · by_cases hn : n > 3
        · simp [freeRecordPass, hnull, hfree, hn] at hpass
        · simp [freeRecordPass, hnull, hfree, hn] at hpass
          subst hpass
          exact h.records.next_mem (hr.resolve_left hnull)
  · have hhead := h.records.head_eq
    cases hrs : L.records with
    | nil =>
        rw [hrs] at hhead
        exact Or.inl hhead
    | cons r rs =>
        rw [hrs] at hhead
        exact Or.inr (by simp [hhead])

/-- A zeroed block from the underlying allocator is held by the pool. -/
theorem smpCalloc_spec (hs : SoundEnv env) (h : Inv env pool L) {size : Nat} (hsize : 0 < size) :
    (smpCalloc env pool size).2.addr = pool.addr ∧ (smpCalloc env pool size).2.max = pool.max ∧
      WritesApart L pool (smpCalloc env pool size).2 ∧
      ((smpCalloc env pool size).1 = 0 → Inv env (smpCalloc env pool size).2 L) ∧
      ((smpCalloc env pool size).1 ≠ 0 → Inv env (smpCalloc env pool size).2
        { L with held := ⟨(smpCalloc env pool size).1, size⟩ :: L.held }) := by
  have hsame := Inv.memalign_same env pool size
  rcases h.memalign hs size with ⟨hinv, hnew⟩
  simp only [smpMemalign] at hsame hinv hnew
  simp only [smpCalloc]
  generalize (smpAlloc env pool size).1 = p at hnew ⊢
  generalize (smpAlloc env pool size).2 = pool₁ at hnew hinv hsame ⊢
  have hwrites : WritesApart L pool pool₁ := ⟨[], by rw [hsame]; rfl, by simp⟩
  have haddr : pool₁.addr = pool.addr := by rw [hsame]
  have hmax : pool₁.max = pool.max := by rw [hsame]
  by_cases hp : p = 0
  · simp only [hp, ne_eq, not_true_eq_false, if_false]
    exact ⟨haddr, hmax, hwrites, fun _ => hinv.setError, fun hne => hne.elim⟩
  · simp only [hp, ne_eq, not_false_eq_true, if_true]
    rcases hnew hp with ⟨hlive, happ⟩
    refine ⟨haddr, hmax, hwrites.cons (w := ⟨p, size⟩) ?_ rfl, fun hnull => hnull.elim, ?_⟩
    · intro c hc
      rcases List.mem_append.mp hc with hc | hc
      · rcases h.carvedWithin (List.mem_append_left _ hc) with ⟨b, hb, hw⟩
        exact (Within.refl _).apart hw (happ _ (by simp [Layout.owned, hb]))
      · exact happ c (by simp [Layout.owned, hc])
    · intro _
      have hzeroed : Inv env { pool₁ with writes := ⟨p, size⟩ :: pool₁.writes } L :=
        hinv.congr rfl rfl hinv.current rfl rfl rfl fun b _ => ⟨rfl, rfl, rfl⟩
      exact hzeroed.hold hlive happ hsize

/-- A request of a block of its own; {lit}`mpalloc` is the call back for a new record. -/
theorem smpMpallocBigpool_spec (hs : SoundEnv env) (h : Inv env pool L)
    {mpalloc : Pool → Nat → Exec (Nat × Pool)} {fuel size : Nat} {r : Nat × Pool}
    (hsize : pool.max < size)
    (hcall : ∀ {u : Pool} {L : Layout} {r : Nat × Pool}, Inv env u L →
      mpalloc u sizeofBigPool = .ok r → ∃ L', Served env u L sizeofBigPool r L')
    (hrun : smpMpallocBigpool env mpalloc fuel pool size = .ok r) :
    ∃ L', Served env pool L size r L' := by
  rcases smpCalloc_spec hs h (show 0 < size by omega) with
    ⟨haddr, hmax, hwrites, hfailed, hheld⟩
  simp only [smpMpallocBigpool] at hrun
  generalize (smpCalloc env pool size).1 = p at hrun hfailed hheld
  generalize (smpCalloc env pool size).2 = pool₁ at hrun haddr hmax hwrites hfailed hheld
  by_cases hp : p = 0
  · rw [if_pos hp] at hrun
    simp only [pure, Except.pure, Except.ok.injEq] at hrun
    subst hrun
    exact ⟨L, hfailed hp, rfl, haddr, hmax, hwrites, Or.inl ⟨rfl, rfl, rfl⟩⟩
  · rw [if_neg hp] at hrun
    have hinv := hheld hp
    rcases Exec.bind_eq_ok.mp hrun with ⟨found, hloop, hrest⟩
    rcases freeRecordPass_spec hinv hloop with rfl | ⟨bigP, hmem, rfl, hfree⟩
    · -- a new record is carved from the pool itself
      rcases Exec.bind_eq_ok.mp hrest with ⟨⟨bigP, pool₂⟩, hrec, hdone⟩
      rcases hcall hinv hrec with ⟨L₂, hserved⟩
      have hwrites₂ := hwrites.trans hserved.writes
      simp only at hdone
      by_cases hbigP : bigP = 0
      · rw [if_pos hbigP] at hdone
        simp only [pure, Except.pure, Except.ok.injEq] at hdone
        subst hdone
        have hfreeNull : smpFree pool₂ bigP = pool₂ := by simp [smpFree, hbigP]
        rw [hfreeNull]
        rcases hserved.region with hreg | hreg | hreg
        · exact ⟨L₂, hserved.inv, hserved.psize, hserved.addr.trans haddr,
            hserved.max.trans hmax, hwrites₂, Or.inl ⟨rfl, hreg.2⟩⟩
        · exact absurd hbigP hreg.1
        · exact absurd hbigP hreg.1
      · rw [if_neg hbigP] at hdone
        simp only [pure, Except.pure, Except.ok.injEq] at hdone
        subst hdone
        rcases hserved.region with hreg | ⟨-, htiny, hsmall, hbigs, hrecords, hheld₂⟩ | hreg
        · exact absurd hreg.1 hbigP
        · have hL₂ : L₂ = { { L₂ with small := L.small, held := L.held } with
              small := recordAt bigP :: L.small, held := ⟨p, size⟩ :: L.held } := by
            cases L₂
            simp only at hsmall hheld₂
            subst hsmall hheld₂
            rfl
          have hinv₂ := hserved.inv
          rw [hL₂] at hinv₂
          have hmax₂ : pool₂.max = pool.max := hserved.max.trans hmax
          rw [hmax] at htiny
          refine ⟨_, hinv₂.addRecord hs (hmax₂ ▸ htiny), hserved.psize,
            hserved.addr.trans haddr, hmax₂, ?_, ?_⟩
          · have hold : ∀ c ∈ L.small ++ L.bigs, c ∈ L.small ++ L₂.bigs := by
              intro c hc
              rwa [hbigs]
            refine (hwrites₂.cons (w := recordAt bigP) (u := pool₂.setBig bigP
              { next := pool₂.bigPool, alloc := p }) ?_ rfl).cons
              (w := ⟨pool₂.addr, sizeofPool⟩) ?_ rfl
            · intro c hc
              have happ := (List.pairwise_cons.mp hinv₂.carvedApart).1
              rcases List.mem_append.mp hc with hc | hc
              · exact happ c (List.mem_append_left _ hc)
              · rcases hinv₂.carvedWithin (c := recordAt bigP) (by simp [Layout.carved]) with
                  ⟨b, hb, hw⟩
                refine hw.apart (Within.refl c) (hinv₂.bigApart hb ?_)
                simpa [hbigs] using hc
            · intro c hc
              refine hinv₂.headerApart_regions hinv₂.first_mem (by simp [headerSize]) c ?_
              rcases List.mem_append.mp (hold c hc) with hc | hc
              · exact List.mem_append_left _ (List.mem_cons_of_mem _ hc)
              · exact List.mem_append_right _ hc
          · exact Or.inr (Or.inr ⟨hp, hsize, htiny, rfl, by rw [hbigs]⟩)
        · omega
    · -- a free record is used again
      simp only [pure, Except.pure, Except.ok.injEq] at hrest
      subst hrest
      have htiny : sizeofBigPool ≤ pool.max := by
        by_contra hlt
        have hnone := h.tiny (by omega)
        simp only at hmem
        rw [hnone] at hmem
        simp at hmem
      refine ⟨_, hinv.reuseRecord hs hmem hfree, rfl, haddr, hmax, ?_,
        Or.inr (Or.inr ⟨hp, hsize, htiny, rfl, rfl⟩)⟩
      refine hwrites.cons (w := recordAt bigP) ?_ rfl
      intro c hc
      exact hinv.recordApart hmem hc

/-- A request keeps the invariant, and hands out one new region or none. -/
theorem smpMpalloc_spec (hs : SoundEnv env) {fuel : Nat} :
    ∀ {pool : Pool} {L : Layout} {size : Nat} {r : Nat × Pool}, Inv env pool L →
      smpMpalloc env fuel pool size = .ok r → ∃ L', Served env pool L size r L' := by
  induction fuel with
  | zero => intro pool L size r _ hrun; simp [smpMpalloc] at hrun
  | succ fuel ih =>
      intro pool L size r h hrun
      unfold smpMpalloc at hrun
      by_cases hsize : size ≤ pool.max
      · rw [if_pos hsize] at hrun
        rcases Exec.bind_eq_ok.mp hrun with ⟨found, hloop, hrest⟩
        rcases mpallocPass_spec h.chain h.current hloop with rfl | ⟨b, hb, rfl, hroom⟩
        · exact smpMpallocBlock_spec hs h hsize hrest
        · simp only [pure, Except.pure, Except.ok.injEq] at hrest
          subst hrest
          exact mpalloc_fit_spec hs h hb hsize hroom
      · rw [if_neg hsize] at hrun
        exact smpMpallocBigpool_spec hs h (by omega) (fun hinv hcall => ih hinv hcall) hrun

/-! ## Creation and release -/

/-- A new pool of a size that is a multiple of the alignment. -/
theorem smpMpoolCreate_spec (hs : SoundEnv env) {data : Nat → PoolData} {big : Nat → BigPool}
    {size : Nat} (haligned : poolAlignment ∣ size)
    (hcreate : smpMpoolCreate env data big size = .ok (some pool)) :
    Inv env pool ⟨size, [pool.addr], [], [], [], []⟩ := by
  rcases smpMpoolCreate_eq_some.mp hcreate with ⟨p, hp, hheader, rfl⟩
  have htrace := Trace.alloc size (@Trace.nil env.place)
  rw [hp] at htrace
  have hpos := hs.nonzero hp
  have hbound := hs.bounded hp
  have hdata : (size + 2 ^ 64 - sizeofPool) % 2 ^ 64 = size - sizeofPool := by
    unfold sizeofPool at *
    omega
  unfold newPool
  constructor
  case trace => exact htrace
  case aligned => exact haligned
  case header => exact hheader
  case maxLe =>
    simp only [hdata]
    split_ifs
    · omega
    · omega
  case chain => exact ⟨rfl, by simp only; omega, by simp⟩
  case current => simp
  case blockEnd => simp
  case blockLast =>
    simp [headerSize]
    omega
  case records => rfl
  case inBlock => simp [Layout.carved]
  case carvedApart => exact List.Pairwise.nil
  case isLive => simp [Layout.owned]
  case ownedApart => simp [Layout.owned]
  case bigPos => simp
  case allocBig => simp
  case allocInj => simp
  case recorded => simp
  case tiny => simp

namespace Inv

/-- Live blocks of positive size that are apart start at different addresses. -/
theorem big_ne (h : Inv env pool L) {c c' : Block} (hc : c ∈ L.bigs) (hc' : c' ∈ L.owned)
    (hpos : 0 < c'.size) (hne : c ≠ c') : c'.addr ≠ c.addr := by
  have happ := h.ownedApart.forall (by simp [Layout.owned, hc] : c ∈ L.owned) hc' hne
  have hposc := h.bigPos c (by simp [hc])
  unfold Apart at happ
  omega

/-- Without a big block the layout owns fewer blocks. -/
theorem owned_sublist (L : Layout) (p : Nat) :
    ({ L with bigs := L.bigs.filter fun c => c.addr ≠ p } : Layout).owned.Sublist L.owned := by
  simp only [Layout.owned, List.append_assoc]
  exact (List.Sublist.refl _).append (List.filter_sublist.append (List.Sublist.refl _))

theorem owned_pos (h : Inv env pool L) {c : Block} (hc : c ∈ L.owned) : 0 < c.size := by
  simp only [Layout.owned, List.mem_append, List.mem_map] at hc
  rcases hc with (⟨b, -, rfl⟩ | hc) | hc
  · have hheader := h.header
    unfold sizeofPool at hheader
    simp only
    omega
  · exact h.bigPos c (List.mem_append_left _ hc)
  · exact h.bigPos c (List.mem_append_right _ hc)

/-- The blocks that are left without the big block {lit}`c₀` start elsewhere. -/
theorem owned_ne (h : Inv env pool L) {c₀ c : Block} (hc₀ : c₀ ∈ L.bigs)
    (hc : c ∈ ({ L with bigs := L.bigs.filter fun c => c.addr ≠ c₀.addr } : Layout).owned) :
    c.addr ≠ c₀.addr := by
  have hmem := (owned_sublist L c₀.addr).subset hc
  by_cases heq : c = c₀
  · -- the block itself is no longer in the layout
    subst heq
    simp only [Layout.owned, List.mem_append, List.mem_map, List.mem_filter] at hc
    have happ := h.ownedApart
    have hpos := h.owned_pos hmem
    rw [Layout.owned, List.append_assoc, List.pairwise_append, List.pairwise_append] at happ
    rcases hc with (⟨b, hb, rfl⟩ | ⟨-, hne⟩) | hc
    · have hself := h.bigApart hb hc₀
      unfold Apart at hself
      omega
    · simp at hne
    · have hself := happ.2.1.2.2 c hc₀ c hc
      unfold Apart at hself
      omega
  · exact h.big_ne hc₀ hmem (h.owned_pos hmem) (Ne.symm heq)

/-- The record {lit}`r` of the big block at {lit}`p` is cleared and the block freed. -/
theorem freeRecord (h : Inv env pool L) {r : Nat} (hr : r ∈ L.records)
    (hp : (pool.big r).alloc ≠ 0) :
    Inv env ((smpFree pool (pool.big r).alloc).setBig r { pool.big r with alloc := 0 })
      { L with bigs := L.bigs.filter fun c => c.addr ≠ (pool.big r).alloc } := by
  rcases h.allocBig r hr hp with ⟨c₀, hc₀, haddr⟩
  have hhistory : (smpFree pool (pool.big r).alloc).history =
      .free (pool.big r).alloc :: pool.history := by simp [smpFree, hp]
  have hfree : smpFree pool (pool.big r).alloc =
      { pool with history := .free (pool.big r).alloc :: pool.history } := by simp [smpFree, hp]
  have hfields : ∀ r', (((smpFree pool (pool.big r).alloc).setBig r
      { pool.big r with alloc := 0 }).big r').next = (pool.big r').next ∧
      (r' ≠ r → (((smpFree pool (pool.big r).alloc).setBig r
        { pool.big r with alloc := 0 }).big r').alloc = (pool.big r').alloc) ∧
      (((smpFree pool (pool.big r).alloc).setBig r
        { pool.big r with alloc := 0 }).big r).alloc = 0 := by
    intro r'
    by_cases heq : r' = r <;> simp [Pool.setBig, hfree, heq]
  have hsub := owned_sublist L (pool.big r).alloc
  constructor
  case trace =>
    change Trace env.place (smpFree pool (pool.big r).alloc).history
    rw [hhistory]
    exact h.trace.free _
  case aligned => exact h.aligned
  case header => exact h.header
  case maxLe =>
    rw [hfree]
    exact h.maxLe
  case chain =>
    rw [hfree]
    exact h.chain
  case current =>
    rw [hfree]
    exact h.current
  case blockEnd =>
    rw [hfree]
    exact h.blockEnd
  case blockLast =>
    rw [hfree]
    exact h.blockLast
  case records =>
    have hbigPool : ((smpFree pool (pool.big r).alloc).setBig r
        { pool.big r with alloc := 0 }).bigPool = pool.bigPool := by simp [Pool.setBig, hfree]
    rw [hbigPool]
    exact h.records.congr fun r' _ => (hfields r').1
  case inBlock =>
    rw [hfree]
    exact h.inBlock
  case carvedApart => exact h.carvedApart
  case isLive =>
    intro c hc
    change c ∈ live (smpFree pool (pool.big r).alloc).history
    rw [hhistory, live_free, List.mem_filter]
    rw [← haddr] at hc ⊢
    exact ⟨h.isLive c ((owned_sublist L c₀.addr).subset hc), by simpa using h.owned_ne hc₀ hc⟩
  case ownedApart => exact h.ownedApart.sublist hsub
  case bigPos =>
    intro c hc
    rcases List.mem_append.mp hc with hc | hc
    · exact h.bigPos c (List.mem_append_left _ (List.mem_filter.mp hc).1)
    · exact h.bigPos c (List.mem_append_right _ hc)
  case allocBig =>
    intro r' hr' h₀
    by_cases heq : r' = r
    · subst heq
      exact absurd (hfields r').2.2 h₀
    · have hsame := (hfields r').2.1 heq
      rw [hsame] at h₀ ⊢
      rcases h.allocBig r' hr' h₀ with ⟨c, hc, hca⟩
      refine ⟨c, List.mem_filter.mpr ⟨hc, ?_⟩, hca⟩
      have hne : c.addr ≠ (pool.big r).alloc := by
        intro hbad
        rw [hca] at hbad
        exact heq (h.allocInj r' hr' r hr h₀ hbad)
      simp [hne]
  case allocInj =>
    intro r' hr' r'' hr'' h₀ heq
    by_cases hr₁ : r' = r
    · subst hr₁
      exact absurd (hfields r').2.2 h₀
    · by_cases hr₂ : r'' = r
      · subst hr₂
        rw [(hfields r'').2.2] at heq
        exact absurd heq h₀
      · rw [(hfields r').2.1 hr₁] at h₀ heq
        rw [(hfields r'').2.1 hr₂] at heq
        exact h.allocInj r' hr' r'' hr'' h₀ heq
  case recorded =>
    intro c hc
    rcases List.mem_filter.mp hc with ⟨hc, hne⟩
    rcases h.recorded c hc with ⟨r', hr', hca⟩
    have heq : r' ≠ r := by
      rintro rfl
      simp [hca] at hne
    exact ⟨r', hr', by rw [(hfields r').2.1 heq, hca]⟩
  case tiny =>
    rw [hfree]
    exact h.tiny

end Inv

/-- What the search of `smp_mpfree_bigpool` finds: the record of {lit}`p`, or nothing if
there is none. -/
def FoundRecord (pool : Pool) (L : Layout) (p : Nat) (found : Option Nat) : Prop :=
  (found = none ∧ ∀ r ∈ L.records, (pool.big r).alloc ≠ p) ∨
    ∃ r ∈ L.records, found = some r ∧ (pool.big r).alloc = p

/-- The search for the record of a big block. -/
theorem findRecordPass_spec (h : Inv env pool L) {fuel p : Nat} {found : Option Nat}
    (hrun : loop .diverged (findRecordPass pool p) fuel pool.bigPool = .ok found) :
    FoundRecord pool L p found := by
  refine loop_partial (fun r => ∃ l₁ l₂, L.records = l₁ ++ l₂ ∧ r = l₂.headD 0 ∧
    ∀ r' ∈ l₁, (pool.big r').alloc ≠ p) (FoundRecord pool L p) ?_ ?_ ?_ hrun
  · rintro r found ⟨l₁, l₂, hsplit, rfl, hnone⟩ hpass
    have hchain := (hsplit ▸ h.records).drop
    cases l₂ with
    | nil =>
        simp [findRecordPass] at hpass
        refine Or.inl ⟨hpass.symm, ?_⟩
        rw [hsplit, List.append_nil]
        exact hnone
    | cons r l₂ =>
        have hne : r ≠ 0 := hchain.2.1
        by_cases heq : (pool.big r).alloc = p
        · simp [findRecordPass, hne, heq] at hpass
          exact Or.inr ⟨r, by simp [hsplit], hpass.symm, heq⟩
        · simp [findRecordPass, hne, heq] at hpass
  · rintro r r' ⟨l₁, l₂, hsplit, rfl, hnone⟩ hpass
    have hchain := (hsplit ▸ h.records).drop
    cases l₂ with
    | nil => simp [findRecordPass] at hpass
    | cons r l₂ =>
        have hne : r ≠ 0 := hchain.2.1
        by_cases heq : (pool.big r).alloc = p
        · simp [findRecordPass, hne, heq] at hpass
        · simp [findRecordPass, hne, heq] at hpass
          refine ⟨l₁ ++ [r], l₂, by simp [hsplit], ?_, ?_⟩
          · rw [← hpass]
            exact hchain.2.2.head_eq
          · intro x hx
            rcases List.mem_append.mp hx with hx | hx
            · exact hnone x hx
            · rw [List.mem_singleton.mp hx]
              exact heq
  · exact ⟨[], L.records, rfl, h.records.head_eq, by simp⟩

/-- A free takes the big block at {lit}`p`, if there is one, out of the layout. -/
theorem smpMpfreeBigpool_spec (hs : SoundEnv env) (h : Inv env pool L) {fuel p : Nat}
    {r : Status × Pool} (hrun : smpMpfreeBigpool fuel pool p = .ok r) :
    Inv env r.2 { L with bigs := L.bigs.filter fun c => c.addr ≠ p } ∧
      WritesApart L pool r.2 := by
  have hkeep : (∀ c ∈ L.bigs, c.addr ≠ p) →
      ({ L with bigs := L.bigs.filter fun c => c.addr ≠ p } : Layout) = L := by
    intro hall
    have hfilter : (L.bigs.filter fun c => c.addr ≠ p) = L.bigs :=
      List.filter_eq_self.mpr fun c hc => by simpa using hall c hc
    rw [hfilter]
  rcases Exec.bind_eq_ok.mp hrun with ⟨found, hloop, hrest⟩
  rcases findRecordPass_spec h hloop with ⟨rfl, hnone⟩ | ⟨bigP, hmem, rfl, hfound⟩
  · simp only [pure, Except.pure, Except.ok.injEq] at hrest
    subst hrest
    rw [hkeep]
    · exact ⟨h, WritesApart.refl _ _⟩
    · intro c hc heq
      rcases h.recorded c hc with ⟨r, hr, hra⟩
      exact hnone r hr (hra.trans heq)
  · simp only [pure, Except.pure, Except.ok.injEq] at hrest
    subst hrest
    by_cases hp : p = 0
    · -- freeing null clears a record that is free already
      have hnull : smpFree pool (pool.big bigP).alloc = pool := by simp [smpFree, hfound, hp]
      rw [hkeep]
      · rw [hnull]
        refine ⟨h.congr rfl rfl h.current rfl ?_ rfl fun b _ => ⟨rfl, rfl, rfl⟩,
          (WritesApart.refl L pool).cons (w := recordAt bigP) (fun c hc => ?_) rfl⟩
        · funext r
          by_cases heq : r = bigP
          · subst heq
            simp [Pool.setBig, ← hp, ← hfound]
          · simp [Pool.setBig, heq]
        · exact h.recordApart hmem hc
      · intro c hc heq
        have hpos := (h.trace.block hs (h.isLive c (by simp [Layout.owned, hc]))).1
        omega
    · have hbig : (smpFree pool (pool.big bigP).alloc).big = pool.big := by
        unfold smpFree
        split_ifs <;> rfl
      have hwrites : (smpFree pool (pool.big bigP).alloc).writes = pool.writes := by
        unfold smpFree
        split_ifs <;> rfl
      have hinv := h.freeRecord hmem (hfound ▸ hp)
      rw [hbig]
      constructor
      · rw [hfound] at hinv ⊢
        exact hinv
      · refine (WritesApart.refl L pool).cons (w := recordAt bigP) (fun c hc => ?_) ?_
        · exact h.recordApart hmem hc
        · simp [Pool.setBig, hwrites, recordAt]

end Mpool
end Smpcil
