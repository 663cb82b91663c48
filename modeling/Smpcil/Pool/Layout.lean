import Smpcil.Pool.Model
import Smpcil.Foundations.Chain
import Mathlib.Data.List.Perm.Basic

/-!
# The layout of a pool

The invariant of a pool: which addresses its blocks, its records, the regions it handed
out and the big blocks it holds occupy.  Regions and records are carved from the data
areas of the blocks; everything else is whole blocks of the underlying allocator.

Main results:

- Definition {lit}`Inv`: the invariant, relative to a {lit}`Layout`.
- Theorem {lit}`Inv.headerApart`: block headers and records are apart from all regions.
- Theorem {lit}`Inv.fit`: in a block whose size is a multiple of the alignment the room
  computed by the code is the real room.
- Theorem {lit}`Inv.carve`: carving a region keeps the invariant.
-/

namespace Smpcil
namespace Mpool

open Allocator Chains
open Loops (Pass loop loop_partial)

/-- Where the parts of a pool lie. -/
structure Layout where
  /-- The size of each block, header included. -/
  psize : Nat
  /-- The headers of the blocks, along {lit}`data.next`. -/
  blocks : List Nat
  /-- The records of big requests, along {lit}`next`. -/
  records : List Nat
  /-- The regions handed out from blocks. -/
  small : List Block
  /-- The big blocks handed out and not freed. -/
  bigs : List Block
  /-- Big blocks without a record. -/
  held : List Block

/-- The header of a block; the first block also holds the pool struct. -/
def headerSize (first b : Nat) : Nat := if b = first then sizeofPool else sizeofPoolData

/-- The bytes of a record. -/
def recordAt (r : Nat) : Block := ⟨r, sizeofBigPool⟩

namespace Layout

/-- All regions carved from blocks. -/
def carved (L : Layout) : List Block := L.small ++ L.records.map recordAt

/-- All blocks of the underlying allocator. -/
def owned (L : Layout) : List Block :=
  L.blocks.map (fun b => ⟨b, L.psize⟩) ++ L.bigs ++ L.held

end Layout

/-- The invariant of a pool with layout {lit}`L`. -/
structure Inv (env : Env) (pool : Pool) (L : Layout) : Prop where
  trace : Trace env.place pool.history
  aligned : poolAlignment ∣ L.psize
  header : sizeofPool ≤ L.psize
  maxLe : pool.max + sizeofPool ≤ L.psize
  chain : Chain (fun b => (pool.data b).next) pool.addr L.blocks
  current : pool.current ∈ L.blocks
  blockEnd : ∀ b ∈ L.blocks, (pool.data b).dataEnd = b + L.psize
  blockLast : ∀ b ∈ L.blocks, b + headerSize pool.addr b ≤ (pool.data b).last ∧
    (pool.data b).last ≤ b + L.psize
  records : Chain (fun r => (pool.big r).next) pool.bigPool L.records
  inBlock : ∀ c ∈ L.carved, poolAlignment ∣ c.addr ∧
    ∃ b ∈ L.blocks, b + headerSize pool.addr b ≤ c.addr ∧ c.addr + c.size ≤ (pool.data b).last
  carvedApart : L.carved.Pairwise Apart
  isLive : ∀ c ∈ L.owned, c ∈ live pool.history
  ownedApart : L.owned.Pairwise Apart
  bigPos : ∀ c ∈ L.bigs ++ L.held, 0 < c.size
  allocBig : ∀ r ∈ L.records, (pool.big r).alloc ≠ 0 →
    ∃ c ∈ L.bigs, c.addr = (pool.big r).alloc
  allocInj : ∀ r ∈ L.records, ∀ r' ∈ L.records, (pool.big r).alloc ≠ 0 →
    (pool.big r).alloc = (pool.big r').alloc → r = r'
  recorded : ∀ c ∈ L.bigs, ∃ r ∈ L.records, (pool.big r).alloc = c.addr
  tiny : pool.max < sizeofBigPool → L.records = []

variable {env : Env} {pool : Pool} {L : Layout}

/-- The contract of the underlying allocator: blocks are aligned for the pool and lie in
the user part of a 64-bit address space. -/
abbrev SoundEnv (env : Env) : Prop := Sound poolAlignment (2 ^ 47) env.place

/-- The bump allocator with pages of {lit}`pageSize` bytes, before any error. -/
def bumpEnv (pageSize : Nat) : Env := ⟨bump poolAlignment (2 ^ 47), pageSize, false⟩

theorem bumpEnv_sound (pageSize : Nat) : SoundEnv (bumpEnv pageSize) := bump_sound (by decide)

theorem headerSize_le (first b : Nat) :
    sizeofPoolData ≤ headerSize first b ∧ headerSize first b ≤ sizeofPool := by
  unfold headerSize sizeofPool sizeofPoolData
  split <;> omega

namespace Inv

/-- A block of the pool is a live block of the allocator. -/
theorem blockLive (h : Inv env pool L) {b : Nat} (hb : b ∈ L.blocks) :
    ⟨b, L.psize⟩ ∈ live pool.history :=
  h.isLive _ (by simp [Layout.owned, hb])

theorem blockAddr (h : Inv env pool L) (hs : SoundEnv env) {b : Nat} (hb : b ∈ L.blocks) :
    0 < b ∧ poolAlignment ∣ b ∧ b + L.psize ≤ 2 ^ 47 :=
  h.trace.block hs (h.blockLive hb)

theorem first_mem (h : Inv env pool L) : pool.addr ∈ L.blocks := by
  have hhead := h.chain.head_eq
  have hcur := h.current
  cases hbs : L.blocks with
  | nil => simp [hbs] at hcur
  | cons b bs =>
      rw [hbs] at hhead
      simp [hhead]

/-- Two blocks of the pool are apart. -/
theorem blocksApart (h : Inv env pool L) {b b' : Nat} (hb : b ∈ L.blocks) (hb' : b' ∈ L.blocks)
    (hne : b ≠ b') : Apart ⟨b, L.psize⟩ ⟨b', L.psize⟩ := by
  apply h.ownedApart.forall
  · simp [Layout.owned, hb]
  · simp [Layout.owned, hb']
  · simp [hne]

/-- A block of the pool is apart from every big block. -/
theorem bigApart (h : Inv env pool L) {b : Nat} {c : Block} (hb : b ∈ L.blocks)
    (hc : c ∈ L.bigs) : Apart ⟨b, L.psize⟩ c := by
  have happ := h.ownedApart
  rw [Layout.owned, List.append_assoc, List.pairwise_append] at happ
  exact happ.2.2 _ (by simp [hb]) c (by simp [hc])

/-- A carved region lies in a block. -/
theorem carvedWithin (h : Inv env pool L) {c : Block} (hc : c ∈ L.carved) :
    ∃ b ∈ L.blocks, Within c ⟨b, L.psize⟩ := by
  rcases (h.inBlock c hc).2 with ⟨b, hb, hlo, hhi⟩
  have hlast := h.blockLast b hb
  refine ⟨b, hb, ?_, ?_⟩
  · simp only
    omega
  · simp only
    omega

/-- A part of a block that lies outside what was carved from it is apart from all
regions and records of the pool. -/
theorem apart_of_block (h : Inv env pool L) {b : Nat} (hb : b ∈ L.blocks) {w : Block}
    (hw : Within w ⟨b, L.psize⟩)
    (hout : w.addr + w.size ≤ b + headerSize pool.addr b ∨ (pool.data b).last ≤ w.addr)
    {c : Block} (hc : c ∈ L.carved ++ L.bigs) : Apart w c := by
  rcases List.mem_append.mp hc with hc | hc
  · rcases (h.inBlock c hc).2 with ⟨b', hb', hlo, hhi⟩
    by_cases heq : b = b'
    · subst heq
      unfold Apart
      omega
    · rcases h.blockLast b' hb' with ⟨hlast, hend⟩
      refine hw.apart (show Within c ⟨b', L.psize⟩ from ?_) (h.blocksApart hb hb' heq)
      unfold Within
      simp only
      omega
  · exact hw.apart (Within.refl c) (h.bigApart hb hc)

/-- The header of a block is apart from all regions and records. -/
theorem headerApart (h : Inv env pool L) {b : Nat} (hb : b ∈ L.blocks) {size : Nat}
    (hsize : size ≤ headerSize pool.addr b) {c : Block} (hc : c ∈ L.carved ++ L.bigs) :
    Apart ⟨b, size⟩ c := by
  have hheader := h.header
  have hle := (headerSize_le pool.addr b).2
  refine h.apart_of_block (w := ⟨b, size⟩) hb ⟨Nat.le_refl _, ?_⟩ (Or.inl ?_) hc
  · simp only
    omega
  · simp only
    omega

theorem record_carved {r : Nat} (hr : r ∈ L.records) : recordAt r ∈ L.carved :=
  List.mem_append_right _ (List.mem_map_of_mem hr)

/-- A record is apart from all regions. -/
theorem recordApart (h : Inv env pool L) {r : Nat} (hr : r ∈ L.records) {c : Block}
    (hc : c ∈ L.small ++ L.bigs) : Apart (recordAt r) c := by
  rcases List.mem_append.mp hc with hc | hc
  · have happ := h.carvedApart
    rw [Layout.carved, List.pairwise_append] at happ
    exact (happ.2.2 c hc (recordAt r) (List.mem_map_of_mem hr)).symm
  · rcases h.carvedWithin (record_carved hr) with ⟨b, hb, hw⟩
    exact hw.apart (Within.refl c) (h.bigApart hb hc)

/-- The regions handed out are apart from each other. -/
theorem regionsApart (h : Inv env pool L) : (L.small ++ L.bigs).Pairwise Apart := by
  have hcarved := h.carvedApart
  have howned := h.ownedApart
  rw [Layout.carved, List.pairwise_append] at hcarved
  rw [Layout.owned, List.append_assoc, List.pairwise_append, List.pairwise_append] at howned
  refine List.pairwise_append.mpr ⟨hcarved.1, howned.2.1.1, ?_⟩
  intro c hc c' hc'
  rcases h.carvedWithin (List.mem_append_left _ hc) with ⟨b, hb, hw⟩
  exact hw.apart (Within.refl c') (h.bigApart hb hc')

/-- The regions handed out are aligned, not null and in the address space. -/
theorem regionAddr (h : Inv env pool L) (hs : SoundEnv env) {c : Block}
    (hc : c ∈ L.small ++ L.bigs) :
    0 < c.addr ∧ poolAlignment ∣ c.addr ∧ c.addr + c.size ≤ 2 ^ 47 := by
  rcases List.mem_append.mp hc with hc | hc
  · have hcarved : c ∈ L.carved := List.mem_append_left _ hc
    rcases h.carvedWithin hcarved with ⟨b, hb, hlo, hhi⟩
    have haddr := h.blockAddr hs hb
    simp only at hlo hhi
    exact ⟨by omega, (h.inBlock c hcarved).1, by omega⟩
  · exact h.trace.block hs (h.isLive c (by simp [Layout.owned, hc]))

end Inv

/-! ## Room in a block -/

/-- Rounding up to a multiple of 8 in a 64-bit word. -/
theorem smpAlignPtr_spec {p : Nat} (hp : p ≤ 2 ^ 47) :
    p ≤ smpAlignPtr p poolAlignment ∧ poolAlignment ∣ smpAlignPtr p poolAlignment ∧
      smpAlignPtr p poolAlignment < p + poolAlignment := by
  unfold smpAlignPtr poolAlignment
  rw [Nat.mod_eq_of_lt (by omega)]
  refine ⟨by omega, Nat.dvd_mul_left _ _, by omega⟩

/-- An aligned address is its own rounding. -/
theorem smpAlignPtr_self {p : Nat} (hp : p ≤ 2 ^ 47) (hdvd : poolAlignment ∣ p) :
    smpAlignPtr p poolAlignment = p := by
  unfold smpAlignPtr poolAlignment at *
  rw [Nat.mod_eq_of_lt (by omega)]
  omega

/-- In the address space a difference that is not negative is exact. -/
theorem sizeOfDiff_of_le {p q : Nat} (hp : p ≤ 2 ^ 47) (hle : q ≤ p) :
    sizeOfDiff p q = p - q := by
  unfold sizeOfDiff
  omega

namespace Inv

/-- The next free address of a block and the room behind it, as the code computes them. -/
theorem fit (h : Inv env pool L) (hs : SoundEnv env) {b : Nat} (hb : b ∈ L.blocks) :
    (pool.data b).last ≤ smpAlignPtr (pool.data b).last poolAlignment ∧
      poolAlignment ∣ smpAlignPtr (pool.data b).last poolAlignment ∧
      smpAlignPtr (pool.data b).last poolAlignment ≤ b + L.psize ∧
      sizeOfDiff (pool.data b).dataEnd (smpAlignPtr (pool.data b).last poolAlignment) =
        b + L.psize - smpAlignPtr (pool.data b).last poolAlignment := by
  rcases h.blockAddr hs hb with ⟨-, hdvd, hbound⟩
  rcases h.blockLast b hb with ⟨-, hlast⟩
  rcases smpAlignPtr_spec (p := (pool.data b).last) (by omega) with ⟨hle, hm, hlt⟩
  have hend : smpAlignPtr (pool.data b).last poolAlignment ≤ b + L.psize := by
    have hend := h.aligned
    unfold poolAlignment at *
    omega
  refine ⟨hle, hm, hend, ?_⟩
  rw [h.blockEnd b hb]
  exact sizeOfDiff_of_le hbound hend

/-- The invariant does not depend on the failure counters and the write log. -/
theorem congr (h : Inv env pool L) {pool' : Pool} (haddr : pool'.addr = pool.addr)
    (hmax : pool'.max = pool.max) (hcurrent : pool'.current ∈ L.blocks)
    (hbigPool : pool'.bigPool = pool.bigPool) (hbig : pool'.big = pool.big)
    (hhistory : pool'.history = pool.history)
    (hdata : ∀ b ∈ L.blocks, (pool'.data b).next = (pool.data b).next ∧
      (pool'.data b).last = (pool.data b).last ∧
      (pool'.data b).dataEnd = (pool.data b).dataEnd) : Inv env pool' L := by
  constructor
  case trace => exact hhistory ▸ h.trace
  case aligned => exact h.aligned
  case header => exact h.header
  case maxLe => exact hmax ▸ h.maxLe
  case chain =>
    rw [haddr]
    exact h.chain.congr fun b hb => (hdata b hb).1
  case current => exact hcurrent
  case blockEnd =>
    intro b hb
    rw [(hdata b hb).2.2]
    exact h.blockEnd b hb
  case blockLast =>
    intro b hb
    rw [(hdata b hb).2.1, haddr]
    exact h.blockLast b hb
  case records =>
    rw [hbigPool, hbig]
    exact h.records
  case inBlock =>
    intro c hc
    rcases h.inBlock c hc with ⟨hdvd, b, hb, hlo, hhi⟩
    refine ⟨hdvd, b, hb, ?_, ?_⟩
    · rwa [haddr]
    · rwa [(hdata b hb).2.1]
  case carvedApart => exact h.carvedApart
  case isLive =>
    rw [hhistory]
    exact h.isLive
  case ownedApart => exact h.ownedApart
  case bigPos => exact h.bigPos
  case allocBig =>
    rw [hbig]
    exact h.allocBig
  case allocInj =>
    rw [hbig]
    exact h.allocInj
  case recorded =>
    rw [hbig]
    exact h.recorded
  case tiny =>
    rw [hmax]
    exact h.tiny

/-- Carving a region from the free room of a block. -/
theorem carve (h : Inv env pool L) {b m size : Nat} (hb : b ∈ L.blocks)
    (hm : poolAlignment ∣ m) (hlast : (pool.data b).last ≤ m) (hend : m + size ≤ b + L.psize) :
    Inv env (pool.setLast b (m + size)) { L with small := ⟨m, size⟩ :: L.small } := by
  have hheader := (h.blockLast b hb).1
  have hdata : ∀ b', ((pool.setLast b (m + size)).data b').next = (pool.data b').next ∧
      ((pool.setLast b (m + size)).data b').dataEnd = (pool.data b').dataEnd ∧
      ((pool.setLast b (m + size)).data b').last =
        if b' = b then m + size else (pool.data b').last := by
    intro b'
    by_cases heq : b' = b <;> simp [Pool.setLast, Pool.setData, heq]
  -- the new region lies behind everything carved from its block so far
  have hnew : ∀ c ∈ L.carved, Apart ⟨m, size⟩ c := by
    intro c hc
    refine h.apart_of_block hb ⟨?_, hend⟩ (Or.inr hlast) (List.mem_append_left _ hc)
    simp only
    omega
  constructor
  case trace => exact h.trace
  case aligned => exact h.aligned
  case header => exact h.header
  case maxLe => exact h.maxLe
  case chain => exact h.chain.congr fun b' _ => (hdata b').1
  case current => exact h.current
  case blockEnd =>
    intro b' hb'
    rw [(hdata b').2.1]
    exact h.blockEnd b' hb'
  case blockLast =>
    intro b' hb'
    have hold := h.blockLast b' hb'
    have haddr : (pool.setLast b (m + size)).addr = pool.addr := rfl
    rw [(hdata b').2.2, haddr]
    split_ifs with heq
    · subst heq
      simp only
      omega
    · exact hold
  case records => exact h.records
  case inBlock =>
    intro c hc
    rcases List.mem_cons.mp hc with rfl | hc
    · refine ⟨hm, b, hb, ?_, ?_⟩
      · have haddr : (pool.setLast b (m + size)).addr = pool.addr := rfl
        rw [haddr]
        simp only
        omega
      · rw [(hdata b).2.2]
        simp
    · rcases h.inBlock c hc with ⟨hdvd, b', hb', hlo, hhi⟩
      refine ⟨hdvd, b', hb', hlo, ?_⟩
      rw [(hdata b').2.2]
      split_ifs with heq
      · subst heq
        omega
      · exact hhi
  case carvedApart => exact List.pairwise_cons.mpr ⟨hnew, h.carvedApart⟩
  case isLive => exact h.isLive
  case ownedApart => exact h.ownedApart
  case bigPos => exact h.bigPos
  case allocBig => exact h.allocBig
  case allocInj => exact h.allocInj
  case recorded => exact h.recorded
  case tiny => exact h.tiny

end Inv

end Mpool
end Smpcil
