import Smpcil.Pool.Refusals
import Smpcil.Pool.Release
import Smpcil.Pool.Window

/-!
# What a pool holds of its allocator

Everything that a pool got from the underlying allocator and did not give back is a block of its
chain, a big block of the client, or lost: a big request whose block was granted and whose record
was refused returns null, and nothing points to the block any more.

Main results:

- Definition {lit}`Accounted`: the runs of a client, with the blocks lost so far.
- Theorem {lit}`smpMpalloc_accounts`: a request keeps the accounts.
- Theorem {lit}`accounted_exactly`: the accounts of every run, and what its destruction leaves.
-/

namespace Smpcil
namespace Mpool

open Allocator Chains
open Loops (Pass loop)

variable {env : Env} {pool pool' : Pool} {L L' : Layout} {lost : List Block} {size fuel n m : Nat}

/-! ## Accounts -/

/-- The blocks of a layout, as the allocator knows them. -/
def Layout.whole (L : Layout) : List Block := L.blocks.map fun b => ⟨b, L.psize⟩

/-- Everything live is a block of the pool, a big block, or lost. -/
structure Accounts (pool : Pool) (L : Layout) (lost : List Block) : Prop where
  all : (live pool.history).Perm (L.whole ++ L.bigs ++ lost)
  pos : ∀ b ∈ lost, 0 < b.size

/-- What a request of {lit}`n` bytes loses if it is answered with {lit}`m`: a big block that was
granted although the answer is null. -/
def lostBy (env : Env) (pool : Pool) (n m : Nat) : List Block :=
  if m = 0 ∧ pool.max < n then ((env.place pool.history n).map fun q => ⟨q, n⟩).toList else []

/-- The runs of a client of a pool, with the blocks lost so far. -/
inductive Accounted (env : Env) (size : Nat) : Client → List Block → Prop where
  | create {data : Nat → PoolData} {big : Nat → BigPool} {pool : Pool} :
      smpMpoolCreate env data big size = .ok (some pool) → Accounted env size ⟨pool, [], []⟩ []
  | request {c : Client} {lost : List Block} {fuel n m : Nat} {pool : Pool} :
      Accounted env size c lost → smpMpalloc env fuel c.pool n = .ok (m, pool) →
      Accounted env size (c.served n m pool) (lostBy env c.pool n m ++ lost)
  | free {c : Client} {lost : List Block} {fuel p : Nat} {st : Status} {pool : Pool} :
      Accounted env size c lost → smpMpfreeBigpool fuel c.pool p = .ok (st, pool) →
      Accounted env size (c.freed p pool) lost

theorem Accounted.reachable {c : Client} (h : Accounted env size c lost) :
    Reachable env size c := by
  induction h with
  | create hcreate => exact .create hcreate
  | request _ hrun ih => exact ih.request hrun
  | free _ hrun ih => exact ih.free hrun

/-! ## Requests -/

/-- A new block is the last of the chain. -/
theorem mpallocBlockLink_blocks (h : Inv env pool L) {newP psize : Nat} {r : Nat × Pool}
    (hne : newP ≠ 0) (hnew : newP ∉ L.blocks)
    (hrun : mpallocBlockLink fuel pool newP psize size = .ok r) :
    Chain (fun b => (r.2.data b).next) r.2.addr (L.blocks ++ [newP]) := by
  unfold mpallocBlockLink at hrun
  have hinv₁ := h.newHeader
    ⟨smpAlignPtr (newP + sizeofPoolData) poolAlignment + size, newP + psize, 0, 0⟩ hnew
  have hheader : ((pool.setData newP
      ⟨smpAlignPtr (newP + sizeofPoolData) poolAlignment + size, newP + psize, 0, 0⟩).data
      newP).next = 0 := by simp [Pool.setData]
  rcases Exec.bind_eq_ok.mp hrun with ⟨⟨p, c, u⟩, hloop, hdone⟩
  simp only [Exec.pure_eq, Except.ok.injEq] at hdone
  generalize pool.setData newP
    ⟨smpAlignPtr (newP + sizeofPoolData) poolAlignment + size, newP + psize, 0, 0⟩ = pool₁
    at hloop hinv₁ hheader
  have hstart : Walked L pool₁ (pool₁.current, pool₁.current, pool₁) :=
    ⟨hinv₁.current, hinv₁.current, rfl, rfl, rfl, rfl, rfl, fun b => ⟨rfl, rfl, rfl⟩,
      fun b _ => rfl, WritesApart.refl _ _⟩
  rcases mpallocBlockPass_spec hinv₁ hstart hloop with ⟨hw, hlast⟩
  subst hdone
  have hnexts : ∀ b, b ≠ p → ((u.setNext p newP).data b).next = (pool₁.data b).next := by
    intro b hb
    simpa [Pool.setNext, Pool.setData, hb] using (hw.data b).2.2
  have hsame := (hw.data p).2.2
  simp only at hsame hlast
  rcases hinv₁.chain.exists_snoc hw.here (hsame.symm.trans hlast) with ⟨l, hblocks⟩
  have hnodup := hinv₁.chain.nodup
  rw [hblocks, List.nodup_append'] at hnodup
  have haddr : u.addr = pool₁.addr := hw.addr
  change Chain (fun b => ((u.setNext p newP).data b).next) u.addr (L.blocks ++ [newP])
  rw [haddr, hblocks, List.append_assoc]
  refine Chain.snoc (hblocks ▸ hinv₁.chain) hne ?_ ?_ ?_
  · intro b hb
    exact hnexts b fun heq => List.disjoint_left.mp hnodup.2.2 hb (by simp [heq])
  · simp [Pool.setNext, Pool.setData]
  · rw [hnexts newP fun heq => hnew (by simp [hblocks, heq]), hheader]

/-- A pool with layout {lit}`L` grew by the blocks {lit}`new`, and {lit}`got` was granted
besides. -/
structure Grown (L : Layout) (pool pool' : Pool) (new : List Nat) (got : List Block) : Prop where
  chain : Chain (fun b => (pool'.data b).next) pool'.addr (L.blocks ++ new)
  granted : live pool'.history = new.map (fun b => ⟨b, L.psize⟩) ++ (got ++ live pool.history)

namespace Grown

variable {new : List Nat} {got : List Block}

/-- The pool keeps its blocks. -/
theorem same (h : Inv env pool L) (haddr : pool'.addr = pool.addr)
    (hnext : ∀ b, (pool'.data b).next = (pool.data b).next)
    (hlive : live pool'.history = got ++ live pool.history) : Grown L pool pool' [] got := by
  constructor
  case chain =>
    rw [List.append_nil, haddr]
    exact h.chain.congr fun b _ => hnext b
  case granted => exact hlive

/-- Growing behind a grant. -/
theorem after {pool₁ : Pool} (h : Grown L pool₁ pool' new [])
    (hlive : live pool₁.history = got ++ live pool.history) :
    Grown L pool pool' new got := by
  constructor
  case chain => exact h.chain
  case granted => rw [h.granted, List.nil_append, hlive]

/-- The accounts of a pool that grew: what was granted besides its blocks is a big block of the
client, or lost. -/
theorem accounts {lost' : List Block} (h : Grown L pool pool' new got)
    (ha : Accounts pool L lost) (hinv : Inv env pool' L') (hpsize : L'.psize = L.psize)
    (hsplit : (L'.bigs ++ lost').Perm (got ++ (L.bigs ++ lost)))
    (hpos : ∀ b ∈ lost', 0 < b.size) : Accounts pool' L' lost' := by
  have hblocks : L'.blocks = L.blocks ++ new := hinv.chain.unique h.chain
  have hwhole : L'.whole = L.whole ++ new.map fun b => ⟨b, L.psize⟩ := by
    rw [Layout.whole, Layout.whole, hblocks, hpsize, List.map_append]
  refine ⟨?_, hpos⟩
  rw [h.granted, hwhole]
  generalize new.map (fun b => (⟨b, L.psize⟩ : Block)) = added
  calc List.Perm (added ++ (got ++ live pool.history))
        (added ++ (got ++ (L.whole ++ L.bigs ++ lost))) :=
        (ha.all.append_left got).append_left added
    List.Perm _ (added ++ (L.whole ++ (got ++ (L.bigs ++ lost)))) := by
        refine List.Perm.append_left added ?_
        simp only [← List.append_assoc]
        exact ((List.perm_append_comm.append_right _).append_right _)
    List.Perm _ (added ++ (L.whole ++ (L'.bigs ++ lost'))) :=
        (hsplit.symm.append_left L.whole).append_left added
    List.Perm _ (L.whole ++ added ++ L'.bigs ++ lost') := by
        simp only [← List.append_assoc]
        exact ((List.perm_append_comm.append_right _).append_right _)

end Grown

/-- A small request adds at most one block. -/
theorem smpMpalloc_grown_small (hs : SoundEnv env) (h : Inv env pool L) (hn : n ≤ pool.max)
    {r : Nat × Pool} (hrun : smpMpalloc env fuel pool n = .ok r) :
    ∃ new, Grown L pool r.2 new [] := by
  cases fuel with
  | zero => simp [smpMpalloc] at hrun
  | succ fuel =>
      rw [smpMpalloc, if_pos hn] at hrun
      rcases Exec.bind_eq_ok.mp hrun with ⟨found, -, hrest⟩
      cases found with
      | some room =>
          simp only [Exec.pure_eq, Except.ok.injEq] at hrest
          subst hrest
          exact ⟨[], Grown.same h rfl (fun b => Pool.setLast_next _ _ _ b) rfl⟩
      | none =>
          rcases h.memalign hs L.psize with ⟨hinv₁, hfresh⟩
          simp only [smpMpallocBlock, h.psize_eq hs] at hrest
          by_cases hnull : (smpMemalign env pool L.psize).1 = 0
          · rw [if_pos hnull, Except.ok.injEq] at hrest
            subst hrest
            refine ⟨[], Grown.same h rfl (fun b => rfl) ?_⟩
            simp only [smpMemalign, smpAlloc] at hnull ⊢
            cases hp : env.place pool.history L.psize with
            | none => simp
            | some q =>
                rw [hp, Option.getD_some] at hnull
                exact absurd hnull (Nat.pos_iff_ne_zero.mp (hs.nonzero hp))
          · rw [if_neg hnull] at hrest
            have hchain := mpallocBlockLink_blocks hinv₁ hnull
              (hinv₁.newBlock_notMem (hfresh hnull).2) hrest
            refine ⟨[(smpMemalign env pool L.psize).1], hchain, ?_⟩
            rw [mpallocBlockLink_history hrest]
            simp only [smpMemalign, smpAlloc] at hnull ⊢
            cases hp : env.place pool.history L.psize with
            | none => simp [hp] at hnull
            | some q => rfl

/-- Asking the allocator moves no block header. -/
theorem smpCalloc_data (env : Env) (pool : Pool) (n : Nat) :
    (smpCalloc env pool n).2.data = pool.data := by
  simp only [smpCalloc]
  split_ifs
  · rfl
  · rfl

/-- A big request is granted the block that it returns, if it returns one, and its record may
take a new block. -/
theorem smpMpalloc_grown_big (hs : SoundEnv env) (h : Inv env pool L)
    (hmax : sizeofBigPool ≤ pool.max) (hn : pool.max < n)
    (hrun : smpMpalloc env fuel pool n = .ok (m, pool')) :
    ∃ new got, Grown L pool pool' new got ∧
      got = ((env.place pool.history n).map fun q => (⟨q, n⟩ : Block)).toList ∧
      (m ≠ 0 → got = [⟨m, n⟩]) := by
  cases fuel with
  | zero => simp [smpMpalloc] at hrun
  | succ fuel =>
      rw [smpMpalloc, if_neg (Nat.not_le.mpr hn)] at hrun
      rcases smpCalloc_spec hs h (show 0 < n by omega) with ⟨haddr, hmax₁, -, -, hheld⟩
      simp only [smpMpallocBigpool] at hrun
      cases hp : env.place pool.history n with
      | none =>
          rcases smpCalloc_refused hp with ⟨hnull, hhistory⟩
          rw [if_pos hnull] at hrun
          simp only [Exec.pure_eq, Except.ok.injEq, Prod.mk.injEq] at hrun
          rcases hrun with ⟨rfl, rfl⟩
          refine ⟨[], [], Grown.same h haddr (fun b => ?_) ?_, rfl, fun hne => absurd rfl hne⟩
          · rw [smpCalloc_data]
          · rw [hhistory, Env.live_setError, Env.live_setError]
            rfl
      | some p =>
          rcases smpCalloc_granted hs hp with ⟨hfst, hne, hhistory⟩
          have hlive : live (smpCalloc env pool n).2.history = [⟨p, n⟩] ++ live pool.history := by
            rw [hhistory]
            rfl
          have hinv₁ := hheld (by rw [hfst]; exact hne)
          rw [hfst, if_neg hne] at hrun
          rcases Exec.bind_eq_ok.mp hrun with ⟨found, -, hrest⟩
          cases found with
          | some bigP =>
              simp only [Exec.pure_eq, Except.ok.injEq, Prod.mk.injEq] at hrest
              rcases hrest with ⟨rfl, rfl⟩
              refine ⟨[], _, Grown.same h haddr (fun b => ?_) hlive, rfl, fun _ => rfl⟩
              change ((smpCalloc env pool n).2.data b).next = _
              rw [smpCalloc_data]
          | none =>
              rcases Exec.bind_eq_ok.mp hrest with ⟨⟨bigP, pool₂⟩, hrec, hdone⟩
              rcases smpMpalloc_grown_small hs hinv₁ (hmax₁ ▸ hmax) hrec with ⟨new, hgrown⟩
              have hafter : Grown L pool pool₂ new [⟨p, n⟩] :=
                Grown.after ⟨hgrown.1, hgrown.2⟩ hlive
              by_cases hbigP : bigP = 0
              · simp only [hbigP, if_true, smpFree, ne_eq, not_true_eq_false, if_false,
                  Exec.pure_eq, Except.ok.injEq, Prod.mk.injEq] at hdone
                rcases hdone with ⟨rfl, rfl⟩
                exact ⟨new, _, hafter, rfl, fun hne => absurd rfl hne⟩
              · simp only [hbigP, if_false, Exec.pure_eq, Except.ok.injEq,
                  Prod.mk.injEq] at hdone
                rcases hdone with ⟨rfl, rfl⟩
                exact ⟨new, _, ⟨hafter.chain, hafter.granted⟩, rfl, fun _ => rfl⟩

/-- A request keeps the accounts. -/
theorem smpMpalloc_accounts (hs : SoundEnv env) (h : Inv env pool L)
    (hmax : sizeofBigPool ≤ pool.max) (ha : Accounts pool L lost)
    (hrun : smpMpalloc env fuel pool n = .ok (m, pool')) :
    ∃ L', Served env pool L n (m, pool') L' ∧
      Accounts pool' L' (lostBy env pool n m ++ lost) := by
  rcases smpMpalloc_spec hs h hrun with ⟨L', hserved⟩
  refine ⟨L', hserved, ?_⟩
  have hpos : ∀ b ∈ lostBy env pool n m ++ lost, 0 < b.size := by
    intro b hb
    rcases List.mem_append.mp hb with hb | hb
    · unfold lostBy at hb
      split_ifs at hb with hnull
      · simp only [Option.mem_toList, Option.map_eq_some_iff] at hb
        rcases hb with ⟨q, -, rfl⟩
        exact Nat.zero_lt_of_lt hnull.2
      · simp at hb
    · exact ha.pos b hb
  by_cases hn : n ≤ pool.max
  · rcases smpMpalloc_grown_small hs h hn hrun with ⟨new, hgrown⟩
    have hnone : lostBy env pool n m = [] := if_neg fun hboth => absurd hboth.2 (by omega)
    refine hgrown.accounts ha hserved.inv hserved.psize ?_ hpos
    rw [hnone]
    rcases hserved.region with ⟨-, -, hbigs⟩ | ⟨-, -, -, hbigs, -⟩ | ⟨-, hlt, -⟩
    · rw [hbigs]
      exact List.Perm.refl _
    · rw [hbigs]
      exact List.Perm.refl _
    · omega
  · rcases smpMpalloc_grown_big hs h hmax (by omega) hrun with ⟨new, got, hgrown, hgot, hret⟩
    refine hgrown.accounts ha hserved.inv hserved.psize ?_ hpos
    rcases hserved.region with ⟨hnull, -, hbigs⟩ | ⟨-, hle, -⟩ | ⟨hne, -, -, -, hbigs⟩
    · simp only at hnull
      have hall : lostBy env pool n m = got := by
        rw [hgot]
        exact if_pos ⟨hnull, by omega⟩
      rw [hall, hbigs, ← List.append_assoc, ← List.append_assoc]
      exact List.perm_append_comm.append_right _
    · exact absurd hle hn
    · simp only at hne hbigs
      have hnone : lostBy env pool n m = [] := if_neg fun hboth => hne hboth.1
      rw [hnone, hbigs, hret hne]
      exact List.Perm.refl _

/-! ## Frees -/

/-- Everything in the accounts is apart. -/
theorem Accounts.apart (hs : SoundEnv env) (h : Inv env pool L) (ha : Accounts pool L lost) :
    (L.whole ++ L.bigs ++ lost).Pairwise Apart :=
  (ha.all.pairwise_iff fun hab => hab.symm).mp (h.trace.apart hs)

/-- Blocks of positive size that are apart start at different addresses. -/
theorem addr_ne_of_apart {b c : Block} (h : Apart b c) (hb : 0 < b.size) (hc : 0 < c.size) :
    b.addr ≠ c.addr := by
  unfold Apart at h
  omega

/-- A block of the pool has room for its header. -/
theorem Inv.whole_pos (h : Inv env pool L) {b : Block} (hb : b ∈ L.whole) : 0 < b.size := by
  have hheader := h.header
  rcases List.mem_map.mp hb with ⟨a, -, rfl⟩
  unfold sizeofPool at hheader
  simp only
  omega

/-- A lost block starts where no block of the pool and no big block does. -/
theorem Accounts.lost_ne (hs : SoundEnv env) (h : Inv env pool L) (ha : Accounts pool L lost)
    {b c : Block} (hb : b ∈ lost) (hc : c ∈ L.whole ++ L.bigs) : c.addr ≠ b.addr := by
  have happ := (List.pairwise_append.mp (ha.apart hs h)).2.2 c hc b hb
  refine addr_ne_of_apart happ ?_ (ha.pos b hb)
  rcases List.mem_append.mp hc with hc | hc
  · exact h.whole_pos hc
  · exact h.bigPos c (List.mem_append_left _ hc)

/-- A block of the pool starts where no big block does. -/
theorem Accounts.whole_ne (hs : SoundEnv env) (h : Inv env pool L) (ha : Accounts pool L lost)
    {b c : Block} (hb : b ∈ L.whole) (hc : c ∈ L.bigs) : b.addr ≠ c.addr := by
  have happ := (List.pairwise_append.mp (List.pairwise_append.mp (ha.apart hs h)).1).2.2 b hb c hc
  exact addr_ne_of_apart happ (h.whole_pos hb) (h.bigPos c (List.mem_append_left _ hc))

/-- A free keeps the accounts. -/
theorem smpMpfreeBigpool_accounts (hs : SoundEnv env) (h : Inv env pool L)
    (ha : Accounts pool L lost) {p : Nat} {r : Status × Pool}
    (hrun : smpMpfreeBigpool fuel pool p = .ok r) :
    Accounts r.2 { L with bigs := L.bigs.filter fun c => c.addr ≠ p } lost := by
  -- without a big block at `p` nothing is freed
  have hkeep : (∀ c ∈ L.bigs, c.addr ≠ p) → live r.2.history = live pool.history →
      Accounts r.2 { L with bigs := L.bigs.filter fun c => c.addr ≠ p } lost := by
    intro hall hlive
    have hfilter : (L.bigs.filter fun c => c.addr ≠ p) = L.bigs :=
      List.filter_eq_self.mpr fun c hc => by simpa using hall c hc
    rw [hfilter]
    exact ⟨hlive ▸ ha.all, ha.pos⟩
  rcases Exec.bind_eq_ok.mp hrun with ⟨found, hloop, hrest⟩
  rcases findRecordPass_spec h hloop with ⟨rfl, hnone⟩ | ⟨bigP, hmem, rfl, hfound⟩
  · simp only [Exec.pure_eq, Except.ok.injEq] at hrest
    refine hkeep (fun c hc heq => ?_) (by rw [← hrest])
    rcases h.recorded c hc with ⟨r', hr', hra⟩
    exact hnone r' hr' (hra.trans heq)
  · simp only [Exec.pure_eq, Except.ok.injEq] at hrest
    subst hrest
    by_cases hp : p = 0
    · refine hkeep (fun c hc heq => ?_) ?_
      · have hpos := (h.trace.block hs (h.isLive c (by simp [Layout.owned, hc]))).1
        omega
      · simp [Pool.setBig, smpFree, hfound, hp]
    · rcases h.allocBig bigP hmem (hfound ▸ hp) with ⟨c, hc, hca⟩
      rw [hfound] at hca
      constructor
      case pos => exact ha.pos
      case all =>
        have hlive : live ((smpFree pool (pool.big bigP).alloc).setBig bigP
            { (smpFree pool (pool.big bigP).alloc).big bigP with alloc := 0 }).history =
            (live pool.history).filter fun b => b.addr ≠ p := by
          simp [Pool.setBig, smpFree, hfound, hp]
        have hwhole : (L.whole.filter fun b => b.addr ≠ p) = L.whole :=
          List.filter_eq_self.mpr fun b hb => by
            simpa [← hca] using ha.whole_ne hs h hb hc
        have hlost : (lost.filter fun b => b.addr ≠ p) = lost :=
          List.filter_eq_self.mpr fun b hb => by
            simpa [← hca] using (ha.lost_ne hs h hb (List.mem_append_right _ hc)).symm
        rw [hlive]
        refine (ha.all.filter _).trans ?_
        rw [List.filter_append, List.filter_append, hwhole, hlost]
        exact List.Perm.refl _

/-! ## The error text -/

theorem smpAlloc_keptOnce (hk : KeptOnce pool.history) :
    KeptOnce (smpAlloc env pool n).2.history := by
  have hasked : KeptOnce (.alloc n (env.place pool.history n) :: pool.history) := hk.congr rfl
  unfold smpAlloc
  simp only
  split_ifs
  · exact Env.keptOnce_setError hasked
  · exact hasked

theorem smpCalloc_keptOnce (hk : KeptOnce pool.history) :
    KeptOnce (smpCalloc env pool n).2.history := by
  unfold smpCalloc
  simp only
  split_ifs
  · exact smpAlloc_keptOnce hk
  · exact Env.keptOnce_setError (smpAlloc_keptOnce hk)

/-- A request keeps at most one buffer. -/
theorem smpMpalloc_keptOnce (hk : KeptOnce pool.history) {r : Nat × Pool}
    (hrun : smpMpalloc env fuel pool n = .ok r) : KeptOnce r.2.history := by
  induction fuel generalizing pool n r with
  | zero => simp [smpMpalloc] at hrun
  | succ fuel ih =>
      rw [smpMpalloc] at hrun
      by_cases hn : n ≤ pool.max
      · rw [if_pos hn, Exec.bind_eq_ok] at hrun
        rcases hrun with ⟨found, -, hrest⟩
        cases found with
        | some room =>
            simp only [Exec.pure_eq, Except.ok.injEq] at hrest
            exact hrest ▸ hk
        | none =>
            have hasked : KeptOnce (smpMemalign env pool
                (sizeOfDiff (pool.data pool.addr).dataEnd pool.addr)).2.history :=
              smpAlloc_keptOnce hk
            simp only [smpMpallocBlock] at hrest
            split_ifs at hrest
            · rw [Except.ok.injEq] at hrest
              exact hrest ▸ hasked
            · exact mpallocBlockLink_history hrest ▸ hasked
      · have hasked := @smpCalloc_keptOnce env _ n hk
        rw [if_neg hn, smpMpallocBigpool] at hrun
        simp only at hrun
        split_ifs at hrun
        · simp only [Exec.pure_eq, Except.ok.injEq] at hrun
          exact hrun ▸ hasked
        · rcases Exec.bind_eq_ok.mp hrun with ⟨found, -, hrest⟩
          cases found with
          | some bigP =>
              simp only [Exec.pure_eq, Except.ok.injEq] at hrest
              exact hrest ▸ hasked
          | none =>
              rcases Exec.bind_eq_ok.mp hrest with ⟨⟨bigP, pool₂⟩, hrec, hdone⟩
              have hkept := ih hasked hrec
              simp only at hdone
              split_ifs at hdone with hnull
              · simp only [hnull, smpFree, ne_eq, not_true_eq_false, if_false, Exec.pure_eq,
                  Except.ok.injEq] at hdone
                exact hdone ▸ hkept
              · simp only [Exec.pure_eq, Except.ok.injEq] at hdone
                exact hdone ▸ hkept

theorem smpMpfreeBigpool_kept {p : Nat} {r : Status × Pool}
    (hrun : smpMpfreeBigpool fuel pool p = .ok r) : kept r.2.history = kept pool.history := by
  rcases Exec.bind_eq_ok.mp hrun with ⟨found, -, hrest⟩
  cases found with
  | none =>
      simp only [Exec.pure_eq, Except.ok.injEq] at hrest
      rw [← hrest]
  | some bigP =>
      simp only [Exec.pure_eq, Except.ok.injEq] at hrest
      rw [← hrest]
      unfold smpFree Pool.setBig
      split_ifs <;> rfl

/-- At most one buffer in every run. -/
theorem Accounted.keptOnce {c : Client} (h : Accounted env size c lost) :
    KeptOnce c.pool.history := by
  induction h with
  | create hcreate =>
      rcases smpMpoolCreate_eq_some.mp hcreate with ⟨p, -, -, rfl⟩
      exact Or.inl rfl
  | @request c lost fuel n m pool _ hrun ih =>
      rw [Client.served_pool]
      exact smpMpalloc_keptOnce ih hrun
  | free _ hrun ih => exact ih.congr (smpMpfreeBigpool_kept hrun)

/-! ## Whole runs -/

/-- The accounts of a new pool. -/
theorem Accounts.create {data : Nat → PoolData} {big : Nat → BigPool}
    (hcreate : smpMpoolCreate env data big size = .ok (some pool)) :
    Accounts pool ⟨size, [pool.addr], [], [], [], []⟩ [] := by
  rcases smpMpoolCreate_eq_some.mp hcreate with ⟨p, -, -, rfl⟩
  exact ⟨List.Perm.refl _, by simp⟩

/-- The layout and the accounts of every run. -/
theorem Accounted.accounts (hs : SoundEnv env) (haligned : poolAlignment ∣ size)
    (hroom : sizeofPool + sizeofBigPool ≤ size) (hpage : sizeofBigPool ≤ env.pageSize)
    {c : Client} (h : Accounted env size c lost) :
    ∃ L, Inv env c.pool L ∧ Accounts c.pool L lost ∧ L.psize = size ∧ L.bigs = c.big := by
  induction h with
  | create hcreate =>
      exact ⟨_, smpMpoolCreate_spec hs haligned hcreate, Accounts.create hcreate, rfl, rfl⟩
  | @request c lost fuel n m pool hacc hrun ih =>
      rcases ih with ⟨L, hinv, ha, hpsize, hbig⟩
      have hmax := hacc.reachable.record_small hs haligned hroom hpage
      rcases smpMpalloc_accounts hs hinv hmax ha hrun with ⟨L', hserved, ha'⟩
      refine ⟨L', ?_, ?_, hserved.psize.trans hpsize, ?_⟩
      · rw [Client.served_pool]
        exact hserved.inv
      · rw [Client.served_pool]
        exact ha'
      · unfold Client.served
        rcases hserved.region with ⟨h₀, -, hb'⟩ | ⟨h₀, hle, -, hb', -⟩ | ⟨h₀, hlt, -, -, hb'⟩
        · simp only at h₀
          simp [h₀, hb', hbig]
        · simp only at h₀
          simp [h₀, hle, hb', hbig]
        · simp only at h₀ hb'
          simp [h₀, Nat.not_le.mpr hlt, hb', hbig]
  | @free c lost fuel p st pool hacc hrun ih =>
      rcases ih with ⟨L, hinv, ha, hpsize, hbig⟩
      refine ⟨_, (smpMpfreeBigpool_spec hs hinv hrun).1, smpMpfreeBigpool_accounts hs hinv ha hrun,
        hpsize, ?_⟩
      simp [Client.freed, hbig]

/-- The destruction of a pool leaves what was lost and an error text, and frees nothing twice. -/
theorem Accounts.destory (hs : SoundEnv env) (h : Inv env pool L) (ha : Accounts pool L lost)
    (hfrees : FreesLive pool.history) (hrecords : L.records.length < fuel)
    (hblocks : L.blocks.length < fuel) :
    ∃ pool', smpMpdestory fuel pool = .ok (.ok, pool') ∧ (live pool'.history).Perm lost ∧
      kept pool'.history = kept pool.history ∧ FreesLive pool'.history := by
  rcases smpMpdestory_spec hs h hrecords hblocks with ⟨pool', frees, hrun, hhistory, hperm⟩
  have hnodup : frees.Nodup := by
    rw [hperm.nodup_iff, List.nodup_append']
    refine ⟨h.chain.nodup, h.bigs_nodup, ?_⟩
    intro b hb hmem
    rcases List.mem_map.mp hmem with ⟨big, hc, heq⟩
    exact h.block_ne_big hb hc heq.symm
  have hmem : ∀ b : Block, b ∈ L.whole ++ L.bigs → b.addr ∈ frees := by
    intro b hb
    rw [hperm.mem_iff, List.mem_append]
    rcases List.mem_append.mp hb with hb | hb
    · rcases List.mem_map.mp hb with ⟨a, ha, rfl⟩
      exact Or.inl ha
    · exact Or.inr (List.mem_map_of_mem hb)
  refine ⟨pool', hrun, ?_, ?_, ?_⟩
  · rw [hhistory, live_frees]
    refine (ha.all.filter _).trans ?_
    have hgone : ((L.whole ++ L.bigs).filter fun b => b.addr ∉ frees) = [] :=
      List.filter_eq_nil_iff.mpr fun b hb => by simpa using hmem b hb
    have hleft : (lost.filter fun b => b.addr ∉ frees) = lost := by
      refine List.filter_eq_self.mpr fun b hb => ?_
      have hnot : b.addr ∉ frees := by
        intro hbad
        rw [hperm.mem_iff, List.mem_append] at hbad
        rcases hbad with hbad | hbad
        · exact ha.lost_ne hs h hb (c := ⟨b.addr, L.psize⟩)
            (List.mem_append_left _ (List.mem_map.mpr ⟨_, hbad, rfl⟩)) rfl
        · rcases List.mem_map.mp hbad with ⟨c, hc, heq⟩
          exact ha.lost_ne hs h hb (List.mem_append_right _ hc) heq
      simpa using hnot
    rw [List.filter_append, hgone, hleft]
    exact List.Perm.refl _
  · rw [hhistory]
    exact kept_frees _ _
  · rw [hhistory]
    refine hfrees.append hnodup fun a ha => ?_
    rcases List.mem_append.mp (hperm.mem_iff.mp ha) with ha | ha
    · exact ⟨_, h.blockLive ha, rfl⟩
    · rcases List.mem_map.mp ha with ⟨big, hc, heq⟩
      exact ⟨big, h.isLive big (by simp [Layout.owned, hc]), heq⟩

/-- In every run of requests and frees, under any answers of the underlying allocator, what is
live is exactly the chain of blocks, the big blocks of the client, and the blocks lost by big
requests that returned null although their block was granted; besides there is at most the one
buffer of an error text.  The destruction of the pool leaves exactly the lost blocks and that
buffer, and frees nothing twice. -/
theorem accounted_exactly (hs : SoundEnv env) (haligned : poolAlignment ∣ size)
    (hroom : sizeofPool + sizeofBigPool ≤ size) (hpage : sizeofBigPool ≤ env.pageSize)
    {c : Client} (h : Accounted env size c lost) :
    (∃ blocks, Chain (fun b => (c.pool.data b).next) c.pool.addr blocks ∧
      (live c.pool.history).Perm (blocks.map (fun b => ⟨b, size⟩) ++ c.big ++ lost)) ∧
    KeptOnce c.pool.history ∧
    ∃ pool' enough, (∀ fuel, enough ≤ fuel → smpMpdestory fuel c.pool = .ok (.ok, pool')) ∧
      (live pool'.history).Perm lost ∧ kept pool'.history = kept c.pool.history ∧
      FreesLive pool'.history := by
  rcases h.accounts hs haligned hroom hpage with ⟨L, hinv, ha, hpsize, hbig⟩
  refine ⟨⟨L.blocks, hinv.chain, ?_⟩, h.keptOnce, ?_⟩
  · rw [← hpsize, ← hbig]
    exact ha.all
  · have hrecords : L.records.length < L.records.length + L.blocks.length + 1 := by omega
    have hblocks : L.blocks.length < L.records.length + L.blocks.length + 1 := by omega
    rcases ha.destory hs hinv (h.reachable.freesLive hs haligned) hrecords hblocks with
      ⟨pool', hrun, hlive, hkept, hfrees⟩
    exact ⟨pool', _, fun fuel hfuel => smpMpdestory_mono hfuel hrun, hlive, hkept, hfrees⟩

/-- The allocator that answers the first {lit}`k` requests and refuses all later ones. -/
def firstAnswers (k : Nat) : Env where
  place h n := if h.length < k then bump poolAlignment (2 ^ 47) h n else none
  pageSize := 4096
  errno := false

theorem sound_firstAnswers (k : Nat) : SoundEnv (firstAnswers k) := by
  refine (bump_sound (by decide)).refuse fun {h n a} hp => ?_
  unfold firstAnswers at hp
  simp only at hp
  split_ifs at hp
  exact hp

/-- A full pool whose second block is refused loses the big block that it needed a record for. -/
theorem accounted_exactly_sample : ∃ c pool' fuel,
    Accounted (firstAnswers 2) 128 c [⟨144, 80⟩] ∧ smpMpdestory fuel c.pool = .ok (.ok, pool') ∧
      (live pool'.history).Perm [⟨144, 80⟩] := by
  have hcreate : Accounted (firstAnswers 2) 128 _ _ :=
    @Accounted.create _ _ (fun _ => ⟨0, 0, 0, 0⟩) (fun _ => ⟨0, 0⟩) _ rfl
  have hsmall := @Accounted.request _ _ _ _ _ 72 64 _ hcreate
    (smpMpalloc_fits _ 0 (by decide) (by decide))
  have hbig := @Accounted.request _ _ _ _ 2 80 0 _ hsmall rfl
  rcases accounted_exactly (sound_firstAnswers 2) (by decide) (by decide) (by decide) hbig with
    ⟨-, -, pool', enough, hrun, hlive, -, -⟩
  exact ⟨_, pool', enough, hbig, hrun enough (Nat.le_refl _), hlive⟩

end Mpool
end Smpcil
