import Smpcil.Pool.Serving

/-!
# How far a request looks

A request starts its search at `current`, and every new block counts a failure for the
blocks that had no room.  The blocks from `current` on are the window of the pool.  Its
failure counters are fixed by the position in it, so `current` moves on in time and the
window never holds more than seven blocks.

Main results:

- Definition {lit}`Window`: the blocks from `current` on, with their failure counters.
- Theorem {lit}`Reachable.window`: the window in every reachable state.
- Theorem {lit}`requests_bounded`: the number of passes of a request does not depend on the number
  of blocks and records.
-/

namespace Smpcil
namespace Mpool

open Allocator Chains
open Loops (Pass loop loop_partial loop_mono)

variable {env : Env} {pool pool' : Pool} {L : Layout} {seg : List Nat} {size fuel : Nat}

/-- The number of blocks that a request looks at, at most. -/
def windowSize : Nat := 7

/-- A block in front of {lit}`k` others has failed {lit}`k - 1` times. -/
def Counted (failure : Nat → Nat) (seg : List Nat) : Prop :=
  ∀ l b t, seg = l ++ b :: t → failure b = t.length - 1

/-- The blocks from `current` on. -/
structure Window (pool : Pool) (seg : List Nat) : Prop where
  chain : Chain (fun b => (pool.data b).next) pool.current seg
  nonempty : seg ≠ []
  short : seg.length ≤ windowSize
  failures : Counted (fun b => (pool.data b).failure) seg

namespace Counted

variable {f f' : Nat → Nat} {a p q : Nat} {l : List Nat}

theorem singleton (hp : f p = 0) : Counted f [p] := by
  intro l b t hsplit
  rcases List.append_eq_singleton_iff.mp hsplit.symm with ⟨-, hbt⟩ | ⟨-, hbt⟩
  · simp only [List.cons.injEq] at hbt
    simp [hbt.1, hbt.2, hp]
  · simp at hbt

theorem tail (h : Counted f (a :: l)) : Counted f l := by
  intro s b t hsplit
  exact h (a :: s) b t (by simp [hsplit])

theorem congr (h : Counted f l) (hsame : ∀ b ∈ l, f' b = f b) : Counted f' l := by
  intro s b t hsplit
  rw [hsame b (by simp [hsplit])]
  exact h s b t hsplit

/-- With a new block at the end every block but the last one fails once more. -/
theorem snoc (h : Counted f (l ++ [p])) (hcount : ∀ b ∈ l, f' b = f b + 1) (hlast : f' p = f p)
    (hnew : f' q = 0) : Counted f' (l ++ [p] ++ [q]) := by
  intro s b t hsplit
  rcases List.eq_nil_or_concat t with rfl | ⟨t, c, rfl⟩
  · have hb : q = b := by simpa using congrArg List.getLast? hsplit
    rw [← hb, hnew]
    rfl
  · rw [List.concat_eq_append, ← List.cons_append, ← List.append_assoc] at hsplit
    rcases List.append_inj' hsplit rfl with ⟨hseg, -⟩
    have hold := h s b t hseg
    rcases List.eq_nil_or_concat t with rfl | ⟨t, c', rfl⟩
    · have hb : p = b := by simpa using congrArg List.getLast? hseg
      rw [← hb] at hold ⊢
      rw [hlast, hold]
      rfl
    · have hbl : b ∈ l := by
        rw [List.concat_eq_append, ← List.cons_append, ← List.append_assoc] at hseg
        rw [(List.append_inj' hseg rfl).1]
        simp
      rw [hcount b hbl, hold]
      simp

end Counted

namespace Window

theorem current_mem (h : Window pool seg) : pool.current ∈ seg := by
  rcases h.chain.head_mem with hnull | hmem
  · have hchain := h.chain
    rw [hnull] at hchain
    exact absurd hchain.eq_nil h.nonempty
  · exact hmem

/-- The window is the end of the chain of blocks. -/
theorem suffix (h : Window pool seg) {a : Nat} {blocks : List Nat}
    (hchain : Chain (fun b => (pool.data b).next) a blocks) (hcurrent : pool.current ∈ blocks) :
    seg <:+ blocks := by
  rcases List.append_of_mem hcurrent with ⟨s, t, rfl⟩
  have hdrop : Chain (fun b => (pool.data b).next) pool.current (pool.current :: t) :=
    hchain.drop
  rw [h.chain.unique hdrop]
  exact List.suffix_append s _

/-- The window depends on the links and the failure counters of its blocks only. -/
theorem congr (h : Window pool seg) (hcurrent : pool'.current = pool.current)
    (hdata : ∀ b ∈ seg, (pool'.data b).next = (pool.data b).next ∧
      (pool'.data b).failure = (pool.data b).failure) : Window pool' seg := by
  constructor
  case chain =>
    rw [hcurrent]
    exact h.chain.congr fun b hb => (hdata b hb).1
  case nonempty => exact h.nonempty
  case short => exact h.short
  case failures => exact h.failures.congr fun b hb => (hdata b hb).2

/-- What is carved from a block moves no link and counts no failure. -/
theorem setLast (h : Window pool seg) (b v : Nat) : Window (pool.setLast b v) seg := by
  have hlinks : ∀ c ∈ seg, ((pool.setLast b v).data c).next = (pool.data c).next ∧
      ((pool.setLast b v).data c).failure = (pool.data c).failure := by
    intro c _
    by_cases heq : c = b <;> simp [Pool.setLast, Pool.setData, heq]
  exact h.congr rfl hlinks

/-- A pool of one block. -/
theorem create {data : Nat → PoolData} {big : Nat → BigPool} (hs : SoundEnv env)
    (hcreate : smpMpoolCreate env data big size = .ok (some pool)) : Window pool [pool.addr] := by
  rcases smpMpoolCreate_eq_some.mp hcreate with ⟨p, hp, -, rfl⟩
  have hne : p ≠ 0 := Nat.pos_iff_ne_zero.mp (hs.nonzero hp)
  constructor
  case chain => exact ⟨rfl, hne, by simp [newPool]⟩
  case nonempty => simp
  case short => exact Nat.le_of_ble_eq_true rfl
  case failures => exact Counted.singleton (by simp [newPool])

/-! ## A new block -/

/-- The walk of `smp_mpalloc_block` over the window, {lit}`l` behind it: the blocks behind have
failed once more, and the first of seven is left behind. -/
structure Walk (pool : Pool) (seg : List Nat) (s : Nat × Nat × Pool) (l t : List Nat) : Prop where
  split : seg = l ++ s.1 :: t
  next : ∀ b, (s.2.2.data b).next = (pool.data b).next
  behind : ∀ b ∈ l, (s.2.2.data b).failure = (pool.data b).failure + 1
  ahead : ∀ b, b ∉ l → (s.2.2.data b).failure = (pool.data b).failure
  current : s.2.1 =
    if l ≠ [] ∧ seg.length = windowSize then (pool.data pool.current).next else pool.current

/-- A step of the walk. -/
theorem Walk.step (h : Window pool seg) {p c q : Nat} {u : Pool} {l t : List Nat}
    (hw : Walk pool seg (p, c, u) l (q :: t)) :
    Walk pool seg (q, if (u.data p).failure > 4 then q else c,
      u.setFailure p (((u.data p).failure + 1) % 2 ^ 32)) (l ++ [p]) t := by
  have hsplit : seg = l ++ p :: q :: t := hw.split
  have hnodup := h.chain.nodup
  rw [hsplit, List.nodup_append'] at hnodup
  have hpl : p ∉ l := fun hmem => List.disjoint_left.mp hnodup.2.2 hmem (by simp)
  have hold : (u.data p).failure = t.length := by
    have hcount := h.failures l p (q :: t) hsplit
    simp only [List.length_cons, Nat.add_sub_cancel] at hcount
    exact (hw.ahead p hpl).trans hcount
  have hlen : l.length + t.length + 2 ≤ windowSize := by
    have hshort := h.short
    rw [hsplit, List.length_append, List.length_cons, List.length_cons] at hshort
    omega
  have hsmall : (t.length + 1) % 2 ^ 32 = t.length + 1 := by
    unfold windowSize at hlen
    omega
  constructor
  case split => simp [hsplit]
  case next =>
    intro b
    rw [Pool.setFailure_next]
    exact hw.next b
  case behind =>
    intro b hb
    rcases List.mem_append.mp hb with hb | hb
    · have hne : b ≠ p := fun heq => hpl (heq ▸ hb)
      simpa [Pool.setFailure, Pool.setData, hne] using hw.behind b hb
    · rw [List.mem_singleton.mp hb]
      have hahead := hw.ahead p hpl
      simp only at hahead
      rw [← hahead, hold, hsmall]
      simp [Pool.setFailure, Pool.setData]
  case ahead =>
    intro b hb
    rw [List.mem_append, List.mem_singleton, not_or] at hb
    simpa [Pool.setFailure, Pool.setData, hb.2] using hw.ahead b hb.1
  case current =>
    have hcurrent := hw.current
    have hlength : seg.length = l.length + t.length + 2 := by
      rw [hsplit, List.length_append, List.length_cons, List.length_cons]
      omega
    simp only [hold] at hcurrent ⊢
    cases l with
    | nil =>
        -- the first block of the window
        have hp : pool.current = p := by
          have hchain := h.chain
          rw [hsplit] at hchain
          exact hchain.1
        have hq : (pool.data p).next = q := by
          have hchain := h.chain
          rw [hsplit] at hchain
          exact hchain.2.2.1
        simp only [List.length_nil, Nat.zero_add] at hlength hlen
        by_cases hfull : t.length > 4
        · have hseven : seg.length = windowSize := by
            unfold windowSize at *
            omega
          simp [hfull, hseven, hp, hq]
        · have hless : seg.length ≠ windowSize := by
            unfold windowSize
            omega
          simpa [hfull, hless] using hcurrent
    | cons a l =>
        have hnot : ¬ t.length > 4 := by
          simp only [List.length_cons] at hlen
          unfold windowSize at hlen
          omega
        simpa [hnot] using hcurrent

/-- The walk ends at the last block of the window. -/
theorem walk (h : Window pool seg) {p c : Nat} {u : Pool}
    (hrun : loop .diverged mpallocBlockPass fuel (pool.current, pool.current, pool) =
      .ok (p, c, u)) : ∃ l, Walk pool seg (p, c, u) l [] := by
  refine loop_partial (fun s => ∃ l t, Walk pool seg s l t)
    (fun s => ∃ l, Walk pool seg s l []) ?_ ?_ ?_ hrun
  · rintro ⟨p, c, u⟩ r ⟨l, t, hw⟩ hpass
    by_cases hnext : (u.data p).next = 0
    · simp only [mpallocBlockPass, hnext, ne_eq, not_true_eq_false, if_false, Except.ok.injEq,
        Pass.done.injEq] at hpass
      subst hpass
      have hsplit := hw.split
      simp only at hsplit
      have hchain := h.chain
      rw [hsplit] at hchain
      cases t with
      | nil => exact ⟨l, hw⟩
      | cons q t =>
          have hq : (pool.data p).next = q := hchain.next_eq
          have hsame := hw.next p
          simp only at hsame
          have hzero : q = 0 := by rw [← hq, ← hsame, hnext]
          exact absurd hzero (hchain.ne_zero (by simp))
    · simp [mpallocBlockPass, hnext] at hpass
  · rintro ⟨p, c, u⟩ s' ⟨l, t, hw⟩ hpass
    by_cases hnext : (u.data p).next = 0
    · simp [mpallocBlockPass, hnext] at hpass
    · simp only [mpallocBlockPass, hnext, ne_eq, not_false_eq_true, if_true,
        Pool.setFailure_next, Except.ok.injEq, Pass.again.injEq] at hpass
      subst hpass
      have hsplit := hw.split
      simp only at hsplit
      have hchain := h.chain
      rw [hsplit] at hchain
      have hsame := hw.next p
      simp only at hsame
      cases t with
      | nil => exact absurd (hsame.trans hchain.next_eq) hnext
      | cons q t =>
          have hq : (u.data p).next = q := hsame.trans hchain.next_eq
          rw [hq]
          exact ⟨l ++ [p], t, Walk.step h hw⟩
  · cases hseg : seg with
    | nil => exact absurd hseg h.nonempty
    | cons a t =>
        have hchain := h.chain
        rw [hseg] at hchain
        refine ⟨[], t, ⟨?_, fun _ => rfl, by simp, fun _ _ => rfl, by simp⟩⟩
        rw [hchain.1]
        rfl

/-- The block that follows the first one of a longer window is not null. -/
theorem Walk.current_ne (h : Window pool seg) {p c : Nat} {u : Pool} {l : List Nat}
    (hw : Walk pool seg (p, c, u) l []) : c ≠ 0 := by
  have hcurrent := hw.current
  have hsplit : seg = l ++ [p] := hw.split
  have hchain := h.chain
  simp only at hcurrent
  rw [hcurrent]
  split_ifs with hfull
  · rcases List.exists_cons_of_ne_nil hfull.1 with ⟨a, l, rfl⟩
    rw [hsplit] at hchain
    rw [hchain.1]
    cases l with
    | nil => exact fun heq => hchain.2.2.2.1 (hchain.2.2.1 ▸ heq)
    | cons b l => exact fun heq => hchain.2.2.2.1 (hchain.2.2.1 ▸ heq)
  · exact hchain.ne_zero h.current_mem

/-- A pool whose blocks from {lit}`start` on are the window with a new block behind it, where
`current` is the second of them if they are too many. -/
theorem shift (newP start : Nat) (hshort : seg.length ≤ windowSize)
    (hchain : Chain (fun b => (pool'.data b).next) start (seg ++ [newP]))
    (hcount : Counted (fun b => (pool'.data b).failure) (seg ++ [newP]))
    (hcurrent : pool'.current =
      if seg.length = windowSize then (pool'.data start).next else start) :
    ∃ seg', Window pool' seg' := by
  by_cases hfull : seg.length = windowSize
  · rw [if_pos hfull] at hcurrent
    cases seg with
    | nil => simp [windowSize] at hfull
    | cons a l =>
        rw [hchain.1] at hcurrent
        refine ⟨l ++ [newP], hcurrent ▸ hchain.2.2, by simp, ?_, hcount.tail⟩
        rw [List.length_append, List.length_singleton]
        exact hfull.le
  · rw [if_neg hfull] at hcurrent
    refine ⟨seg ++ [newP], hcurrent ▸ hchain, by simp, ?_, hcount⟩
    rw [List.length_append, List.length_singleton]
    omega

/-- The window after a new block {lit}`newP` is linked in. -/
theorem link (h : Window pool seg) {newP psize : Nat} {r : Nat × Pool} (hne : newP ≠ 0)
    (hnew : newP ∉ seg) (hrun : mpallocBlockLink fuel pool newP psize size = .ok r) :
    ∃ seg', Window r.2 seg' := by
  unfold mpallocBlockLink at hrun
  -- the header of the new block is stored before the walk
  have hstored : ∀ d : PoolData, Window (pool.setData newP d) seg := by
    intro d
    have hlinks : ∀ b ∈ seg, ((pool.setData newP d).data b).next = (pool.data b).next ∧
        ((pool.setData newP d).data b).failure = (pool.data b).failure := by
      intro b hb
      have hbne : b ≠ newP := fun heq => hnew (heq ▸ hb)
      simp [Pool.setData, hbne]
    exact h.congr rfl hlinks
  replace hstored := hstored
    ⟨smpAlignPtr (newP + sizeofPoolData) poolAlignment + size, newP + psize, 0, 0⟩
  have hheader : ((pool.setData newP
      ⟨smpAlignPtr (newP + sizeofPoolData) poolAlignment + size, newP + psize, 0, 0⟩).data
      newP) = ⟨_, newP + psize, 0, 0⟩ := Function.update_self _ _ _
  rcases Exec.bind_eq_ok.mp hrun with ⟨⟨p, c, u⟩, hloop, hdone⟩
  simp only [Exec.pure_eq, Except.ok.injEq] at hdone
  generalize pool.setData newP
    ⟨smpAlignPtr (newP + sizeofPoolData) poolAlignment + size, newP + psize, 0, 0⟩ = pool₁
    at hloop hstored hheader
  rcases hstored.walk hloop with ⟨l, hw⟩
  rw [if_pos (hw.current_ne hstored)] at hdone
  subst hdone
  have hsplit : seg = l ++ [p] := hw.split
  have hchain := hsplit ▸ hstored.chain
  have hnodup := hchain.nodup
  rw [List.nodup_append'] at hnodup
  have hpl : p ∉ l := fun hmem => List.disjoint_left.mp hnodup.2.2 hmem (by simp)
  have hpnew : p ≠ newP := fun heq => hnew (by simp [hsplit, heq])
  have hlnew : newP ∉ l := fun hmem => hnew (by simp [hsplit, hmem])
  have hnexts : ∀ b, b ≠ p →
      (((u.setNext p newP).setCurrent c).data b).next = (pool₁.data b).next := by
    intro b hb
    simpa [Pool.setCurrent, Pool.setNext, Pool.setData, hb] using hw.next b
  have hkeep : ∀ b, (((u.setNext p newP).setCurrent c).data b).failure = (u.data b).failure := by
    intro b
    by_cases heq : b = p <;> simp [Pool.setCurrent, Pool.setNext, Pool.setData, heq]
  refine shift newP pool₁.current h.short ?_ ?_ ?_
  · rw [hsplit, List.append_assoc]
    refine Chain.snoc hchain hne ?_ ?_ ?_
    · intro b hb
      exact hnexts b fun heq => hpl (heq ▸ hb)
    · simp [Pool.setCurrent, Pool.setNext, Pool.setData]
    · rw [hnexts newP hpnew.symm, hheader]
  · rw [hsplit]
    refine Counted.snoc (hsplit ▸ hstored.failures) ?_ ?_ ?_
    · intro b hb
      exact (hkeep b).trans (hw.behind b hb)
    · exact (hkeep p).trans (hw.ahead p hpl)
    · have hahead := (hkeep newP).trans (hw.ahead newP hlnew)
      rw [hheader] at hahead
      exact hahead
  · have hcurrent : c = _ := hw.current
    have hlength : seg.length = l.length + 1 := by
      rw [hsplit, List.length_append, List.length_singleton]
    by_cases hfull : seg.length = windowSize
    · have hl : l ≠ [] := by
        rintro rfl
        rw [hlength] at hfull
        simp [windowSize] at hfull
      rcases List.exists_cons_of_ne_nil hl with ⟨a, l', rfl⟩
      have hhead : pool₁.current = a := hchain.1
      have hap : pool₁.current ≠ p := by
        rw [hhead]
        exact fun heq => hpl (by simp [heq])
      rw [if_pos ⟨hl, hfull⟩] at hcurrent
      rw [if_pos hfull, hnexts _ hap]
      exact hcurrent
    · rw [if_neg fun hboth => hfull hboth.2] at hcurrent
      rw [if_neg hfull]
      exact hcurrent

end Window

/-! ## Requests -/

/-- A new block is not in the window yet. -/
theorem Window.newBlock_notMem (h : Window pool seg) (hinv : Inv env pool L) {newP : Nat}
    (hnew : newP ∉ L.blocks) : newP ∉ seg :=
  fun hmem => hnew ((h.suffix hinv.chain hinv.current).subset hmem)

/-- A request that no block has room for keeps the window. -/
theorem Window.mpallocBlock (hs : SoundEnv env) (h : Window pool seg) (hinv : Inv env pool L)
    {r : Nat × Pool} (hrun : smpMpallocBlock env fuel pool size = .ok r) :
    ∃ seg', Window r.2 seg' := by
  rcases hinv.memalign hs L.psize with ⟨hinv₁, hfresh⟩
  have hsame : Window (smpMemalign env pool L.psize).2 seg := h.congr rfl fun b _ => ⟨rfl, rfl⟩
  simp only [smpMpallocBlock, hinv.psize_eq hs] at hrun
  by_cases hnull : (smpMemalign env pool L.psize).1 = 0
  · rw [if_pos hnull, Except.ok.injEq] at hrun
    subst hrun
    exact ⟨seg, hsame⟩
  · rw [if_neg hnull] at hrun
    exact hsame.link hnull
      (hsame.newBlock_notMem hinv₁ (hinv.newBlock_notMem (hfresh hnull).2)) hrun

/-- The window of a zeroed block is that of the pool. -/
theorem Window.calloc (h : Window pool seg) (env : Env) (n : Nat) :
    Window (smpCalloc env pool n).2 seg := by
  simp only [smpCalloc]
  split_ifs
  · exact h.congr rfl fun b _ => ⟨rfl, rfl⟩
  · exact h.congr rfl fun b _ => ⟨rfl, rfl⟩

/-- Every request keeps the window. -/
theorem Window.mpalloc (hs : SoundEnv env) : ∀ {fuel : Nat} {pool : Pool} {L : Layout}
    {seg : List Nat} {n : Nat} {r : Nat × Pool}, Window pool seg → Inv env pool L →
      smpMpalloc env fuel pool n = .ok r → ∃ seg', Window r.2 seg' := by
  intro fuel
  induction fuel with
  | zero => intro pool L seg n r _ _ hrun; simp [smpMpalloc] at hrun
  | succ fuel ih =>
      intro pool L seg n r h hinv hrun
      unfold smpMpalloc at hrun
      by_cases hn : n ≤ pool.max
      · rw [if_pos hn] at hrun
        rcases Exec.bind_eq_ok.mp hrun with ⟨found, -, hrest⟩
        cases found with
        | none => exact h.mpallocBlock hs hinv hrest
        | some room =>
            simp only [Exec.pure_eq, Except.ok.injEq] at hrest
            subst hrest
            exact ⟨seg, h.setLast _ _⟩
      · rw [if_neg hn] at hrun
        have hcalloc := h.calloc env n
        rcases smpCalloc_spec hs hinv (show 0 < n by omega) with ⟨-, -, -, -, hheld⟩
        simp only [smpMpallocBigpool] at hrun
        by_cases hnull : (smpCalloc env pool n).1 = 0
        · rw [if_pos hnull] at hrun
          simp only [Exec.pure_eq, Except.ok.injEq] at hrun
          subst hrun
          exact ⟨seg, hcalloc⟩
        · rw [if_neg hnull] at hrun
          rcases Exec.bind_eq_ok.mp hrun with ⟨found, -, hrest⟩
          cases found with
          | some bigP =>
              simp only [Exec.pure_eq, Except.ok.injEq] at hrest
              subst hrest
              exact ⟨seg, hcalloc.congr rfl fun b _ => ⟨rfl, rfl⟩⟩
          | none =>
              rcases Exec.bind_eq_ok.mp hrest with ⟨⟨bigP, pool₂⟩, hrec, hdone⟩
              rcases ih hcalloc (hheld hnull) hrec with ⟨seg', hseg'⟩
              by_cases hbigP : bigP = 0
              · simp only [hbigP, if_true, smpFree, ne_eq, not_true_eq_false, if_false,
                  Exec.pure_eq, Except.ok.injEq] at hdone
                subst hdone
                exact ⟨seg', hseg'⟩
              · simp only [hbigP, if_false, Exec.pure_eq, Except.ok.injEq] at hdone
                subst hdone
                exact ⟨seg', hseg'.congr rfl fun b _ => ⟨rfl, rfl⟩⟩

/-- A free of a big block keeps the window. -/
theorem Window.mpfreeBigpool (h : Window pool seg) {p : Nat} {r : Status × Pool}
    (hrun : smpMpfreeBigpool fuel pool p = .ok r) : Window r.2 seg := by
  rcases Exec.bind_eq_ok.mp hrun with ⟨found, -, hrest⟩
  cases found with
  | none =>
      simp only [Exec.pure_eq, Except.ok.injEq] at hrest
      subst hrest
      exact h
  | some bigP =>
      simp only [Exec.pure_eq, Except.ok.injEq] at hrest
      subst hrest
      unfold smpFree
      split_ifs
      · exact h.congr rfl fun b _ => ⟨rfl, rfl⟩
      · exact h.congr rfl fun b _ => ⟨rfl, rfl⟩

/-- The window in every reachable state. -/
theorem Reachable.window (hs : SoundEnv env) (haligned : poolAlignment ∣ size) {c : Client}
    (h : Reachable env size c) : ∃ seg, Window c.pool seg := by
  induction h with
  | create hcreate => exact ⟨_, Window.create hs hcreate⟩
  | @request c fuel n m pool hreach hrun ih =>
      rcases hreach.inv hs haligned with ⟨L, hinv, -⟩
      rcases ih with ⟨seg, hseg⟩
      rw [Client.served_pool]
      exact hseg.mpalloc hs hinv hrun
  | free _ hrun ih =>
      rcases ih with ⟨seg, hseg⟩
      exact ⟨seg, hseg.mpfreeBigpool hrun⟩

/-! ## The number of passes -/

/-- A small request makes no more passes than the window has blocks. -/
theorem Window.returns_small (hs : SoundEnv env) (h : Window pool seg) (hinv : Inv env pool L)
    {n : Nat} (hn : n ≤ pool.max) (hfuel : windowSize ≤ fuel) :
    ∃ r, smpMpalloc env fuel pool n = .ok r := by
  have hlength : seg.length ≤ fuel := h.short.trans hfuel
  obtain ⟨fuel, rfl⟩ : ∃ k, fuel = k + 1 := ⟨fuel - 1, by unfold windowSize at hfuel; omega⟩
  rcases mpallocPass_ends h.chain n h.current_mem hlength with ⟨found, hfound⟩
  rw [smpMpalloc, if_pos hn, hfound]
  cases found with
  | some room => exact ⟨_, rfl⟩
  | none =>
      rcases hinv.memalign hs L.psize with ⟨hinv₁, hfresh⟩
      have hsame : Window (smpMemalign env pool L.psize).2 seg :=
        h.congr rfl fun b _ => ⟨rfl, rfl⟩
      simp only [Exec.ok_bind, smpMpallocBlock, hinv.psize_eq hs]
      by_cases hnull : (smpMemalign env pool L.psize).1 = 0
      · exact ⟨_, if_pos hnull⟩
      · rw [if_neg hnull]
        exact mpallocBlockLink_returns hsame.chain hsame.current_mem
          (hsame.newBlock_notMem hinv₁ (hinv.newBlock_notMem (hfresh hnull).2)) hlength

/-- A big request makes one more call, if a record is a small request. -/
theorem Window.returns (hs : SoundEnv env) (h : Window pool seg) (hinv : Inv env pool L)
    (hmax : sizeofBigPool ≤ pool.max) (n : Nat) :
    ∃ r, smpMpalloc env (windowSize + 1) pool n = .ok r := by
  by_cases hn : n ≤ pool.max
  · exact h.returns_small hs hinv hn (Nat.le_succ _)
  · rcases smpCalloc_spec hs hinv (show 0 < n by omega) with ⟨-, hmax₁, -, -, hheld⟩
    rw [smpMpalloc, if_neg hn]
    simp only [smpMpallocBigpool]
    by_cases hnull : (smpCalloc env pool n).1 = 0
    · exact ⟨_, if_pos hnull⟩
    · rw [if_neg hnull]
      rcases @freeRecordPass_returns (windowSize + 1) (smpCalloc env pool n).2
        (by unfold windowSize; omega) with ⟨found, hfound⟩
      rcases (h.calloc env n).returns_small hs (hheld hnull) (hmax₁ ▸ hmax)
        (Nat.le_refl windowSize) with ⟨⟨bigP, pool₂⟩, hrun⟩
      rw [hfound]
      cases found with
      | some r => exact ⟨_, rfl⟩
      | none =>
          simp only [Exec.ok_bind, hrun]
          split_ifs
          · exact ⟨_, rfl⟩
          · exact ⟨_, rfl⟩

/-- A free changes no limit. -/
theorem smpMpfreeBigpool_max {p : Nat} {r : Status × Pool}
    (hrun : smpMpfreeBigpool fuel pool p = .ok r) : r.2.max = pool.max := by
  rcases Exec.bind_eq_ok.mp hrun with ⟨found, -, hrest⟩
  cases found with
  | none =>
      simp only [Exec.pure_eq, Except.ok.injEq] at hrest
      subst hrest
      rfl
  | some bigP =>
      simp only [Exec.pure_eq, Except.ok.injEq] at hrest
      subst hrest
      unfold smpFree
      split_ifs
      · rfl
      · rfl

/-- A record is a small request in every reachable state. -/
theorem Reachable.record_small (hs : SoundEnv env) (haligned : poolAlignment ∣ size)
    (hroom : sizeofPool + sizeofBigPool ≤ size) (hpage : sizeofBigPool ≤ env.pageSize)
    {c : Client} (h : Reachable env size c) : sizeofBigPool ≤ c.pool.max := by
  induction h with
  | create hcreate => exact smpMpoolCreate_max hs hpage hroom hcreate
  | @request c fuel n m pool hreach hrun ih =>
      rcases hreach.inv hs haligned with ⟨L, hinv, -⟩
      rcases smpMpalloc_spec hs hinv hrun with ⟨L', hserved⟩
      rw [Client.served_pool]
      exact hserved.max ▸ ih
  | free _ hrun ih =>
      have hmax := smpMpfreeBigpool_max hrun
      exact hmax ▸ ih

/-- In every reachable state a request ends after as many passes of each of its loops as the
window has blocks, seven at most, however many blocks and records the pool has: a small one in
one call, a big one with one call more for its record. -/
theorem requests_bounded (hs : SoundEnv env) (haligned : poolAlignment ∣ size)
    (hroom : sizeofPool + sizeofBigPool ≤ size) (hpage : sizeofBigPool ≤ env.pageSize)
    {c : Client} (h : Reachable env size c) (n : Nat) :
    (∃ seg blocks, Window c.pool seg ∧ seg <:+ blocks ∧
      Chain (fun b => (c.pool.data b).next) c.pool.addr blocks) ∧
    (n ≤ c.pool.max → ∃ r, smpMpalloc env windowSize c.pool n = .ok r) ∧
    ∃ r, smpMpalloc env (windowSize + 1) c.pool n = .ok r := by
  rcases h.inv hs haligned with ⟨L, hinv, -⟩
  rcases h.window hs haligned with ⟨seg, hseg⟩
  refine ⟨⟨seg, L.blocks, hseg, hseg.suffix hinv.chain hinv.current, hinv.chain⟩, ?_, ?_⟩
  · intro hn
    exact hseg.returns_small hs hinv hn (Nat.le_refl _)
  · exact hseg.returns hs hinv (h.record_small hs haligned hroom hpage) n

/-- After a small request and a big one the window is the one block. -/
theorem requests_bounded_sample : ∃ c, Reachable (bumpEnv 4096) 128 c ∧
    c.big = [⟨144, 80⟩] ∧
    ∃ r, smpMpalloc (bumpEnv 4096) (windowSize + 1) c.pool 1000 = .ok r := by
  have hcreate : Reachable (bumpEnv 4096) 128 _ :=
    @Reachable.create _ _ (fun _ => ⟨0, 0, 0, 0⟩) (fun _ => ⟨0, 0⟩) _ rfl
  have hsmall := @Reachable.request _ _ _ _ 10 64 _ hcreate
    (smpMpalloc_fits _ 0 (by decide) (by decide))
  have hbig := @Reachable.request _ _ _ 2 80 144 _ hsmall rfl
  have hbounded := requests_bounded (bump_sound (by decide)) (by decide) (by decide) (by decide)
    hbig 1000
  exact ⟨_, hbig, rfl, hbounded.2.2⟩

end Mpool
end Smpcil
