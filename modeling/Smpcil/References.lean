import Smpcil.Queue.Refinement
import Smpcil.Link.Refinement

/-!
# References to a queue and to a link

A holder of a queue or a link gives its reference up by calling the function that destroys
the container.  A queue counts its references modulo {lit}`2 ^ 32` and is released when the
count reaches zero; a link is released by the first such call.

Main results:

- Definitions {lit}`Queue.GiveUp` and {lit}`Link.GiveUp`: what giving a reference up is to do.
- Theorem {lit}`giveUp_iff`: when it does so, in every run.
-/

namespace Smpcil

open Allocator Chains PoolCalls

/-! ## Queues -/

namespace Queue

variable {answers : Answers} {heap : Heap} {queue : SmpQueue} {ns : List Nat} {refs : Nat}

/-- The queues of all runs in which holders use a queue, take references to it and give
theirs up, with its nodes and the number of references. -/
inductive Shared (answers : Answers) : Heap → SmpQueue → List Nat → Nat → Prop where
  | create {heap heap' : Heap} {queue : SmpQueue} {free : Option (Nat → Heap → Heap)} :
      (∀ f ∈ free, Fifo.Local f) → smpQueueCreate answers heap free = (some queue, heap') →
      Shared answers heap' queue [] 1
  | call {heap heap' : Heap} {queue queue' : SmpQueue} {ns ns' : List Nat} {refs : Nat} :
      Shared answers heap queue ns refs → Call heap queue ns heap' queue' ns' →
      Shared answers heap' queue' ns' refs
  | take {heap : Heap} {queue : SmpQueue} {ns : List Nat} {refs : Nat} :
      Shared answers heap queue ns refs →
      Shared answers heap (smpQueueQuoteInc queue).2 ns (refs + 1)
  | giveUp {heap heap' : Heap} {queue queue' : SmpQueue} {ns handed : List Nat} {refs fuel : Nat}
      {st : Status} : Shared answers heap queue ns refs →
      smpQdestory fuel heap queue = .ok (st, heap', some queue', handed) →
      Shared answers heap' queue' ns (refs - 1)

/-- The last reference is given up: each node is taken out and handed to the free function once,
in order, and then the queue is freed, once.  A function that destroys the node leaves a log of
exactly that. -/
structure Released (fuel : Nat) (heap : Heap) (queue : SmpQueue) (ns : List Nat) : Prop where
  run : smpQdestory fuel heap queue =
    .ok (.ok, (Fifo.cleared queue ns heap).record (.free .queue queue.addr), none,
      Fifo.handedOver queue ns)
  log : (∀ free ∈ queue.freeQnode, free = smpQnodeDestory) →
    ((Fifo.cleared queue ns heap).record (.free .queue queue.addr)).log =
      heap.log ++ ((Fifo.handedOver queue ns).flatMap fun n => (madeAt heap n).freed) ++
        [.free .queue queue.addr]

/-- Giving up a reference: the last one releases the nodes and then the queue; any other one
fails and changes nothing but the count. -/
def GiveUp (heap : Heap) (queue : SmpQueue) (ns : List Nat) (refs : Nat) : Prop :=
  ∀ fuel, ns.length < fuel →
    (refs = 1 → Released fuel heap queue ns) ∧
    (1 < refs → ∃ quotes, smpQdestory fuel heap queue =
      .ok (.failure, heap, some { queue with quotes := quotes }, []))

/-- The count of references. -/
structure Counted (heap : Heap) (queue : SmpQueue) (ns : List Nat) (refs : Nat) : Prop where
  fifo : Fifo heap queue ns
  localFree : ∀ free ∈ queue.freeQnode, Fifo.Local free
  pos : 0 < refs
  quotes : queue.quotes = refs % 2 ^ 32

/-- The count after a reference is given up. -/
theorem Counted.quoteDec (h : Counted heap queue ns refs) :
    (smpQueueQuoteDec queue).2 = { queue with quotes := (refs - 1) % 2 ^ 32 } ∧
      ((smpQueueQuoteDec queue).1 = 0 ↔ refs % 2 ^ 32 = 1) := by
  have hpos := h.pos
  have hquotes := h.quotes
  have hcount : (if queue.quotes = 0 then 2 ^ 32 - 1 else queue.quotes - 1) =
      (refs - 1) % 2 ^ 32 := by
    rw [hquotes]
    split_ifs <;> omega
  have hzero : (refs - 1) % 2 ^ 32 = 0 ↔ refs % 2 ^ 32 = 1 := by omega
  unfold smpQueueQuoteDec
  simp only [hcount]
  rw [toInt_eq_zero, Nat.mod_mod]
  exact ⟨trivial, hzero⟩

/-- A call that does not bring the count to zero changes only the count. -/
theorem Counted.destory_ne (h : Counted heap queue ns refs) (hne : refs % 2 ^ 32 ≠ 1)
    (fuel : Nat) : smpQdestory fuel heap queue =
      .ok (.failure, heap, some { queue with quotes := (refs - 1) % 2 ^ 32 }, []) := by
  rcases h.quoteDec with ⟨hqueue, hzero⟩
  unfold smpQdestory
  simp only [hqueue, if_neg (mt hzero.mp hne), Exec.pure_eq]

/-- A call that brings the count to zero releases the queue. -/
theorem Counted.destory_eq (h : Counted heap queue ns refs) (heq : refs % 2 ^ 32 = 1)
    {fuel : Nat} (hfuel : ns.length < fuel) : Released fuel heap queue ns := by
  rcases h.quoteDec with ⟨hqueue, hzero⟩
  have hfifo : Fifo heap { queue with quotes := (refs - 1) % 2 ^ 32 } ns := { h.fifo with }
  have hclean := hfifo.qclean h.localFree hfuel
  constructor
  case run =>
    unfold smpQdestory
    simp only [hqueue, if_pos (hzero.mpr heq), hclean, Exec.ok_bind, Exec.pure_eq]
    rfl
  case log =>
    intro hfree
    rw [Heap.record_log, (cleared_freed hfree fun n hn => h.fifo.ne_zero hn).log]

/-- The count in every run. -/
theorem Shared.counted (h : Shared answers heap queue ns refs) : Counted heap queue ns refs := by
  induction h with
  | create hlocal hcreate =>
      rcases smpQueueCreate_fifo hcreate with ⟨hfifo, hfree, hquotes, -⟩
      exact ⟨hfifo, hfree ▸ hlocal, Nat.one_pos, hquotes⟩
  | call _ hcall ih =>
      rcases hcall.fifo ih.fifo ih.localFree with ⟨hfifo, hsame⟩
      exact ⟨hfifo, hsame.freeQnode ▸ ih.localFree, ih.pos, hsame.quotes.trans ih.quotes⟩
  | take _ ih =>
      refine ⟨{ ih.fifo with }, ih.localFree, Nat.succ_pos _, ?_⟩
      unfold smpQueueQuoteInc
      simp only [ih.quotes]
      rw [Nat.mod_add_mod]
  | @giveUp heap heap' queue queue' ns handed refs fuel st _ hrun ih =>
      by_cases heq : refs % 2 ^ 32 = 1
      · rcases ih.quoteDec with ⟨-, hzero⟩
        unfold smpQdestory at hrun
        simp only [if_pos (hzero.mpr heq)] at hrun
        rcases Exec.bind_eq_ok.mp hrun with ⟨s, -, hrest⟩
        simp at hrest
      · rw [ih.destory_ne heq, Except.ok.injEq, Prod.mk.injEq, Prod.mk.injEq, Prod.mk.injEq,
          Option.some.injEq] at hrun
        rcases hrun with ⟨-, rfl, rfl, -⟩
        have hpos := ih.pos
        have hmore : 0 < refs - 1 := by omega
        exact ⟨{ ih.fifo with }, ih.localFree, hmore, rfl⟩

/-- Giving up a reference goes right as long as the count tells the last reference from the
others. -/
theorem Counted.giveUp_right (h : Counted heap queue ns refs) :
    GiveUp heap queue ns refs ↔ refs = 1 ∨ refs % 2 ^ 32 ≠ 1 := by
  have hpos := h.pos
  constructor
  · intro hgive
    by_cases hone : refs = 1
    · exact Or.inl hone
    · right
      intro heq
      have hfuel := Nat.lt_succ_self ns.length
      rcases (hgive _ hfuel).2 (by omega) with ⟨quotes, hfail⟩
      rw [(h.destory_eq heq hfuel).run] at hfail
      simp at hfail
  · intro hcase fuel hfuel
    constructor
    · rintro rfl
      exact h.destory_eq rfl hfuel
    · intro hmore
      have hne : refs % 2 ^ 32 ≠ 1 := hcase.resolve_left (by omega)
      exact ⟨_, h.destory_ne hne fuel⟩

end Queue

/-! ## Links -/

namespace Link

variable {π : Type} {calls : PoolCalls π} {Good : π → Prop} {blocks : π → List Block}
variable {link : SmpLink π} {raw : Contents} {refs : Nat}

/-- The links of all runs in which holders use a link and take references to it, with the
number of references, on memory that held {lit}`raw` before. -/
inductive Shared (calls : PoolCalls π) (Good : π → Prop) (raw : Contents) :
    SmpLink π → Nat → Prop where
  | init {w w' : π} {freeFunc : VoidPtr} {link : SmpLink π} : Good w →
      smpLinkInit calls w raw freeFunc = .ok (some link, w') → Shared calls Good raw link 1
  | call {link link' : SmpLink π} {refs fuel : Nat} {op : Op} {r : VoidPtr} :
      Shared calls Good raw link refs → op.run calls fuel link = .ok (r, link') →
      Shared calls Good raw link' refs
  | take {link : SmpLink π} {refs : Nat} : Shared calls Good raw link refs →
      Shared calls Good raw (smpLinkQuoteInc link).2 (refs + 1)

/-- The nodes of a link, from the first one on. -/
abbrev LiveChain (link : SmpLink π) (ns : List Nat) : Prop :=
  Chain (fun n => (link.mem n).next) link.node ns

/-- Giving up a reference: the last one frees the data of the live nodes, in order, and then
the pool; any other one fails and changes nothing. -/
def GiveUp (calls : PoolCalls π) (link : SmpLink π) (refs : Nat) : Prop :=
  (refs = 1 → ∃ ns, LiveChain link ns ∧ ∀ fuel, ns.length < fuel →
    smpLinkDestory calls fuel link = do
      let pool ← calls.destory link.pool
      return (.ok, pool, if link.dataFree = NULL then [] else elements link ns)) ∧
    (1 < refs → ∃ fuel, smpLinkDestory calls fuel link = .ok (.failure, link.pool, []))

/-- The traversal visits the data of the live nodes, in order. -/
theorem smpLinkTraversal_spec {ns : List Nat} {fuel : Nat} (visit : VoidPtr)
    (h : Chain (fun n => (link.mem n).next) link.node ns) (hfuel : ns.length < fuel) :
    smpLinkTraversal fuel link visit = .ok (if visit = NULL then [] else elements link ns) := by
  unfold smpLinkTraversal
  by_cases hnull : visit = NULL
  · rw [if_pos hnull, if_pos hnull]
  · rw [if_neg hnull, if_neg hnull]
    have hloop : ∃ visited, Loops.loop .diverged (traversalPass link) fuel (link.node, []) =
        .ok visited ∧ visited = elements link ns := by
      apply Loops.loop_spec (fun k (s : Nat × List VoidPtr) => ∃ rest,
        Chain (fun n => (link.mem n).next) s.1 rest ∧ rest.length = k ∧
          s.2 ++ elements link rest = elements link ns)
      · rintro k ⟨node, visited⟩ ⟨rest, hchain, hk, hvisited⟩
        cases rest with
        | nil =>
            have hend : node = 0 := hchain
            exact Or.inl
              ⟨visited, by simp [traversalPass, hend], by simpa [elements] using hvisited⟩
        | cons a rest =>
            rcases hchain with ⟨rfl, hne, hrest⟩
            refine Or.inr ⟨_, rest.length, by simp [traversalPass, hne]; rfl,
              ⟨rest, hrest, rfl, ?_⟩, by simp [← hk]⟩
            rw [← hvisited, List.append_assoc]
            rfl
      · exact ⟨ns, h, rfl, rfl⟩
      · exact hfuel
    rcases hloop with ⟨visited, hrun, rfl⟩
    exact hrun

/-- Destroying a link frees the data of its live nodes and its pool, whatever the number of
references. -/
theorem smpLinkDestory_eq {ns : List Nat} {fuel : Nat}
    (h : Chain (fun n => (link.mem n).next) link.node ns) (hfuel : ns.length < fuel) :
    smpLinkDestory calls fuel link = do
      let pool ← calls.destory link.pool
      return (.ok, pool, if link.dataFree = NULL then [] else elements link ns) := by
  unfold smpLinkDestory
  rw [smpLinkTraversal_spec link.dataFree h hfuel, Exec.ok_bind]

theorem Shared.pos (h : Shared calls Good raw link refs) : 0 < refs := by
  induction h with
  | init _ _ => exact Nat.one_pos
  | call _ _ ih => exact ih
  | take _ _ => exact Nat.succ_pos _

/-- The live chain in every run that starts on a null {lit}`recover`. -/
theorem Shared.linked (hserves : calls.Serves Good blocks) (hraw : raw.recover = 0)
    (h : Shared calls Good raw link refs) :
    ∃ ns fs, Linked Good blocks link ns fs [] ∧ NULL ∉ elements link ns := by
  induction h with
  | init hw hinit =>
      exact ⟨[], [], smpLinkInit_linked hserves hw hraw hinit, by simp [elements]⟩
  | @call link link' refs fuel op r _ hrun ih =>
      rcases ih with ⟨ns, fs, hlinked, hne⟩
      rcases op.run_spec hserves hlinked hne
        (show ns.length < max fuel (ns.length + 1) from Nat.le_max_right _ _) with
        ⟨r', link₂, hrun', hout⟩
      rw [Op.run_mono (Nat.le_max_left _ _) hrun, Except.ok.injEq, Prod.mk.injEq] at hrun'
      rcases hrun' with ⟨rfl, rfl⟩
      rcases hout.effect with ⟨ns', fs', hlinked', hne', -⟩
      exact ⟨ns', fs', hlinked', hne'⟩
  | take _ ih =>
      rcases ih with ⟨ns, fs, hlinked, hne⟩
      exact ⟨ns, fs, { hlinked with }, hne⟩

/-- Destroying a link never fails. -/
theorem smpLinkDestory_ok {fuel : Nat} {st : Status} {pool : π} {freed : List VoidPtr}
    (hrun : smpLinkDestory calls fuel link = .ok (st, pool, freed)) : st = .ok := by
  rcases Exec.bind_eq_ok.mp hrun with ⟨freed', -, hrest⟩
  rcases Exec.bind_eq_ok.mp hrest with ⟨pool', -, hresult⟩
  simp only [Exec.pure_eq, Except.ok.injEq, Prod.mk.injEq] at hresult
  exact hresult.1.symm

/-- Giving up a reference goes right for the last one only. -/
theorem Shared.giveUp_last (h : Shared calls Good raw link refs) :
    GiveUp calls link refs ↔ refs = 1 ∧ ∃ ns, LiveChain link ns := by
  have hpos := h.pos
  constructor
  · rintro ⟨hlast, hearlier⟩
    have hone : refs = 1 := by
      by_contra hne
      rcases hearlier (by omega) with ⟨fuel, hfail⟩
      have hok := smpLinkDestory_ok hfail
      simp at hok
    rcases hlast hone with ⟨ns, hchain, -⟩
    exact ⟨hone, ns, hchain⟩
  · rintro ⟨rfl, ns, hchain⟩
    refine ⟨fun _ => ⟨ns, hchain, fun fuel hfuel => ?_⟩, fun hmore => ?_⟩
    · exact smpLinkDestory_eq hchain hfuel
    · exact absurd hmore (Nat.lt_irrefl 1)

end Link

/-! ## Both containers -/

/-- In every run, giving up a reference to a queue goes right unless the number of references
is one more than a positive multiple of {lit}`2 ^ 32`, and giving up a reference to a link
goes right for the last reference only, where the live nodes have an end; they have one in every
run that starts on a null {lit}`recover`. -/
theorem giveUp_iff {π : Type} {calls : PoolCalls π} {Good : π → Prop} {blocks : π → List Block}
    (hserves : calls.Serves Good blocks) :
    (∀ {answers : Queue.Answers} {heap : Queue.Heap} {queue : Queue.SmpQueue} {ns : List Nat}
      {refs : Nat}, Queue.Shared answers heap queue ns refs →
      (Queue.GiveUp heap queue ns refs ↔ refs = 1 ∨ refs % 2 ^ 32 ≠ 1)) ∧
    ∀ {raw : Link.Contents} {link : Link.SmpLink π} {refs : Nat},
      Link.Shared calls Good raw link refs →
      (Link.GiveUp calls link refs ↔ refs = 1 ∧ ∃ ns, Link.LiveChain link ns) ∧
        (raw.recover = 0 → ∃ ns, Link.LiveChain link ns) := by
  refine ⟨fun h => h.counted.giveUp_right, fun h => ⟨h.giveUp_last, fun hraw => ?_⟩⟩
  rcases h.linked hserves hraw with ⟨ns, fs, hlinked, -⟩
  exact ⟨ns, hlinked.next⟩

/-- Memory of zeros. -/
def zeroed : Link.Contents := ⟨0, fun _ => ⟨0, 0, 0⟩⟩

/-- A link with one element and two references. -/
theorem shared_sample : ∃ link : Link.SmpLink History,
    Link.Shared bumpPool BumpTrace zeroed link 2 ∧
      ∃ pool, Link.smpLinkDestory bumpPool 2 link = .ok (.ok, pool, [7]) := by
  have h₀ : Link.Shared bumpPool BumpTrace zeroed _ 1 :=
    @Link.Shared.init _ _ _ _ _ _ 5 _ Trace.nil rfl
  have h₁ := @Link.Shared.call _ _ _ _ _ _ _ 1 (.insert 7) 160 h₀ rfl
  exact ⟨_, h₁.take, _, rfl⟩

/-- A queue of two nodes and a link of one element, with two references each: of the queue the
first holder gives its reference up in vain, and the second one releases it; the link does not
tell them apart. -/
theorem giveUp_iff_sample :
    (∃ heap queue queue', Queue.Shared (fun _ => some 8) heap queue [40, 80] 2 ∧
      Queue.GiveUp heap queue [40, 80] 2 ∧
      Queue.smpQdestory 3 heap queue = .ok (.failure, heap, some queue', []) ∧
      Queue.GiveUp heap queue' [40, 80] 1 ∧
      ∃ heap', Queue.smpQdestory 3 heap queue' = .ok (.ok, heap', none, [40, 80]) ∧
        heap'.log = [.freeData 9 1, .free .qnode 40, .freeData 9 1, .free .qnode 80,
          .free .queue 8]) ∧
    ∃ link : Link.SmpLink History, Link.Shared bumpPool BumpTrace zeroed link 2 ∧
      ¬ Link.GiveUp bumpPool link 2 := by
  have hiff := giveUp_iff bumpPool_serves
  constructor
  · have h₀ : Queue.Shared (fun _ => some 8) _ _ [] 1 :=
      @Queue.Shared.create _ ⟨fun _ => ⟨0, 0, 1, 9⟩, 0, []⟩ _ _ (some Queue.smpQnodeDestory)
        (fun _ hf => Option.mem_some.mp hf ▸ Queue.smpQnodeDestory_local) rfl
    have h₁ := h₀.call (.enter (show 40 ≠ 0 by decide) (by decide) (by decide) rfl)
    have h₂ := h₁.call (.enter (show 80 ≠ 0 by decide) (by decide) (by decide) rfl)
    have h₃ := h₂.take
    have hfirst := h₃.counted.destory_ne (by decide) 3
    have h₄ := h₃.giveUp hfirst
    have hlast := (hiff.1 h₄).mpr (Or.inl rfl)
    have hreleased := (hlast 3 (by decide)).1 rfl
    refine ⟨_, _, _, h₃, (hiff.1 h₃).mpr (Or.inr (by decide)), hfirst, hlast, _,
      hreleased.run, ?_⟩
    rw [hreleased.log fun free hfree => (Option.some.inj hfree).symm]
    rfl
  · rcases shared_sample with ⟨link, hshared, -⟩
    exact ⟨link, hshared, fun hgive => absurd ((hiff.2 hshared).1.mp hgive).1 (by decide)⟩

/-- The first of two holders that gives its reference up releases the link of both. -/
theorem not_giveUp_two : ∃ link : Link.SmpLink History,
    Link.Shared bumpPool BumpTrace zeroed link 2 ∧
    (∃ pool, Link.smpLinkDestory bumpPool 2 link = .ok (.ok, pool, [7])) ∧
    ¬ Link.GiveUp bumpPool link 2 := by
  rcases shared_sample with ⟨link, hshared, hrun⟩
  refine ⟨link, hshared, hrun, fun hgive => ?_⟩
  exact absurd (hshared.giveUp_last.mp hgive).1 (by decide)

end Smpcil
