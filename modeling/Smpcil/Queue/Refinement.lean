import Smpcil.Queue.Layout

/-!
# The queue as a list

What entering, removing, deleting and clearing do to the nodes of a queue, over all runs.
Between two calls the program may do as it likes with nodes that are in no queue and with
the data of all nodes.

Main results:

- Definition {lit}`Reachable`: the runs, with the nodes entered and not removed.
- Theorems {lit}`Call.fifo` and {lit}`Reachable.fifo`: the layout after a call and after a run.
- Theorem {lit}`reachable_refines_fifo`: the refinement and the ring.
-/

namespace Smpcil
namespace Queue

open Chains

variable {answers : Answers} {heap heap' : Heap} {queue queue' : SmpQueue} {ns : List Nat}
variable {node fuel : Nat}

/-! ## Single calls -/

/-- The first reference to a cleared queue. -/
theorem smpQinit_quotes {free : Option (Nat → Heap → Heap)} (h : queue.quotes = 0) :
    (smpQinit queue free).quotes = 1 := by
  unfold smpQinit smpQueueQuoteInc
  simp only [h]
  decide

/-- The last reference to a queue is given up. -/
theorem smpQueueQuoteDec_last (h : queue.quotes = 1) :
    smpQueueQuoteDec queue = (0, { queue with quotes := 0 }) := by
  have hzero : toInt 0 = ((0 : Nat) : Int) := toInt_of_lt (by decide)
  simp only [smpQueueQuoteDec, h, if_neg Nat.one_ne_zero, Nat.sub_self, hzero]
  rfl

/-- A new queue is empty and has one reference. -/
theorem smpQueueCreate_fifo {free : Option (Nat → Heap → Heap)}
    (hcreate : smpQueueCreate answers heap free = (some queue, heap')) :
    Fifo heap' queue [] ∧ queue.freeQnode = free ∧ queue.quotes = 1 ∧ queue.addr ≠ 0 := by
  unfold smpQueueCreate at hcreate
  by_cases hnull : (smpCalloc answers heap).1 = 0
  · simp [hnull] at hcreate
  · simp only [if_neg hnull, Prod.mk.injEq, Option.some.injEq] at hcreate
    rcases hcreate with ⟨rfl, rfl⟩
    refine ⟨?_, rfl, smpQinit_quotes rfl, hnull⟩
    constructor
    case next => exact rfl
    case prev => exact rfl
    case qlen => rfl
    case addr => simp

/-- No node is made if the request is refused. -/
theorem smpQnodeCreate_refused (freeQdata data : VoidPtr) (h : answers heap.requests = none) :
    smpQnodeCreate answers heap freeQdata data =
      (0, { heap with requests := heap.requests + 1 }) := by
  simp [smpQnodeCreate, smpCalloc, h]

/-- A granted request is answered with a new node, which is in no queue. -/
theorem smpQnodeCreate_granted {a : Nat} (freeQdata data : VoidPtr)
    (h : answers heap.requests = some a) (hne : a ≠ 0) :
    smpQnodeCreate answers heap freeQdata data =
      (a, { heap with
        requests := heap.requests + 1
        qnode := Function.update heap.qnode a ⟨0, 0, data, freeQdata⟩ }) := by
  simp [smpQnodeCreate, smpCalloc, h, hne]

theorem smpQnodeDestory_qnode (node : Nat) (heap : Heap) :
    (smpQnodeDestory node heap).qnode = heap.qnode := by
  unfold smpQnodeDestory
  split_ifs <;> rfl

theorem smpQnodeDestory_requests (node : Nat) (heap : Heap) :
    (smpQnodeDestory node heap).requests = heap.requests := by
  unfold smpQnodeDestory
  split_ifs <;> rfl

/-- Freeing a node with its data touches no link. -/
theorem smpQnodeDestory_local : Fifo.Local smpQnodeDestory := by
  intro node heap ns _ n _
  rw [smpQnodeDestory_qnode]
  exact ⟨rfl, rfl⟩

/-! ## Nodes and their data -/

/-- A node as it was made. -/
structure Made where
  node : Nat
  data : VoidPtr
  freeQdata : VoidPtr
deriving DecidableEq, Repr

/-- The data of a node in memory. -/
def madeAt (heap : Heap) (node : Nat) : Made :=
  ⟨node, (heap.qnode node).data, (heap.qnode node).freeQdata⟩

/-- What is recorded when a node is freed: its data is freed first, if it owns them. -/
def Made.freed (m : Made) : List Event :=
  (if m.freeQdata ≠ NULL ∧ m.data ≠ NULL then [.freeData m.freeQdata m.data] else []) ++
    [.free .qnode m.node]

/-- The data of nodes stay. -/
def SameData (heap heap' : Heap) : Prop := ∀ n, madeAt heap' n = madeAt heap n

theorem Moved.sameData {ms : List Nat} (h : Moved heap heap' queue queue' ms) :
    SameData heap heap' := by
  intro n
  unfold madeAt
  rw [h.data, h.freeQdata]

theorem smpQnodeDestory_sameData (node : Nat) (heap : Heap) :
    SameData heap (smpQnodeDestory node heap) := by
  intro n
  unfold madeAt
  rw [smpQnodeDestory_qnode]

/-- Freeing a node frees its data first. -/
theorem smpQnodeDestory_freed (hne : node ≠ 0) :
    (smpQnodeDestory node heap).log = heap.log ++ (madeAt heap node).freed := by
  unfold smpQnodeDestory Made.freed madeAt
  rw [if_neg hne]
  by_cases howned : (heap.qnode node).freeQdata ≠ NULL ∧ (heap.qnode node).data ≠ NULL
  · simp only [if_pos howned, Heap.record_log, List.append_assoc]
  · simp only [if_neg howned, Heap.record_log, List.nil_append]

/-- The nodes {lit}`handed` have been freed since {lit}`heap`. -/
structure FreedFrom (heap : Heap) (handed : List Nat) (heap' : Heap) : Prop where
  data : SameData heap heap'
  requests : heap'.requests = heap.requests
  log : heap'.log = heap.log ++ handed.flatMap fun n => (madeAt heap n).freed

/-- Unlinking a node frees none. -/
theorem unlinkFirst_freed (heap : Heap) (ns : List Nat) :
    FreedFrom heap [] (unlinkFirst heap ns) := by
  have hmoved : ∀ queue : SmpQueue, Moved heap (unlinkFirst heap ns) queue queue ns :=
    fun queue => unlinkFirst_moved heap queue queue (.refl queue) ns
  have hmoved := hmoved ⟨0, 0, 0, 0, none, 0⟩
  exact ⟨hmoved.sameData, hmoved.requests, by simp [hmoved.log]⟩

/-- A node is unlinked and freed. -/
theorem FreedFrom.cons {handed : List Nat} {heap' : Heap} (hne : node ≠ 0)
    (h : FreedFrom (smpQnodeDestory node (unlinkFirst heap ns)) handed heap') :
    FreedFrom heap (node :: handed) heap' := by
  have hunlink := unlinkFirst_freed heap ns
  have hdata : SameData heap (smpQnodeDestory node (unlinkFirst heap ns)) := fun n =>
    (smpQnodeDestory_sameData node _ n).trans (hunlink.data n)
  constructor
  case data => exact fun n => (h.data n).trans (hdata n)
  case requests => rw [h.requests, smpQnodeDestory_requests, hunlink.requests]
  case log =>
    have hlog : (unlinkFirst heap ns).log = heap.log := by simpa using hunlink.log
    simp only [h.log, hdata _, smpQnodeDestory_freed hne, hlog, hunlink.data node,
      List.flatMap_cons, List.append_assoc]

/-- Nodes that are taken out and destroyed one by one are freed, in order. -/
theorem handAll_freed (hne : ∀ n ∈ ns, n ≠ 0) :
    FreedFrom heap ns (Fifo.handAll smpQnodeDestory ns heap) := by
  induction ns generalizing heap with
  | nil => exact ⟨fun _ => rfl, rfl, by simp [Fifo.handAll]⟩
  | cons node ns ih =>
      exact .cons (hne node List.mem_cons_self) (ih fun n hn => hne n (List.mem_cons_of_mem _ hn))

/-- Clearing a queue whose free function is null or `smp_qnode_destory` frees the nodes that it
hands over, in order. -/
theorem cleared_freed (hfree : ∀ free ∈ queue.freeQnode, free = smpQnodeDestory)
    (hne : ∀ n ∈ ns, n ≠ 0) :
    FreedFrom heap (Fifo.handedOver queue ns) (Fifo.cleared queue ns heap) := by
  unfold Fifo.handedOver Fifo.cleared
  cases hqfree : queue.freeQnode with
  | none => exact unlinkFirst_freed heap ns
  | some free =>
      rw [hfree free hqfree]
      exact handAll_freed hne

/-! ## Deletion -/

/-- Nothing is deleted from an empty queue. -/
theorem smpQnodeDelete_nil (h : Fifo heap queue []) :
    smpQnodeDelete heap queue = (.ok, heap, queue) := by
  have hempty : queue.elems = 0 := h.next
  simp [smpQnodeDelete, hempty]

/-- The first node is removed and freed. -/
theorem smpQnodeDelete_cons (h : Fifo heap queue (node :: ns)) :
    ∃ heap' queue', smpQnodeDelete heap queue = (.ok, heap', queue') ∧
      Fifo heap' queue' ns ∧ SameQueue queue queue' ∧ FreedFrom heap [node] heap' := by
  rcases h.remove with ⟨heap₁, queue₁, hrun, hfifo, hmoved⟩
  have hne : node ≠ 0 := h.ne_zero (by simp)
  have helems : queue.elems ≠ 0 := h.elems_eq ▸ hne
  have hqlen : queue.qlen ≠ 0 := by
    rw [h.qlen]
    exact Nat.succ_ne_zero _
  have hdelete : smpQnodeDelete heap queue = (.ok, smpQnodeDestory node heap₁, queue₁) := by
    simp [smpQnodeDelete, helems, hqlen, hrun, hne]
  refine ⟨_, _, hdelete, hfifo.congr ?_, hmoved.sameQueue, ?_⟩
  · exact smpQnodeDestory_local node heap₁ ns (List.nodup_cons.mp h.nodup).1
  · have heq := h.remove_eq
    rw [hrun, Prod.mk.injEq, Prod.mk.injEq] at heq
    rcases heq with ⟨-, rfl, -⟩
    exact .cons hne ⟨fun _ => rfl, rfl, by simp⟩

/-! ## Runs -/

/-- The calls on a queue with the nodes {lit}`ns`, and what the program may do to the memory
between two of them. -/
inductive Call : Heap → SmpQueue → List Nat → Heap → SmpQueue → List Nat → Prop where
  | outside {heap heap' : Heap} {queue : SmpQueue} {ns : List Nat} :
      SameLinks heap heap' ns → Call heap queue ns heap' queue ns
  | enter {heap heap' : Heap} {queue queue' : SmpQueue} {ns : List Nat} {node : Nat}
      {st : Status} : node ≠ 0 → node < 2 ^ 64 → node ∉ ns →
      smpQenter heap queue node = (st, heap', queue') →
      Call heap queue ns heap' queue' (ns ++ [node])
  | remove {heap heap' : Heap} {queue queue' : SmpQueue} {ns : List Nat} {node : Nat} :
      smpQnodeRemove heap queue = (node, heap', queue') →
      Call heap queue ns heap' queue' ns.tail
  | delete {heap heap' : Heap} {queue queue' : SmpQueue} {ns : List Nat} {st : Status} :
      smpQnodeDelete heap queue = (st, heap', queue') → Call heap queue ns heap' queue' ns.tail
  | clean {heap heap' : Heap} {queue queue' : SmpQueue} {ns handed : List Nat} {fuel : Nat} :
      smpQclean fuel heap queue = .ok (heap', queue', handed) →
      Call heap queue ns heap' queue' []

/-- The queues of all runs from `smp_queue_create` with a free function, with the nodes
entered and not taken out, in order. -/
inductive Reachable (answers : Answers) : Heap → SmpQueue → List Nat → Prop where
  | create {heap heap' : Heap} {queue : SmpQueue} {free : Nat → Heap → Heap} :
      Fifo.Local free → smpQueueCreate answers heap (some free) = (some queue, heap') →
      Reachable answers heap' queue []
  | call {heap heap' : Heap} {queue queue' : SmpQueue} {ns ns' : List Nat} :
      Reachable answers heap queue ns → Call heap queue ns heap' queue' ns' →
      Reachable answers heap' queue' ns'

/-- A finished clearing does not depend on the fuel. -/
theorem smpQclean_mono {fuel' : Nat} {s : CleanState} (hle : fuel ≤ fuel')
    (hrun : smpQclean fuel heap queue = .ok s) : smpQclean fuel' heap queue = .ok s := by
  unfold smpQclean at hrun ⊢
  by_cases hempty : queue.elems = 0
  · rwa [if_pos hempty] at hrun ⊢
  · rw [if_neg hempty] at hrun ⊢
    rcases Exec.bind_eq_ok.mp hrun with ⟨t, hloop, hrest⟩
    rw [Loops.loop_mono hle hloop]
    exact hrest

/-- A call does to the nodes of a queue what it does to the list of them. -/
theorem Call.fifo {ns' : List Nat} (h : Call heap queue ns heap' queue' ns')
    (hfifo : Fifo heap queue ns) (hlocal : ∀ free ∈ queue.freeQnode, Fifo.Local free) :
    Fifo heap' queue' ns' ∧ SameQueue queue queue' := by
  cases h with
  | outside hsame => exact ⟨hfifo.congr hsame, .refl queue⟩
  | enter hne hlt hout hrun =>
      rcases hfifo.enter hne hlt hout with ⟨heap₁, queue₁, hrun₁, hfifo₁, hmoved⟩
      rw [hrun, Prod.mk.injEq, Prod.mk.injEq] at hrun₁
      rcases hrun₁ with ⟨-, rfl, rfl⟩
      exact ⟨hfifo₁, hmoved.sameQueue⟩
  | remove hrun =>
      cases ns with
      | nil =>
          rw [hfifo.remove_nil, Prod.mk.injEq, Prod.mk.injEq] at hrun
          rcases hrun with ⟨-, rfl, rfl⟩
          exact ⟨hfifo, .refl queue⟩
      | cons a ns =>
          rcases hfifo.remove with ⟨heap₁, queue₁, hrun₁, hfifo₁, hmoved⟩
          rw [hrun, Prod.mk.injEq, Prod.mk.injEq] at hrun₁
          rcases hrun₁ with ⟨-, rfl, rfl⟩
          exact ⟨hfifo₁, hmoved.sameQueue⟩
  | delete hrun =>
      cases ns with
      | nil =>
          rw [smpQnodeDelete_nil hfifo, Prod.mk.injEq, Prod.mk.injEq] at hrun
          rcases hrun with ⟨-, rfl, rfl⟩
          exact ⟨hfifo, .refl queue⟩
      | cons a ns =>
          rcases smpQnodeDelete_cons hfifo with ⟨heap₁, queue₁, hrun₁, hfifo₁, hsame, -⟩
          rw [hrun, Prod.mk.injEq, Prod.mk.injEq] at hrun₁
          rcases hrun₁ with ⟨-, rfl, rfl⟩
          exact ⟨hfifo₁, hsame⟩
  | @clean _ _ _ _ handed fuel hrun =>
      have hrun₁ := hfifo.qclean hlocal
        (show ns.length < max fuel (ns.length + 1) from Nat.le_max_right _ _)
      rw [smpQclean_mono (Nat.le_max_left _ _) hrun, Except.ok.injEq, Prod.mk.injEq,
        Prod.mk.injEq] at hrun₁
      rcases hrun₁ with ⟨rfl, rfl, -⟩
      exact ⟨Fifo.emptied_nil _ queue, rfl, rfl, rfl⟩

/-- The layout of a reachable queue: its nodes are those entered and not taken out. -/
theorem Reachable.fifo (h : Reachable answers heap queue ns) :
    Fifo heap queue ns ∧ ∃ free, queue.freeQnode = some free ∧ Fifo.Local free := by
  induction h with
  | create hlocal hcreate =>
      rcases smpQueueCreate_fifo hcreate with ⟨hfifo, hfree, -⟩
      exact ⟨hfifo, _, hfree, hlocal⟩
  | @call heap heap' queue queue' ns ns' _ hcall ih =>
      rcases ih with ⟨hfifo, free, hfree, hlocal⟩
      have hall : ∀ f ∈ queue.freeQnode, Fifo.Local f := by
        intro f hf
        rw [hfree, Option.mem_some] at hf
        exact hf ▸ hlocal
      rcases hcall.fifo hfifo hall with ⟨hfifo', hsame⟩
      exact ⟨hfifo', free, hsame.freeQnode.trans hfree, hlocal⟩

/-! ## Refinement -/

/-- What a queue with the nodes {lit}`ns` is as a list and as a ring. -/
structure Refines (heap : Heap) (queue : SmpQueue) (ns : List Nat) : Prop where
  next : Chain (fun n => (heap.qnode n).next) queue.elems ns
  prev : Chain (fun n => (heap.qnode n).prev) queue.tail ns.reverse
  qlen : queue.qlen = ns.length
  tail : queue.tail = ns.getLastD 0
  empty : (queue.elems = 0 ↔ queue.tail = 0) ∧ (queue.tail = 0 ↔ queue.qlen = 0)
  enter : ∀ node, node ≠ 0 → node < 2 ^ 64 → node ∉ ns → (smpQenter heap queue node).1 = .ok
  remove : (smpQnodeRemove heap queue).1 = ns.headD 0 ∧
    (ns = [] → smpQnodeRemove heap queue = (0, heap, queue))
  delete : (smpQnodeDelete heap queue).1 = .ok ∧
    (ns = [] → smpQnodeDelete heap queue = (.ok, heap, queue)) ∧
    ∀ node t, ns = node :: t → FreedFrom heap [node] (smpQnodeDelete heap queue).2.1
  clean : ∃ free, queue.freeQnode = some free ∧ ∀ fuel, ns.length < fuel →
    smpQclean fuel heap queue = .ok (Fifo.handAll free ns heap, Fifo.emptied queue, ns)
  freed : queue.freeQnode = some smpQnodeDestory →
    FreedFrom heap ns (Fifo.handAll smpQnodeDestory ns heap)
  ring : ∀ n ∈ ns, smpQnodePrev heap queue (smpQnodeNext heap queue n) = n ∧
    smpQnodeNext heap queue (smpQnodePrev heap queue n) = n
  round : ∀ n ∈ ns, (List.iterate (smpQnodeNext heap queue) n queue.qlen).Perm ns ∧
    (smpQnodeNext heap queue)^[queue.qlen] n = n

/-- The queue refines a list that grows at its end and shrinks at its front: in every
reachable state its nodes are those entered and not taken out, linked both ways; the three
tests for an empty queue agree; a removal and a deletion take the first node; clearing hands
all nodes to the free function, each once and in order; and the nodes form a ring. -/
theorem reachable_refines_fifo (h : Reachable answers heap queue ns) : Refines heap queue ns := by
  rcases h.fifo with ⟨hfifo, free, hqfree, hlocal⟩
  rcases hfifo.empty_iff with ⟨helems, htail, hqlen⟩
  have hnext : ∀ a (ha : a ∈ ns), smpQnodeNext heap queue a = ns.next a ha :=
    fun a ha => hfifo.qnodeNext_eq ha
  constructor
  case next => exact hfifo.next
  case prev => exact hfifo.prev
  case qlen => exact hfifo.qlen
  case tail => exact hfifo.tail_eq
  case empty => exact ⟨helems.trans htail.symm, htail.trans hqlen.symm⟩
  case enter =>
    intro node hne hlt hout
    rcases hfifo.enter hne hlt hout with ⟨heap', queue', hrun, -⟩
    rw [hrun]
  case remove =>
    cases ns with
    | nil =>
        rw [hfifo.remove_nil]
        exact ⟨rfl, fun _ => rfl⟩
    | cons node t =>
        rcases hfifo.remove with ⟨heap', queue', hrun, -⟩
        rw [hrun]
        exact ⟨rfl, fun hnil => absurd hnil (List.cons_ne_nil _ _)⟩
  case delete =>
    cases ns with
    | nil =>
        rw [smpQnodeDelete_nil hfifo]
        exact ⟨rfl, fun _ => rfl, fun node t hnil => absurd hnil.symm (List.cons_ne_nil _ _)⟩
    | cons node t =>
        rcases smpQnodeDelete_cons hfifo with ⟨heap', queue', hrun, -, -, hfreed⟩
        rw [hrun]
        refine ⟨rfl, fun hnil => absurd hnil (List.cons_ne_nil _ _), ?_⟩
        rintro _ _ ⟨rfl, rfl⟩
        exact hfreed
  case clean => exact ⟨free, hqfree, fun fuel hfuel => hfifo.qclean_some hqfree hlocal hfuel⟩
  case freed => exact fun _ => handAll_freed fun n hn => hfifo.ne_zero hn
  case ring =>
    intro n hn
    have hback := hfifo.qnodePrev_eq (List.next_mem ns n hn)
    have hforth := hfifo.qnodeNext_eq (List.prev_mem ns n hn)
    rw [hnext n hn, hback, hfifo.qnodePrev_eq hn, hforth]
    exact ⟨List.prev_next ns hfifo.nodup n hn, List.next_prev ns hfifo.nodup n hn⟩
  case round =>
    intro n hn
    rw [hfifo.qlen]
    refine ⟨?_, iterate_length hfifo.nodup hnext hn⟩
    rcases List.getElem_of_mem hn with ⟨i, hi, rfl⟩
    rw [iterate_eq_rotate hfifo.nodup hnext hi]
    exact ns.rotate_perm i

/-- Three nodes that own their data are entered, and the first is removed and entered again:
the ring and the clearing of what is left. -/
theorem reachable_refines_fifo_sample :
    ∃ heap queue, Reachable (fun _ => some 8) heap queue [80, 120, 40] ∧
      smpQnodeNext heap queue 40 = 80 ∧ smpQnodePrev heap queue 80 = 40 ∧
      (smpQnodeRemove heap queue).1 = 80 ∧
      ∃ heap', smpQclean 4 heap queue = .ok (heap', Fifo.emptied queue, [80, 120, 40]) ∧
        heap'.log = [.freeData 9 1, .free .qnode 80, .freeData 9 1, .free .qnode 120,
          .freeData 9 1, .free .qnode 40] := by
  have h₀ : Reachable (fun _ => some 8) _ _ [] :=
    @Reachable.create _ ⟨fun _ => ⟨0, 0, 1, 9⟩, 0, []⟩ _ _ smpQnodeDestory smpQnodeDestory_local rfl
  have h₁ := h₀.call (.enter (show 40 ≠ 0 by decide) (by decide) (by decide) rfl)
  have h₂ := h₁.call (.enter (show 80 ≠ 0 by decide) (by decide) (by decide) rfl)
  have h₃ := h₂.call (.enter (show 120 ≠ 0 by decide) (by decide) (by decide) rfl)
  have h₄ := h₃.call (.remove rfl)
  have h₅ := h₄.call (.enter (show 40 ≠ 0 by decide) (by decide) (by decide) rfl)
  have hrefines := reachable_refines_fifo h₅
  rcases hrefines.clean with ⟨free, hfree, hclean⟩
  refine ⟨_, _, h₅, rfl, rfl, hrefines.remove.1, _, hclean 4 (by decide), ?_⟩
  rw [← Option.some.inj hfree, (hrefines.freed rfl).log]
  rfl

end Queue
end Smpcil
