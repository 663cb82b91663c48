import Smpcil.Queue.Refinement

/-!
# Who owns the nodes of a queue

A node is made with its data, put into the queue, taken out again or freed, and the queue is
destroyed at the end.  A queue without a free function loses the nodes that are in it when it is
cleared; no other node is lost.

Main results:

- Definition {lit}`Owned`: the runs, with the nodes in the queue, the nodes that the caller holds,
  the nodes lost, and all nodes made.
- Theorem {lit}`Owned.balance`: every node made is in the queue, held, lost or freed, once.
- Theorem {lit}`Fifo.queueTraversal`: the nodes are visited in order.
- Theorem {lit}`queue_whole_life`: the queue in every run, and its end.
-/

namespace Smpcil
namespace Queue

open Chains
open Loops (Pass loop loop_spec)

variable {answers : Answers} {heap heap' : Heap} {queue queue' : SmpQueue}
  {ns ns' held held' lost lost' : List Nat} {node fuel : Nat}

/-! ## Traversal -/

/-- A visitor that keeps the nodes {lit}`ns` linked as they are. -/
def KeepsNext (visit : Nat → Heap → SmpQueue → Heap × SmpQueue) (ns : List Nat) : Prop :=
  ∀ node heap queue, ∀ n ∈ ns, ((visit node heap queue).1.qnode n).next = (heap.qnode n).next

/-- Memory and queue after visits to some nodes. -/
def visitAll (visit : Nat → Heap → SmpQueue → Heap × SmpQueue) (nodes : List Nat)
    (s : Heap × SmpQueue) : Heap × SmpQueue :=
  nodes.foldl (fun s node => visit node s.1 s.2) s

/-- The traversal visits the nodes of the queue, each once and in order. -/
theorem Fifo.queueTraversal {visit : Nat → Heap → SmpQueue → Heap × SmpQueue}
    (h : Fifo heap queue ns) (hkeep : KeepsNext visit ns) (hfuel : ns.length < fuel) :
    smpQueueTraversal fuel heap queue visit = .ok (.ok, (visitAll visit ns (heap, queue)).1,
      (visitAll visit ns (heap, queue)).2, ns) := by
  rcases h.empty_iff with ⟨helems, -, hqlen⟩
  by_cases hnil : ns = []
  · subst hnil
    have hempty : queue.elems = 0 ∨ queue.qlen = 0 := Or.inl (helems.mpr rfl)
    simp only [smpQueueTraversal, if_pos hempty, Exec.pure_eq, visitAll, List.foldl_nil]
  · have hfull : ¬ (queue.elems = 0 ∨ queue.qlen = 0) := by
      rw [helems, hqlen]
      simpa using hnil
    have hloop : ∃ s, loop .diverged (traversalPass visit) fuel ⟨heap, queue, queue.elems, []⟩ =
        .ok s ∧ s.visited = ns ∧ (s.heap, s.queue) = visitAll visit ns (heap, queue) := by
      apply loop_spec (fun k (s : VisitState) => ∃ rest, ns = s.visited ++ rest ∧ rest.length = k ∧
        Chain (fun n => (s.heap.qnode n).next) s.nodeCnt rest ∧
        (s.heap, s.queue) = visitAll visit s.visited (heap, queue))
      · rintro k ⟨heap₁, queue₁, cnt, visited⟩ ⟨rest, hsplit, hk, hchain, hstate⟩
        simp only at hsplit hchain hstate
        cases rest with
        | nil =>
            left
            rw [List.append_nil] at hsplit
            have hcnt : cnt = 0 := hchain
            exact ⟨⟨heap₁, queue₁, cnt, visited⟩, by simp [traversalPass, hcnt], hsplit.symm,
              hsplit ▸ hstate⟩
        | cons node rest =>
            right
            rcases hchain with ⟨rfl, hne, hchain⟩
            refine ⟨⟨(visit cnt heap₁ queue₁).1, (visit cnt heap₁ queue₁).2,
              ((visit cnt heap₁ queue₁).1.qnode cnt).next, visited ++ [cnt]⟩, rest.length, ?_,
              ⟨rest, by simp [hsplit], rfl, ?_, ?_⟩, ?_⟩
            · simp [traversalPass, hne]
            · simp only [hkeep cnt heap₁ queue₁ cnt (by simp [hsplit])]
              exact hchain.congr fun n hn => hkeep cnt heap₁ queue₁ n (by simp [hsplit, hn])
            · unfold visitAll at hstate ⊢
              rw [List.foldl_append, ← hstate, List.foldl_cons, List.foldl_nil]
            · rw [← hk, List.length_cons]
              exact Nat.lt_succ_self _
      · exact ⟨ns, rfl, rfl, h.next, rfl⟩
      · exact hfuel
    rcases hloop with ⟨s, hrun, hvisited, hstate⟩
    simp only [smpQueueTraversal, if_neg hfull, hrun, Exec.ok_bind, Exec.pure_eq, hvisited,
      ← hstate]

/-! ## Runs -/

/-- What `malloc` promises: the address of a new node is an address and none of those in use. -/
def Granted (answers : Answers) (heap : Heap) (used : List Nat) : Prop :=
  ∀ a, answers heap.requests = some a → a ≠ 0 ∧ a < 2 ^ 64 ∧ a ∉ used

/-- The node of an answer, if there is one. -/
def nonNull (node : Nat) : List Nat := if node = 0 then [] else [node]

/-- The runs of the program on a queue: the nodes in it, in order, the nodes that the caller
holds, those that clearing did not hand to a free function, and all nodes made.  The caller enters
and frees nodes that it holds. -/
inductive Owned (answers : Answers) :
    Heap → SmpQueue → List Nat → List Nat → List Nat → List Made → Prop where
  | create {heap heap' : Heap} {queue : SmpQueue} {free : Option (Nat → Heap → Heap)} :
      free = none ∨ free = some smpQnodeDestory → heap.log = [] →
      smpQueueCreate answers heap free = (some queue, heap') → Owned answers heap' queue [] [] [] []
  | insert {heap heap' : Heap} {queue queue' : SmpQueue} {ns held lost : List Nat}
      {born : List Made} {data freeQdata : VoidPtr} {node : Nat} :
      Owned answers heap queue ns held lost born → Granted answers heap (ns ++ (held ++ lost)) →
      smpQinsert answers heap queue data freeQdata = (node, heap', queue') →
      Owned answers heap' queue' (ns ++ nonNull node) held lost
        ((nonNull node).map (⟨·, data, freeQdata⟩) ++ born)
  | make {heap heap' : Heap} {queue : SmpQueue} {ns held lost : List Nat}
      {born : List Made} {data freeQdata : VoidPtr} {node : Nat} :
      Owned answers heap queue ns held lost born → Granted answers heap (ns ++ (held ++ lost)) →
      smpQnodeCreate answers heap freeQdata data = (node, heap') →
      Owned answers heap' queue ns (nonNull node ++ held) lost
        ((nonNull node).map (⟨·, data, freeQdata⟩) ++ born)
  | enter {heap heap' : Heap} {queue queue' : SmpQueue} {ns held lost : List Nat}
      {born : List Made} {node : Nat} {st : Status} :
      Owned answers heap queue ns held lost born → node ∈ held →
      smpQenter heap queue node = (st, heap', queue') →
      Owned answers heap' queue' (ns ++ [node]) (held.erase node) lost born
  | remove {heap heap' : Heap} {queue queue' : SmpQueue} {ns held lost : List Nat}
      {born : List Made} {node : Nat} : Owned answers heap queue ns held lost born →
      smpQnodeRemove heap queue = (node, heap', queue') →
      Owned answers heap' queue' ns.tail (nonNull node ++ held) lost born
  | destory {heap : Heap} {queue : SmpQueue} {ns held lost : List Nat} {born : List Made}
      {node : Nat} : Owned answers heap queue ns held lost born → node ∈ held →
      Owned answers (smpQnodeDestory node heap) queue ns (held.erase node) lost born
  | delete {heap heap' : Heap} {queue queue' : SmpQueue} {ns held lost : List Nat}
      {born : List Made} {st : Status} : Owned answers heap queue ns held lost born →
      smpQnodeDelete heap queue = (st, heap', queue') →
      Owned answers heap' queue' ns.tail held lost born
  | clean {heap heap' : Heap} {queue queue' : SmpQueue} {ns held lost handed : List Nat}
      {born : List Made} {fuel : Nat} : Owned answers heap queue ns held lost born →
      smpQclean fuel heap queue = .ok (heap', queue', handed) →
      Owned answers heap' queue' [] held (ns.filter (· ∉ handed) ++ lost) born

/-- The accounts of a queue with the nodes {lit}`ns`, when the nodes {lit}`gone` are freed. -/
structure Balance (heap : Heap) (queue : SmpQueue) (ns held lost : List Nat)
    (born gone : List Made) : Prop where
  fifo : Fifo heap queue ns
  nodup : (ns ++ (held ++ lost)).Nodup
  addr : ∀ n ∈ ns ++ (held ++ lost), n ≠ 0 ∧ n < 2 ^ 64
  free : queue.freeQnode = none ∨ queue.freeQnode = some smpQnodeDestory
  quotes : queue.quotes = 1
  log : heap.log = gone.flatMap Made.freed
  made : ((ns ++ (held ++ lost)).map (madeAt heap) ++ gone).Perm born

/-! ## Single calls -/

/-- A node enters every queue. -/
theorem smpQenter_fst (hne : node ≠ 0) : (smpQenter heap queue node).1 = .ok := by
  unfold smpQenter
  rw [if_neg hne]

/-- A deletion frees the node that a removal takes. -/
theorem smpQnodeDelete_eq (h : Fifo heap queue (node :: ns)) :
    smpQnodeDelete heap queue = (.ok, smpQnodeDestory node (smpQnodeRemove heap queue).2.1,
      (smpQnodeRemove heap queue).2.2) := by
  rcases h.remove with ⟨heap₁, queue₁, hrun, -⟩
  have hne : node ≠ 0 := h.ne_zero (by simp)
  have helems : queue.elems ≠ 0 := h.elems_eq ▸ hne
  have hqlen : queue.qlen ≠ 0 := by
    rw [h.qlen]
    exact Nat.succ_ne_zero _
  simp [smpQnodeDelete, helems, hqlen, hrun, hne]

/-- The nodes that clearing hands over, and the others. -/
theorem handedOver_perm (queue : SmpQueue) (ns : List Nat) :
    (ns.filter (· ∉ Fifo.handedOver queue ns) ++ Fifo.handedOver queue ns).Perm ns := by
  unfold Fifo.handedOver
  split_ifs
  · simp
  · have hnone : ns.filter (· ∉ ns) = [] :=
      List.filter_eq_nil_iff.mpr fun n hn => by simpa using hn
    rw [hnone, List.nil_append]

/-- Clearing empties a queue; its nodes are freed, or none of them is. -/
theorem Fifo.qclean_freed (h : Fifo heap queue ns)
    (hfree : queue.freeQnode = none ∨ queue.freeQnode = some smpQnodeDestory)
    (hfuel : ns.length < fuel) :
    smpQclean fuel heap queue =
        .ok (cleared queue ns heap, emptied queue, handedOver queue ns) ∧
      FreedFrom heap (handedOver queue ns) (cleared queue ns heap) := by
  have hall : ∀ free ∈ queue.freeQnode, free = smpQnodeDestory := by
    intro free hmem
    rcases hfree with hnone | hsome
    · simp [hnone] at hmem
    · simpa [hsome, eq_comm] using hmem
  refine ⟨h.qclean (fun free hmem => ?_) hfuel, cleared_freed hall fun n hn => h.ne_zero hn⟩
  rw [hall free hmem]
  exact smpQnodeDestory_local

/-- After clearing the nodes of the queue are freed or lost. -/
theorem clearing_perm {rest handed : List Nat} (h : (rest ++ handed).Perm ns) :
    ((held ++ (rest ++ lost)) ++ handed).Perm (ns ++ (held ++ lost)) := by
  have hlost : ((rest ++ lost) ++ handed).Perm ((rest ++ handed) ++ lost) := by
    rw [List.append_assoc, List.append_assoc]
    exact List.perm_append_comm.append_left rest
  rw [List.append_assoc]
  refine ((hlost.trans (h.append_right lost)).append_left held).trans ?_
  rw [← List.append_assoc, ← List.append_assoc]
  exact List.perm_append_comm.append_right lost

/-- Creating a queue frees nothing. -/
theorem smpQueueCreate_log {free : Option (Nat → Heap → Heap)}
    (h : smpQueueCreate answers heap free = (some queue, heap')) : heap'.log = heap.log := by
  unfold smpQueueCreate smpCalloc at h
  simp only at h
  split_ifs at h
  · cases h
  · cases h
    rfl

namespace Balance

variable {born gone : List Made}

/-- The nodes made, when some are freed. -/
theorem freed_perm (h : Balance heap queue ns held lost born gone) {others freed : List Nat}
    (hperm : (others ++ freed).Perm (ns ++ (held ++ lost))) :
    (others.map (madeAt heap) ++ (gone ++ freed.map (madeAt heap))).Perm born := by
  have hnodes := hperm.map (madeAt heap)
  rw [List.map_append] at hnodes
  refine List.Perm.trans ?_ ((hnodes.append_right gone).trans h.made)
  rw [List.append_assoc]
  exact List.perm_append_comm.append_left _

/-- Some nodes are freed, and the others change places. -/
theorem step (h : Balance heap queue ns held lost born gone) (freed : List Nat)
    (hfifo : Fifo heap' queue' ns') (hsame : SameQueue queue queue')
    (hdata : SameData heap heap')
    (hlog : heap'.log = heap.log ++ freed.flatMap fun n => (madeAt heap n).freed)
    (hperm : ((ns' ++ (held' ++ lost')) ++ freed).Perm (ns ++ (held ++ lost))) :
    Balance heap' queue' ns' held' lost' born (gone ++ freed.map (madeAt heap)) := by
  constructor
  case fifo => exact hfifo
  case nodup => exact (List.nodup_append.mp (hperm.nodup_iff.mpr h.nodup)).1
  case addr => exact fun n hn => h.addr n (hperm.mem_iff.mp (List.mem_append_left _ hn))
  case free => rw [hsame.freeQnode]; exact h.free
  case quotes => rw [hsame.quotes]; exact h.quotes
  case log => rw [hlog, h.log, List.flatMap_append, List.flatMap_map]
  case made =>
    have hmap : (ns' ++ (held' ++ lost')).map (madeAt heap') =
        (ns' ++ (held' ++ lost')).map (madeAt heap) := List.map_congr_left fun n _ => hdata n
    rw [hmap]
    exact h.freed_perm hperm

/-- The nodes change places. -/
theorem move (h : Balance heap queue ns held lost born gone) (hfifo : Fifo heap' queue' ns')
    (hsame : SameQueue queue queue') (hdata : SameData heap heap') (hlog : heap'.log = heap.log)
    (hperm : (ns' ++ (held' ++ lost')).Perm (ns ++ (held ++ lost))) :
    Balance heap' queue' ns' held' lost' born gone := by
  have hnone : heap'.log = heap.log ++ List.flatMap (fun n => (madeAt heap n).freed) [] := by
    simp [hlog]
  have hstep := h.step [] hfifo hsame hdata hnone (by rwa [List.append_nil])
  rwa [List.map_nil, List.append_nil] at hstep

/-- The caller gets a new node. -/
theorem make (h : Balance heap queue ns held lost born gone) {a : Nat} {data freeQdata : VoidPtr}
    (hnew : a ≠ 0 ∧ a < 2 ^ 64 ∧ a ∉ ns ++ (held ++ lost))
    (hmade : madeAt heap' a = ⟨a, data, freeQdata⟩) (hlog : heap'.log = heap.log)
    (hother : ∀ n, n ≠ a → heap'.qnode n = heap.qnode n) :
    Balance heap' queue ns (a :: held) lost (⟨a, data, freeQdata⟩ :: born) gone := by
  rcases hnew with ⟨hne, hlt, hout⟩
  have hperm : (ns ++ ((a :: held) ++ lost)).Perm (a :: (ns ++ (held ++ lost))) :=
    List.perm_middle
  have hmap : (ns ++ (held ++ lost)).map (madeAt heap') =
      (ns ++ (held ++ lost)).map (madeAt heap) := by
    refine List.map_congr_left fun n hn => ?_
    unfold madeAt
    rw [hother n fun heq => hout (heq ▸ hn)]
  constructor
  case fifo =>
    refine h.fifo.congr fun n hn => ?_
    rw [hother n fun heq => hout (heq ▸ List.mem_append_left _ hn)]
    exact ⟨rfl, rfl⟩
  case nodup => exact hperm.nodup_iff.mpr (List.nodup_cons.mpr ⟨hout, h.nodup⟩)
  case addr =>
    intro n hn
    rcases List.mem_cons.mp (hperm.mem_iff.mp hn) with rfl | hn
    · exact ⟨hne, hlt⟩
    · exact h.addr n hn
  case free => exact h.free
  case quotes => exact h.quotes
  case log => rw [hlog, h.log]
  case made =>
    refine ((hperm.map (madeAt heap')).append_right gone).trans ?_
    rw [List.map_cons, hmade, hmap, List.cons_append]
    exact h.made.cons _

/-- The caller gets a new node, or the request is refused. -/
theorem create (h : Balance heap queue ns held lost born gone) {data freeQdata : VoidPtr}
    (hgrant : Granted answers heap (ns ++ (held ++ lost)))
    (hrun : smpQnodeCreate answers heap freeQdata data = (node, heap')) :
    Balance heap' queue ns (nonNull node ++ held) lost
      ((nonNull node).map (⟨·, data, freeQdata⟩) ++ born) gone := by
  cases hanswer : answers heap.requests with
  | none =>
      rw [smpQnodeCreate_refused _ _ hanswer, Prod.mk.injEq] at hrun
      rcases hrun with ⟨rfl, rfl⟩
      exact h.move (h.fifo.congr fun _ _ => ⟨rfl, rfl⟩) (.refl queue) (fun _ => rfl) rfl (.refl _)
  | some a =>
      have hnew := hgrant a hanswer
      rw [smpQnodeCreate_granted _ _ hanswer hnew.1, Prod.mk.injEq] at hrun
      rcases hrun with ⟨rfl, rfl⟩
      rw [nonNull, if_neg hnew.1]
      exact h.make hnew (by simp [madeAt]) rfl fun n hn => by simp [hn]

/-- A held node enters the queue. -/
theorem enter (h : Balance heap queue ns held lost born gone) (hnode : node ∈ held) {st : Status}
    (hrun : smpQenter heap queue node = (st, heap', queue')) :
    Balance heap' queue' (ns ++ [node]) (held.erase node) lost born gone := by
  have hmem : node ∈ ns ++ (held ++ lost) := by simp [hnode]
  have hout : node ∉ ns := fun hn =>
    (List.nodup_append.mp h.nodup).2.2 node hn node (by simp [hnode]) rfl
  rcases h.addr node hmem with ⟨hne, hlt⟩
  rcases h.fifo.enter hne hlt hout with ⟨heap₁, queue₁, hrun₁, hfifo, hmoved⟩
  rw [hrun, Prod.mk.injEq, Prod.mk.injEq] at hrun₁
  rcases hrun₁ with ⟨-, rfl, rfl⟩
  refine h.move hfifo hmoved.sameQueue hmoved.sameData hmoved.log ?_
  rw [List.append_assoc, List.singleton_append, ← List.cons_append]
  exact ((List.perm_cons_erase hnode).symm.append_right lost).append_left ns

/-- A new node enters the queue. -/
theorem insert (h : Balance heap queue ns held lost born gone) {data freeQdata : VoidPtr}
    (hgrant : Granted answers heap (ns ++ (held ++ lost)))
    (hrun : smpQinsert answers heap queue data freeQdata = (node, heap', queue')) :
    Balance heap' queue' (ns ++ nonNull node) held lost
      ((nonNull node).map (⟨·, data, freeQdata⟩) ++ born) gone := by
  unfold smpQinsert at hrun
  by_cases hnull : data = NULL
  · simp only [if_pos hnull, Prod.mk.injEq] at hrun
    rcases hrun with ⟨rfl, rfl, rfl⟩
    simpa [nonNull] using h
  · rcases hcreate : smpQnodeCreate answers heap freeQdata data with ⟨a, heap₁⟩
    have hmade := h.create hgrant hcreate
    simp only [if_neg hnull, hcreate] at hrun
    by_cases hrefused : a = 0
    · simp only [if_pos hrefused, Prod.mk.injEq] at hrun
      rcases hrun with ⟨rfl, rfl, rfl⟩
      simpa [nonNull, hrefused] using hmade
    · simp only [if_neg hrefused] at hrun
      rw [nonNull, if_neg hrefused] at hmade
      rcases henter : smpQenter heap₁ queue a with ⟨st, heap₂, queue₂⟩
      have hentered := hmade.enter List.mem_cons_self henter
      have hok : st = .ok := by
        have hfst := @smpQenter_fst heap₁ queue a hrefused
        rwa [henter] at hfst
      subst hok
      simp only [henter, Prod.mk.injEq] at hrun
      rcases hrun with ⟨rfl, rfl, rfl⟩
      rw [List.singleton_append, List.erase_cons_head] at hentered
      rw [nonNull, if_neg hrefused]
      exact hentered

/-- The first node is taken out. -/
theorem remove (h : Balance heap queue ns held lost born gone)
    (hrun : smpQnodeRemove heap queue = (node, heap', queue')) :
    Balance heap' queue' ns.tail (nonNull node ++ held) lost born gone := by
  cases ns with
  | nil =>
      rw [h.fifo.remove_nil, Prod.mk.injEq, Prod.mk.injEq] at hrun
      rcases hrun with ⟨rfl, rfl, rfl⟩
      exact h
  | cons a ns =>
      rcases h.fifo.remove with ⟨heap₁, queue₁, hrun₁, hfifo, hmoved⟩
      rw [hrun₁, Prod.mk.injEq, Prod.mk.injEq] at hrun
      rcases hrun with ⟨rfl, rfl, rfl⟩
      have hne : a ≠ 0 := h.fifo.ne_zero (by simp)
      rw [nonNull, if_neg hne]
      exact h.move hfifo hmoved.sameQueue hmoved.sameData hmoved.log List.perm_middle

/-- A held node is freed. -/
theorem destory (h : Balance heap queue ns held lost born gone) (hnode : node ∈ held) :
    Balance (smpQnodeDestory node heap) queue ns (held.erase node) lost born
      (gone ++ [madeAt heap node]) := by
  have hne : node ≠ 0 := (h.addr node (by simp [hnode])).1
  have hlocal : SameLinks heap (smpQnodeDestory node heap) ns := by
    intro n _
    rw [smpQnodeDestory_qnode]
    exact ⟨rfl, rfl⟩
  refine h.step [node] (h.fifo.congr hlocal) (.refl queue)
    (smpQnodeDestory_sameData node heap) ?_ ?_
  · rw [smpQnodeDestory_freed hne, List.flatMap_singleton]
  · have hmiddle : (node :: (ns ++ (held.erase node ++ lost))).Perm
        (ns ++ (node :: held.erase node ++ lost)) := List.perm_middle.symm
    refine List.perm_append_comm.trans (hmiddle.trans ?_)
    exact ((List.perm_cons_erase hnode).symm.append_right lost).append_left ns

/-- The first node is freed. -/
theorem delete (h : Balance heap queue ns held lost born gone) {st : Status}
    (hrun : smpQnodeDelete heap queue = (st, heap', queue')) :
    ∃ gone', Balance heap' queue' ns.tail held lost born gone' := by
  cases ns with
  | nil =>
      rw [smpQnodeDelete_nil h.fifo, Prod.mk.injEq, Prod.mk.injEq] at hrun
      rcases hrun with ⟨-, rfl, rfl⟩
      exact ⟨gone, h⟩
  | cons a ns =>
      have hne : a ≠ 0 := h.fifo.ne_zero (by simp)
      rcases hremove : smpQnodeRemove heap queue with ⟨node, heap₁, queue₁⟩
      rw [smpQnodeDelete_eq h.fifo, hremove, Prod.mk.injEq, Prod.mk.injEq] at hrun
      rcases hrun with ⟨-, rfl, rfl⟩
      have hnode : node = a := by
        rcases h.fifo.remove with ⟨heap₂, queue₂, hrun, -⟩
        rw [hremove, Prod.mk.injEq] at hrun
        exact hrun.1
      subst hnode
      have htaken := h.remove hremove
      rw [nonNull, if_neg hne, List.singleton_append] at htaken
      have hfreed := htaken.destory List.mem_cons_self
      rw [List.erase_cons_head] at hfreed
      exact ⟨_, hfreed⟩

/-- Clearing frees the nodes of the queue or loses them. -/
theorem clean (h : Balance heap queue ns held lost born gone) (hfuel : ns.length < fuel) :
    ∃ heap' queue', smpQclean fuel heap queue = .ok (heap', queue', Fifo.handedOver queue ns) ∧
      Balance heap' queue' [] held (ns.filter (· ∉ Fifo.handedOver queue ns) ++ lost) born
        (gone ++ (Fifo.handedOver queue ns).map (madeAt heap)) := by
  rcases h.fifo.qclean_freed h.free hfuel with ⟨hrun, hfreed⟩
  refine ⟨_, _, hrun, h.step _ (Fifo.emptied_nil _ queue) ⟨rfl, rfl, rfl⟩ hfreed.data
    hfreed.log ?_⟩
  exact clearing_perm (handedOver_perm queue ns)

end Balance

/-- The accounts in every run. -/
theorem Owned.balance {born : List Made} (h : Owned answers heap queue ns held lost born) :
    ∃ gone, Balance heap queue ns held lost born gone := by
  induction h with
  | create hfree hlog hcreate =>
      rcases smpQueueCreate_fifo hcreate with ⟨hfifo, hfree', hquotes, -⟩
      refine ⟨[], hfifo, List.nodup_nil, by simp, hfree'.symm ▸ hfree, hquotes, ?_, .refl _⟩
      rw [smpQueueCreate_log hcreate, hlog]
      rfl
  | insert _ hgrant hrun ih =>
      rcases ih with ⟨gone, hbalance⟩
      exact ⟨gone, hbalance.insert hgrant hrun⟩
  | make _ hgrant hrun ih =>
      rcases ih with ⟨gone, hbalance⟩
      exact ⟨gone, hbalance.create hgrant hrun⟩
  | enter _ hnode hrun ih =>
      rcases ih with ⟨gone, hbalance⟩
      exact ⟨gone, hbalance.enter hnode hrun⟩
  | remove _ hrun ih =>
      rcases ih with ⟨gone, hbalance⟩
      exact ⟨gone, hbalance.remove hrun⟩
  | destory _ hnode ih =>
      rcases ih with ⟨gone, hbalance⟩
      exact ⟨_, hbalance.destory hnode⟩
  | delete _ hrun ih =>
      rcases ih with ⟨gone, hbalance⟩
      exact hbalance.delete hrun
  | @clean _ _ _ _ ns _ _ _ _ fuel _ hrun ih =>
      rcases ih with ⟨gone, hbalance⟩
      rcases hbalance.clean (Nat.le_max_right fuel (ns.length + 1)) with
        ⟨heap₁, queue₁, hrun₁, hbalance'⟩
      rw [smpQclean_mono (Nat.le_max_left _ _) hrun, Except.ok.injEq, Prod.mk.injEq,
        Prod.mk.injEq] at hrun₁
      rcases hrun₁ with ⟨rfl, rfl, rfl⟩
      exact ⟨_, hbalance'⟩

/-! ## The end of a queue -/

/-- In every run the nodes are in the queue in the order in which they entered it, a traversal
visits them in that order, and every node made is in the queue, with the caller, lost or freed,
once.  Destroying the queue frees its nodes and then the queue, or loses them if it has no free
function: then every node made is with the caller, lost or freed, once. -/
theorem queue_whole_life {born : List Made} (h : Owned answers heap queue ns held lost born)
    (hfuel : ns.length < fuel) :
    Fifo heap queue ns ∧ (ns ++ (held ++ lost)).Nodup ∧
    (∀ visit, KeepsNext visit ns → smpQueueTraversal fuel heap queue visit =
      .ok (.ok, (visitAll visit ns (heap, queue)).1, (visitAll visit ns (heap, queue)).2, ns)) ∧
    (∃ gone, heap.log = gone.flatMap Made.freed ∧
      ((ns ++ (held ++ lost)).map (madeAt heap) ++ gone).Perm born) ∧
    ∃ heap' handed, smpQdestory fuel heap queue = .ok (.ok, heap', none, handed) ∧
      handed = Fifo.handedOver queue ns ∧ ∃ all,
        heap'.log = all.flatMap Made.freed ++ [.free .queue queue.addr] ∧
        ((held ++ (ns.filter (· ∉ handed) ++ lost)).map (madeAt heap) ++ all).Perm born := by
  rcases h.balance with ⟨gone, hbalance⟩
  refine ⟨hbalance.fifo, hbalance.nodup,
    fun visit hkeep => hbalance.fifo.queueTraversal hkeep hfuel,
    ⟨gone, hbalance.log, hbalance.made⟩, ?_⟩
  have hfifo : Fifo heap { queue with quotes := 0 } ns := { hbalance.fifo with }
  rcases hfifo.qclean_freed hbalance.free hfuel with ⟨hclean, hfreed⟩
  have hrun : smpQdestory fuel heap queue =
      .ok (.ok, (Fifo.cleared queue ns heap).record (.free .queue queue.addr), none,
        Fifo.handedOver queue ns) := by
    simp only [smpQdestory, smpQueueQuoteDec_last hbalance.quotes, if_true, hclean, Exec.ok_bind,
      Exec.pure_eq]
    rfl
  have hlog := hfreed.log
  refine ⟨_, _, hrun, rfl, gone ++ (Fifo.handedOver queue ns).map (madeAt heap), ?_, ?_⟩
  · rw [Heap.record_log]
    change (Fifo.cleared queue ns heap).log = _ at hlog
    rw [hlog, hbalance.log, List.flatMap_append, List.flatMap_map]
    rfl
  · exact hbalance.freed_perm (clearing_perm (handedOver_perm queue ns))

/-- The answers of a {lit}`malloc` that places objects one behind the other. -/
def bumpAnswers : Answers := fun i => some (40 * (i + 1))

/-- Of three nodes one was taken out and freed, one was inserted after it, and one is held. -/
theorem queue_whole_life_sample : ∃ heap queue, Owned bumpAnswers heap queue [120] [160] []
    [⟨160, 3, 9⟩, ⟨120, 2, 9⟩, ⟨80, 1, 9⟩] ∧ heap.log = [.freeData 9 1, .free .qnode 80] ∧
    ∃ heap', smpQdestory 2 heap queue = .ok (.ok, heap', none, [120]) := by
  have hnew : ∀ (heap : Heap) (used : List Nat), heap.requests < 10 →
      (∀ a ∈ used, a ≤ 40 * heap.requests) → Granted bumpAnswers heap used := by
    rintro heap used hlt hused a ⟨⟩
    refine ⟨by omega, by omega, fun hmem => ?_⟩
    have hle := hused _ hmem
    omega
  have h₀ : Owned bumpAnswers _ _ [] [] [] [] :=
    @Owned.create _ ⟨fun _ => ⟨0, 0, 0, 0⟩, 0, []⟩ _ _ (some smpQnodeDestory) (Or.inr rfl) rfl rfl
  have h₁ := @Owned.insert _ _ _ _ _ _ _ _ _ 1 9 80 h₀ (hnew _ _ (by decide) (by decide)) rfl
  have h₂ := @Owned.insert _ _ _ _ _ _ _ _ _ 2 9 120 h₁ (hnew _ _ (by decide) (by decide)) rfl
  have h₃ := @Owned.delete _ _ _ _ _ _ _ _ _ _ h₂ rfl
  have h₄ := @Owned.make _ _ _ _ _ _ _ _ 3 9 160 h₃ (hnew _ _ (by decide) (by decide)) rfl
  rcases queue_whole_life h₄ (Nat.lt_succ_self 1) with ⟨-, -, -, -, heap', handed, hrun, hover, -⟩
  refine ⟨_, _, h₄, rfl, heap', ?_⟩
  rw [hrun, hover]
  rfl

end Queue
end Smpcil
