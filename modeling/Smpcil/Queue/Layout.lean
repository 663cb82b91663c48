import Smpcil.Queue.Model
import Smpcil.Foundations.Chain

/-!
# The ring of a queue

The invariant of a queue, what entering and removing a node do to it, and the way round the
ring in both directions.

Main results:

- Definition {lit}`Fifo`: the invariant.
- Theorems {lit}`Fifo.enter` and {lit}`Fifo.remove`: the two moves of a node.
- Theorem {lit}`Fifo.qclean`: all nodes are handed to the free function, in order.
- Theorems {lit}`Fifo.qnodeNext_eq` and {lit}`Fifo.qnodePrev_eq`: the neighbours in the ring.
-/

namespace Smpcil
namespace Queue

open Chains
open Loops (Pass loop loop_spec)

/-! ## Stores -/

namespace Heap

variable (heap : Heap) (n v m : Nat)

@[simp] theorem setPrev_prev :
    ((heap.setPrev n v).qnode m).prev = if m = n then v else (heap.qnode m).prev := by
  by_cases h : m = n <;> simp [setPrev, h]

@[simp] theorem setPrev_next : ((heap.setPrev n v).qnode m).next = (heap.qnode m).next := by
  by_cases h : m = n <;> simp [setPrev, h]

@[simp] theorem setPrev_data : ((heap.setPrev n v).qnode m).data = (heap.qnode m).data := by
  by_cases h : m = n <;> simp [setPrev, h]

@[simp] theorem setPrev_freeQdata :
    ((heap.setPrev n v).qnode m).freeQdata = (heap.qnode m).freeQdata := by
  by_cases h : m = n <;> simp [setPrev, h]

@[simp] theorem setNext_prev : ((heap.setNext n v).qnode m).prev = (heap.qnode m).prev := by
  by_cases h : m = n <;> simp [setNext, h]

@[simp] theorem setNext_next :
    ((heap.setNext n v).qnode m).next = if m = n then v else (heap.qnode m).next := by
  by_cases h : m = n <;> simp [setNext, h]

@[simp] theorem setNext_data : ((heap.setNext n v).qnode m).data = (heap.qnode m).data := by
  by_cases h : m = n <;> simp [setNext, h]

@[simp] theorem setNext_freeQdata :
    ((heap.setNext n v).qnode m).freeQdata = (heap.qnode m).freeQdata := by
  by_cases h : m = n <;> simp [setNext, h]

@[simp] theorem setData_prev : ((heap.setData n v).qnode m).prev = (heap.qnode m).prev := by
  by_cases h : m = n <;> simp [setData, h]

@[simp] theorem setData_next : ((heap.setData n v).qnode m).next = (heap.qnode m).next := by
  by_cases h : m = n <;> simp [setData, h]

@[simp] theorem setData_data :
    ((heap.setData n v).qnode m).data = if m = n then v else (heap.qnode m).data := by
  by_cases h : m = n <;> simp [setData, h]

@[simp] theorem setData_freeQdata :
    ((heap.setData n v).qnode m).freeQdata = (heap.qnode m).freeQdata := by
  by_cases h : m = n <;> simp [setData, h]

end Heap

@[simp] theorem smpCntQnode_eq (cnt : Nat) : smpCntQnode cnt = cnt := by
  unfold smpCntQnode offsetofLink
  split_ifs with h
  · exact h.symm
  · rfl

/-! ## The invariant -/

/-- The queue has the nodes {lit}`ns`, in order. -/
structure Fifo (heap : Heap) (queue : SmpQueue) (ns : List Nat) : Prop where
  next : Chain (fun n => (heap.qnode n).next) queue.elems ns
  prev : Chain (fun n => (heap.qnode n).prev) queue.tail ns.reverse
  qlen : queue.qlen = ns.length
  addr : ∀ n ∈ ns, n < 2 ^ 64

/-- Two memories with the same links at the nodes {lit}`ns`. -/
def SameLinks (heap heap' : Heap) (ns : List Nat) : Prop :=
  ∀ n ∈ ns, (heap'.qnode n).next = (heap.qnode n).next ∧
    (heap'.qnode n).prev = (heap.qnode n).prev

/-- What moving nodes of a queue leaves alone; only the links of the nodes {lit}`ns` may
change. -/
structure Moved (heap heap' : Heap) (queue queue' : SmpQueue) (ns : List Nat) : Prop where
  others : ∀ n, n ∉ ns → heap'.qnode n = heap.qnode n
  data : ∀ n, (heap'.qnode n).data = (heap.qnode n).data
  freeQdata : ∀ n, (heap'.qnode n).freeQdata = (heap.qnode n).freeQdata
  requests : heap'.requests = heap.requests
  log : heap'.log = heap.log
  addr : queue'.addr = queue.addr
  freeQnode : queue'.freeQnode = queue.freeQnode
  quotes : queue'.quotes = queue.quotes

variable {heap heap' : Heap} {queue queue' : SmpQueue} {ns : List Nat} {node fuel : Nat}

/-- What calls on a queue leave alone. -/
structure SameQueue (queue queue' : SmpQueue) : Prop where
  addr : queue'.addr = queue.addr
  freeQnode : queue'.freeQnode = queue.freeQnode
  quotes : queue'.quotes = queue.quotes

theorem SameQueue.refl (queue : SmpQueue) : SameQueue queue queue := ⟨rfl, rfl, rfl⟩

theorem SameQueue.trans {queue₁ queue₂ queue₃ : SmpQueue} (h₁ : SameQueue queue₁ queue₂)
    (h₂ : SameQueue queue₂ queue₃) : SameQueue queue₁ queue₃ :=
  ⟨h₂.addr.trans h₁.addr, h₂.freeQnode.trans h₁.freeQnode, h₂.quotes.trans h₁.quotes⟩

theorem Moved.sameQueue {ms : List Nat} (h : Moved heap heap' queue queue' ms) :
    SameQueue queue queue' := ⟨h.addr, h.freeQnode, h.quotes⟩

/-- The nodes of other queues keep their links. -/
theorem Moved.sameLinks (h : Moved heap heap' queue queue' ns) {ms : List Nat}
    (hdisjoint : ∀ n ∈ ms, n ∉ ns) : SameLinks heap heap' ms := by
  intro n hn
  rw [h.others n (hdisjoint n hn)]
  exact ⟨rfl, rfl⟩

namespace Fifo

/-- Stores that keep the links of its nodes do not change a queue. -/
theorem congr (h : Fifo heap queue ns) (hsame : SameLinks heap heap' ns) :
    Fifo heap' queue ns := by
  constructor
  case next => exact h.next.congr fun n hn => (hsame n hn).1
  case prev => exact h.prev.congr fun n hn => (hsame n (List.mem_reverse.mp hn)).2
  case qlen => exact h.qlen
  case addr => exact h.addr

theorem nodup (h : Fifo heap queue ns) : ns.Nodup := h.next.nodup

theorem ne_zero (h : Fifo heap queue ns) {n : Nat} (hn : n ∈ ns) : n ≠ 0 := h.next.ne_zero hn

theorem elems_eq (h : Fifo heap queue ns) : queue.elems = ns.headD 0 := h.next.head_eq

theorem tail_eq (h : Fifo heap queue ns) : queue.tail = ns.getLastD 0 := by
  rw [h.prev.head_eq]
  rcases List.eq_nil_or_concat ns with rfl | ⟨s, a, rfl⟩
  · rfl
  · simp

/-- The three ways to tell an empty queue agree. -/
theorem empty_iff (h : Fifo heap queue ns) :
    (queue.elems = 0 ↔ ns = []) ∧ (queue.tail = 0 ↔ ns = []) ∧ (queue.qlen = 0 ↔ ns = []) := by
  refine ⟨⟨fun h₀ => ?_, ?_⟩, ⟨fun h₀ => ?_, ?_⟩, ?_⟩
  · have hnext := h.next
    rw [h₀] at hnext
    exact hnext.eq_nil
  · rintro rfl
    exact h.next
  · have hprev := h.prev
    rw [h₀] at hprev
    exact List.reverse_eq_nil_iff.mp hprev.eq_nil
  · rintro rfl
    exact h.prev
  · rw [h.qlen, List.length_eq_zero_iff]

/-! ## Entering -/

/-- A node that is in no queue becomes the last one. -/
theorem enter (h : Fifo heap queue ns) (hne : node ≠ 0) (hlt : node < 2 ^ 64) (hout : node ∉ ns) :
    ∃ heap' queue', smpQenter heap queue node = (.ok, heap', queue') ∧
      Fifo heap' queue' (ns ++ [node]) ∧ Moved heap heap' queue queue' (ns ++ [node]) := by
  have hlen : ns.length + 1 < 2 ^ 64 := by
    have hchain : Chain (fun n => if n = node then queue.elems else (heap.qnode n).next) node
        (node :: ns) := by
      refine ⟨rfl, hne, ?_⟩
      simp only [if_true]
      exact h.next.congr fun n hn => if_neg fun heq : n = node => hout (heq ▸ hn)
    have hbound := hchain.length_lt (Nat.two_pow_pos 64) fun n hn => by
      rcases List.mem_cons.mp hn with rfl | hn
      · exact hlt
      · exact h.addr n hn
    rwa [List.length_cons] at hbound
  have hqlen : (queue.qlen + 1) % 2 ^ 64 = (ns ++ [node]).length := by
    rw [h.qlen, List.length_append, List.length_singleton]
    exact Nat.mod_eq_of_lt hlen
  have haddr : ∀ n ∈ ns ++ [node], n < 2 ^ 64 := by
    intro n hn
    rcases List.mem_append.mp hn with hn | hn
    · exact h.addr n hn
    · exact List.mem_singleton.mp hn ▸ hlt
  rcases List.eq_nil_or_concat ns with rfl | ⟨s, a, hs⟩
  · have hempty : queue.qlen = 0 ∧ queue.elems = 0 := ⟨h.qlen, h.next⟩
    have hrun : smpQenter heap queue node =
        (.ok, (heap.setNext node 0).setPrev node 0,
          { queue with elems := node, tail := node, qlen := (queue.qlen + 1) % 2 ^ 64 }) := by
      simp only [smpQenter, if_neg hne, if_pos hempty]
    refine ⟨_, _, hrun, ?_, ?_⟩
    · constructor
      case next => simp [hne]
      case prev => simp [hne]
      case qlen => exact hqlen
      case addr => exact haddr
    · constructor
      case others =>
        intro n hn
        have hnode : n ≠ node := by simpa using hn
        simp [Heap.setNext, Heap.setPrev, hnode]
      all_goals simp
  · rw [List.concat_eq_append] at hs
    subst hs
    have htail : queue.tail = a := by simpa using h.tail_eq
    have hfull : ¬ (queue.qlen = 0 ∧ queue.elems = 0) := by
      rintro ⟨h₀, -⟩
      rw [h.qlen] at h₀
      simp at h₀
    have hrun : smpQenter heap queue node =
        (.ok, ((heap.setNext a node).setPrev node a).setNext node 0,
          { queue with tail := node, qlen := (queue.qlen + 1) % 2 ^ 64 }) := by
      simp only [smpQenter, if_neg hne, if_neg hfull, htail]
    have hmem : ∀ n ∈ s ++ [a], n ≠ node := fun n hn heq => hout (heq ▸ hn)
    have hane : a ≠ node := hmem a (by simp)
    have hsa : ∀ n ∈ s, n ≠ a := fun n hn => (List.nodup_append.mp h.nodup).2.2 n hn a (by simp)
    refine ⟨_, _, hrun, ?_, ?_⟩
    · constructor
      case next =>
        rw [List.append_assoc]
        refine h.next.snoc hne ?_ ?_ ?_
        · intro n hn
          simp [hsa n hn, hmem n (by simp [hn])]
        · simp [hane]
        · simp
      case prev =>
        have hold := h.prev
        rw [htail] at hold
        rw [List.reverse_append, List.reverse_singleton, List.singleton_append]
        refine ⟨rfl, hne, ?_⟩
        simp only [Heap.setNext_prev, Heap.setPrev_prev, if_true]
        exact hold.congr fun n hn => by simp [hmem n (List.mem_reverse.mp hn)]
      case qlen => exact hqlen
      case addr => exact haddr
    · constructor
      case others =>
        intro n hn
        have hna : n ≠ a := by
          rintro rfl
          simp at hn
        have hnode : n ≠ node := by
          rintro rfl
          simp at hn
        simp [Heap.setNext, Heap.setPrev, hna, hnode]
      all_goals simp

/-! ## Removing -/

end Fifo

/-- The memory after the first of the nodes is unlinked from the next one. -/
def unlinkFirst (heap : Heap) : List Nat → Heap
  | [] => heap
  | [node] => (heap.setNext node 0).setPrev node 0
  | node :: b :: _ => ((heap.setPrev b 0).setNext node 0).setPrev node 0

/-- Unlinking the first node changes the links of the nodes alone. -/
theorem unlinkFirst_moved (heap : Heap) (queue queue' : SmpQueue) (hsame : SameQueue queue queue')
    (ns : List Nat) : Moved heap (unlinkFirst heap ns) queue queue' ns := by
  constructor
  case addr => exact hsame.addr
  case freeQnode => exact hsame.freeQnode
  case quotes => exact hsame.quotes
  case others =>
    intro n hn
    match ns with
    | [] => rfl
    | [node] =>
        have hnode : n ≠ node := by simpa using hn
        simp [unlinkFirst, Heap.setNext, Heap.setPrev, hnode]
    | node :: b :: _ =>
        simp only [List.mem_cons, not_or] at hn
        simp [unlinkFirst, Heap.setNext, Heap.setPrev, hn.1, hn.2.1]
  all_goals
    match ns with
    | [] => simp [unlinkFirst]
    | [node] => simp [unlinkFirst]
    | node :: b :: _ => simp [unlinkFirst]

namespace Fifo

/-- Nothing is removed from an empty queue. -/
theorem remove_nil (h : Fifo heap queue []) : smpQnodeRemove heap queue = (0, heap, queue) := by
  have hempty : queue.elems = 0 := h.next
  simp [smpQnodeRemove, hempty]

/-- The first node is removed. -/
theorem remove_eq (h : Fifo heap queue (node :: ns)) :
    smpQnodeRemove heap queue = (node, unlinkFirst heap (node :: ns),
      { queue with
        elems := ns.headD 0
        tail := if ns = [] then 0 else queue.tail
        qlen := queue.qlen - 1 }) := by
  have hhead : queue.elems = node := h.next.1
  have hne : node ≠ 0 := h.next.2.1
  have hlen : queue.qlen = ns.length + 1 := h.qlen
  have hfull : ¬ (node = 0 ∨ queue.qlen = 0) := by
    rw [hlen]
    simp [hne]
  cases ns with
  | nil =>
      have htail : queue.tail = node := by simpa using h.tail_eq
      simp only [smpQnodeRemove, hhead, if_neg hfull, if_pos htail, smpCntQnode_eq]
      simp [unlinkFirst]
  | cons b ns =>
      have hnodup := List.nodup_cons.mp h.nodup
      have hnext : (heap.qnode node).next = b := h.next.2.2.1
      have hlast : queue.tail ≠ node := by
        rw [h.tail_eq, List.getLastD_cons, List.getLastD_cons]
        exact fun heq => hnodup.1 (heq ▸ List.getLastD_mem_cons)
      simp only [smpQnodeRemove, hhead, if_neg hfull, if_neg hlast, hnext, smpCntQnode_eq]
      simp [unlinkFirst]

/-- The nodes behind the first one are the nodes of the queue then. -/
theorem remove (h : Fifo heap queue (node :: ns)) :
    ∃ heap' queue', smpQnodeRemove heap queue = (node, heap', queue') ∧
      Fifo heap' queue' ns ∧ Moved heap heap' queue queue' (node :: ns) := by
  have hnodup := List.nodup_cons.mp h.nodup
  have hns : ∀ n ∈ ns, n ≠ node := fun n hn heq => hnodup.1 (heq ▸ hn)
  have haddr : ∀ n ∈ ns, n < 2 ^ 64 := fun n hn => h.addr n (List.mem_cons_of_mem _ hn)
  have hqlen : queue.qlen - 1 = ns.length := by
    rw [h.qlen, List.length_cons, Nat.add_sub_cancel]
  have hsame : SameQueue queue { queue with
      elems := ns.headD 0, tail := if ns = [] then 0 else queue.tail, qlen := queue.qlen - 1 } :=
    ⟨rfl, rfl, rfl⟩
  refine ⟨_, _, h.remove_eq, ?_, unlinkFirst_moved _ _ _ hsame _⟩
  cases ns with
  | nil =>
      constructor
      case next => simp
      case prev => simp
      case qlen => exact hqlen
      case addr => exact haddr
  | cons b ns =>
      have hnext : (heap.qnode node).next = b := h.next.2.2.1
      have hbn : b ≠ node := hns b (by simp)
      have hrest := List.nodup_cons.mp hnodup.2
      constructor
      case next =>
        have hchain := h.next.2.2
        simp only [hnext] at hchain
        exact hchain.congr fun n hn => by simp [unlinkFirst, hns n hn]
      case prev =>
        have hprev := h.prev
        rw [List.reverse_cons, List.reverse_cons, List.append_assoc] at hprev
        rw [List.reverse_cons]
        simp only [List.cons_ne_nil, if_false]
        refine hprev.cut ?_ ?_
        · intro n hn
          have hn' := List.mem_reverse.mp hn
          have hnb : n ≠ b := fun heq => hrest.1 (heq ▸ hn')
          simp [unlinkFirst, hnb, hns n (by simp [hn'])]
        · simp [unlinkFirst]
      case qlen => exact hqlen
      case addr => exact haddr

/-! ## Clearing -/

/-- A function that is given a node does not touch the links of the others. -/
def Local (free : Nat → Heap → Heap) : Prop :=
  ∀ (node : Nat) (heap : Heap) (ns : List Nat), node ∉ ns → SameLinks heap (free node heap) ns

/-- The memory after the nodes are taken out one by one, each handed to {lit}`free`. -/
def handAll (free : Nat → Heap → Heap) : List Nat → Heap → Heap
  | [], heap => heap
  | node :: ns, heap => handAll free ns (free node (unlinkFirst heap (node :: ns)))

/-- A queue without nodes. -/
def emptied (queue : SmpQueue) : SmpQueue := { queue with elems := 0, tail := 0, qlen := 0 }

theorem emptied_nil (heap : Heap) (queue : SmpQueue) : Fifo heap (emptied queue) [] := by
  constructor
  case next => simp [emptied]
  case prev => simp [emptied]
  case qlen => rfl
  case addr => simp

/-- An empty queue is emptied. -/
theorem emptied_of_nil (h : Fifo heap queue []) : emptied queue = queue := by
  have hlen : queue.qlen = 0 := h.qlen
  have helems : queue.elems = 0 := h.next
  have htail : queue.tail = 0 := h.tail_eq
  rcases queue with ⟨addr, qlen, elems, tail, freeQnode, quotes⟩
  simp only at hlen helems htail
  simp [emptied, hlen, helems, htail]

/-- Clearing hands all nodes to the free function, in order. -/
theorem qclean_some (h : Fifo heap queue ns) {free : Nat → Heap → Heap}
    (hfree : queue.freeQnode = some free) (hlocal : Local free) (hfuel : ns.length < fuel) :
    smpQclean fuel heap queue = .ok (handAll free ns heap, emptied queue, ns) := by
  by_cases hempty : queue.elems = 0
  · have hnil := h.empty_iff.1.mp hempty
    subst hnil
    rw [h.emptied_of_nil]
    simp [smpQclean, hempty, handAll]
  · have hloop : ∃ s, loop .diverged qcleanPass fuel (heap, queue, []) = .ok s ∧
        s.1 = handAll free ns heap ∧ emptied s.2.1 = emptied queue ∧ s.2.2 = ns := by
      apply loop_spec (fun k (s : CleanState) => ∃ rest, ns = s.2.2 ++ rest ∧ rest.length = k ∧
        Fifo s.1 s.2.1 rest ∧ handAll free rest s.1 = handAll free ns heap ∧
        emptied s.2.1 = emptied queue)
      · rintro k ⟨heap₁, queue₁, handed⟩ ⟨rest, hsplit, hk, hfifo, hheap, hsame⟩
        simp only at hsplit hfifo hheap hsame
        have hqfree : queue₁.freeQnode = some free :=
          (congrArg SmpQueue.freeQnode hsame).trans hfree
        cases rest with
        | nil =>
            left
            rw [List.append_nil] at hsplit
            refine ⟨(heap₁, queue₁, handed), ?_, hheap, hsame, hsplit.symm⟩
            simp [qcleanPass, hfifo.remove_nil]
        | cons node rest =>
            right
            rcases hfifo.remove with ⟨heap₂, queue₂, hrun, hfifo₂, hmoved⟩
            have hne : node ≠ 0 := hfifo.ne_zero (by simp)
            have hout : node ∉ rest := (List.nodup_cons.mp hfifo.nodup).1
            have heq := hfifo.remove_eq
            rw [hrun, Prod.mk.injEq, Prod.mk.injEq] at heq
            rcases heq with ⟨-, rfl, rfl⟩
            refine ⟨(free node (unlinkFirst heap₁ (node :: rest)), _, handed ++ [node]),
              rest.length, ?_, ⟨rest, by simp [hsplit], rfl,
                hfifo₂.congr (hlocal node _ rest hout), hheap, hsame⟩, ?_⟩
            · simp [qcleanPass, hrun, hne, hqfree]
            · rw [← hk, List.length_cons]
              exact Nat.lt_succ_self _
      · exact ⟨ns, rfl, rfl, h, rfl, rfl⟩
      · exact hfuel
    rcases hloop with ⟨⟨heap', queue', handed⟩, hrun, hheap, hsame, hhanded⟩
    simp only at hheap hsame hhanded
    subst hheap hhanded
    rw [← hsame, smpQclean, if_neg hempty, hrun]
    rfl

/-- Without a free function clearing takes out the first node and hands over none. -/
theorem qclean_none (h : Fifo heap queue ns) (hfree : queue.freeQnode = none) (hfuel : 0 < fuel) :
    smpQclean fuel heap queue = .ok (unlinkFirst heap ns, emptied queue, []) := by
  rcases Nat.exists_eq_succ_of_ne_zero (Nat.pos_iff_ne_zero.mp hfuel) with ⟨fuel, rfl⟩
  cases ns with
  | nil =>
      have hempty : queue.elems = 0 := h.next
      rw [h.emptied_of_nil]
      simp [smpQclean, hempty, unlinkFirst]
  | cons node ns =>
      have hne : node ≠ 0 := h.ne_zero (by simp)
      have helems : queue.elems ≠ 0 := h.elems_eq ▸ hne
      simp [smpQclean, helems, loop, qcleanPass, h.remove_eq, hne, hfree, emptied]

/-- The nodes that clearing hands over. -/
def handedOver (queue : SmpQueue) (ns : List Nat) : List Nat :=
  if queue.freeQnode.isNone then [] else ns

/-- The memory after clearing. -/
def cleared (queue : SmpQueue) (ns : List Nat) (heap : Heap) : Heap :=
  match queue.freeQnode with
  | some free => handAll free ns heap
  | none => unlinkFirst heap ns

/-- Clearing empties a queue. -/
theorem qclean (h : Fifo heap queue ns) (hlocal : ∀ free ∈ queue.freeQnode, Local free)
    (hfuel : ns.length < fuel) :
    smpQclean fuel heap queue =
      .ok (cleared queue ns heap, emptied queue, handedOver queue ns) := by
  unfold handedOver cleared
  cases hfree : queue.freeQnode with
  | none => exact h.qclean_none hfree (Nat.zero_lt_of_lt hfuel)
  | some free => exact h.qclean_some hfree (hlocal free hfree) hfuel

/-! ## The ring -/

/-- The successor of a node in the ring. -/
theorem qnodeNext_eq (h : Fifo heap queue ns) (hn : node ∈ ns) :
    smpQnodeNext heap queue node = ns.next node hn := by
  rw [← h.next.ring_next hn]
  simp only [smpQnodeNext, if_neg (h.ne_zero hn), smpQfront, smpCntQnode_eq]

/-- The predecessor of a node in the ring. -/
theorem qnodePrev_eq (h : Fifo heap queue ns) (hn : node ∈ ns) :
    smpQnodePrev heap queue node = ns.prev node hn := by
  rw [← List.next_reverse_eq_prev ns h.nodup node hn,
    ← h.prev.ring_next (List.mem_reverse.mpr hn)]
  simp only [smpQnodePrev, if_neg (h.ne_zero hn), smpQrear, smpCntQnode_eq]

end Fifo

end Queue
end Smpcil
