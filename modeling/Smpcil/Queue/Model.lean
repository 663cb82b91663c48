import Smpcil.Basic
import Smpcil.Foundations.Loop
import Mathlib.Logic.Function.Basic
import Mathlib.Tactic.Simps.Basic

/-!
# The queue of `smp_queue.c`

An intrusive queue: nodes are linked both ways and may be put into a queue, taken out and
put in again.  The nodes live in a memory indexed by address; a null address is {lit}`0`.
The link is the first field of a node, so a node and its container have one address.

What `malloc` answers is a parameter.  A log records every call of `free` and of a function
given to free data, in order; no function reads it.
-/

namespace Smpcil
namespace Queue

open Loops (Pass loop)

/-- `struct smp_queue_node_s`; {lit}`prev` and {lit}`next` are the fields of `link`. -/
structure QNode where
  prev : Nat
  next : Nat
  data : VoidPtr
  freeQdata : VoidPtr
deriving DecidableEq, Repr

/-- The structs that are allocated one by one. -/
inductive Object where
  | qnode
  | queue
  | rnode
  | rbt
deriving DecidableEq, Repr

/-- What the log records. -/
inductive Event where
  /-- `free` of a struct. -/
  | free (object : Object) (addr : Nat)
  /-- A call of the function at {lit}`fn` to free {lit}`data`. -/
  | freeData (fn data : VoidPtr)
deriving DecidableEq, Repr

/-- The answers of `malloc` to the requests of a run, in order; {lit}`none` is a refusal. -/
abbrev Answers := Nat → Option Nat

/-- The memory of the nodes, the number of requests made, and the log. -/
structure Heap where
  qnode : Nat → QNode
  requests : Nat
  log : List Event

namespace Heap

/-- `n->link.prev = v`. -/
@[simps requests log]
def setPrev (heap : Heap) (n v : Nat) : Heap :=
  { heap with qnode := Function.update heap.qnode n { heap.qnode n with prev := v } }

/-- `n->link.next = v`. -/
@[simps requests log]
def setNext (heap : Heap) (n v : Nat) : Heap :=
  { heap with qnode := Function.update heap.qnode n { heap.qnode n with next := v } }

/-- `n->data = v`. -/
@[simps requests log]
def setData (heap : Heap) (n : Nat) (v : VoidPtr) : Heap :=
  { heap with qnode := Function.update heap.qnode n { heap.qnode n with data := v } }

/-- Append to the log. -/
@[simps qnode requests log]
def record (heap : Heap) (e : Event) : Heap := { heap with log := heap.log ++ [e] }

end Heap

/-- `smp_calloc`; null if the request is refused. -/
def smpCalloc (answers : Answers) (heap : Heap) : Nat × Heap :=
  ((answers heap.requests).getD 0, { heap with requests := heap.requests + 1 })

/-- `struct smp_queue_s` at {lit}`addr`. -/
structure SmpQueue where
  addr : Nat
  qlen : Nat
  elems : Nat
  tail : Nat
  freeQnode : Option (Nat → Heap → Heap)
  quotes : Nat

/-! ## References -/

/-- `smp_queue_quote_dec`. -/
def smpQueueQuoteDec (queue : SmpQueue) : Int × SmpQueue :=
  let quotes := if queue.quotes = 0 then 2 ^ 32 - 1 else queue.quotes - 1
  (toInt quotes, { queue with quotes := quotes })

/-- `smp_queue_quote_inc`. -/
def smpQueueQuoteInc (queue : SmpQueue) : Int × SmpQueue :=
  let quotes := (queue.quotes + 1) % 2 ^ 32
  (toInt quotes, { queue with quotes := quotes })

/-! ## Creation -/

/-- `smp_qinit`. -/
def smpQinit (queue : SmpQueue) (freeNode : Option (Nat → Heap → Heap)) : SmpQueue :=
  let queue := { queue with qlen := 0, freeQnode := freeNode }
  let (quotes, queue) := smpQueueQuoteInc queue
  { queue with quotes := toUint quotes, elems := 0, tail := 0 }

/-- `smp_queue_create`. -/
def smpQueueCreate (answers : Answers) (heap : Heap) (freeNode : Option (Nat → Heap → Heap)) :
    Option SmpQueue × Heap :=
  let (addr, heap) := smpCalloc answers heap
  if addr = 0 then (none, heap)
  else
    (some (smpQinit
      { addr := addr, qlen := 0, elems := 0, tail := 0, freeQnode := none, quotes := 0 }
      freeNode), heap)

/-- `smp_qnode_create` with `smp_qnode_init`; null if there is no memory. -/
def smpQnodeCreate (answers : Answers) (heap : Heap) (freeQdata data : VoidPtr) : Nat × Heap :=
  let (node, heap) := smpCalloc answers heap
  if node = 0 then (0, heap)
  else (node, { heap with qnode := Function.update heap.qnode node ⟨0, 0, data, freeQdata⟩ })

/-! ## Queries -/

/-- `offsetof(smp_qnode_t, link)`. -/
def offsetofLink : Nat := 0

/-- `smp_cnt_qnode`. -/
def smpCntQnode (cnt : Nat) : Nat := if cnt = 0 then 0 else cnt - offsetofLink

/-- `smp_qlen`. -/
def smpQlen (queue : SmpQueue) : Int := toInt queue.qlen

/-- `smp_qempty`. -/
def smpQempty (queue : SmpQueue) : Bool := ¬ queue.qlen > 0

/-- `smp_qfront`. -/
def smpQfront (queue : SmpQueue) : Nat := smpCntQnode queue.elems

/-- `smp_qrear`. -/
def smpQrear (queue : SmpQueue) : Nat := smpCntQnode queue.tail

/-- `smp_qnode_prev`. -/
def smpQnodePrev (heap : Heap) (queue : SmpQueue) (node : Nat) : Nat :=
  if node = 0 then 0
  else if (heap.qnode node).prev = 0 then smpQrear queue
  else smpCntQnode (heap.qnode node).prev

/-- `smp_qnode_next`. -/
def smpQnodeNext (heap : Heap) (queue : SmpQueue) (node : Nat) : Nat :=
  if node = 0 then 0
  else if (heap.qnode node).next = 0 then smpQfront queue
  else smpCntQnode (heap.qnode node).next

/-! ## Moves -/

/-- `smp_qenter`. -/
def smpQenter (heap : Heap) (queue : SmpQueue) (node : Nat) : Status × Heap × SmpQueue :=
  if node = 0 then (.failure, heap, queue)
  else
    let (heap, queue) :=
      if queue.qlen = 0 ∧ queue.elems = 0 then
        ((heap.setNext node 0).setPrev node 0, { queue with elems := node, tail := node })
      else
        (((heap.setNext queue.tail node).setPrev node queue.tail).setNext node 0,
          { queue with tail := node })
    (.ok, heap, { queue with qlen := (queue.qlen + 1) % 2 ^ 64 })

/-- `smp_qnode_remove`; null if there is no node. -/
def smpQnodeRemove (heap : Heap) (queue : SmpQueue) : Nat × Heap × SmpQueue :=
  if queue.elems = 0 ∨ queue.qlen = 0 then (0, heap, queue)
  else
    let cnt := queue.elems
    let (heap, queue) :=
      if queue.tail = queue.elems then (heap, { queue with elems := 0, tail := 0 })
      else
        let queue := { queue with elems := (heap.qnode queue.elems).next }
        (heap.setPrev queue.elems 0, queue)
    let heap := (heap.setNext cnt 0).setPrev cnt 0
    (smpCntQnode cnt, heap, { queue with qlen := queue.qlen - 1 })

/-- `smp_qnode_destory`. -/
def smpQnodeDestory (node : Nat) (heap : Heap) : Heap :=
  if node = 0 then heap
  else
    let heap :=
      if (heap.qnode node).freeQdata ≠ NULL ∧ (heap.qnode node).data ≠ NULL then
        heap.record (.freeData (heap.qnode node).freeQdata (heap.qnode node).data)
      else heap
    heap.record (.free .qnode node)

/-- `smp_qinsert`; a node that is not put into the queue is freed. -/
def smpQinsert (answers : Answers) (heap : Heap) (queue : SmpQueue) (data freeQdata : VoidPtr) :
    Nat × Heap × SmpQueue :=
  if data = NULL then (0, heap, queue)
  else
    let (node, heap) := smpQnodeCreate answers heap freeQdata data
    if node = 0 then (0, heap, queue)
    else
      match smpQenter heap queue node with
      | (.ok, heap, queue) => (node, heap, queue)
      | (.failure, heap, queue) => (0, smpQnodeDestory node heap, queue)

/-- `smp_qnode_delete`. -/
def smpQnodeDelete (heap : Heap) (queue : SmpQueue) : Status × Heap × SmpQueue :=
  if queue.elems = 0 ∨ queue.qlen = 0 then (.ok, heap, queue)
  else
    match smpQnodeRemove heap queue with
    | (node, heap, queue) =>
        if node = 0 then (.failure, heap, queue)
        else (.ok, smpQnodeDestory node heap, queue)

/-! ## Clearing -/

/-- The state of the loop of `smp_qclean`: memory, queue, and the nodes handed to
`free_qnode` so far. -/
abbrev CleanState := Heap × SmpQueue × List Nat

/-- One pass of the loop of `smp_qclean`. -/
def qcleanPass (s : CleanState) : Exec (Pass CleanState CleanState) :=
  match s with
  | (heap, queue, handed) =>
      match smpQnodeRemove heap queue with
      | (node, heap, queue) =>
          if node = 0 then .ok (.done (heap, queue, handed))
          else
            match queue.freeQnode with
            | none => .ok (.done (heap, queue, handed))
            | some free => .ok (.again (free node heap, queue, handed ++ [node]))

/-- `smp_qclean`, with the nodes it hands to `free_qnode`, in order. -/
def smpQclean (fuel : Nat) (heap : Heap) (queue : SmpQueue) : Exec CleanState := do
  if queue.elems = 0 then return (heap, queue, [])
  let (heap, queue, handed) ← loop .diverged qcleanPass fuel (heap, queue, [])
  return (heap, { queue with elems := 0, tail := 0, qlen := 0 }, handed)

/-- `smp_qdestory`; the queue itself is gone if no reference is left. -/
def smpQdestory (fuel : Nat) (heap : Heap) (queue : SmpQueue) :
    Exec (Status × Heap × Option SmpQueue × List Nat) := do
  let (quotes, queue) := smpQueueQuoteDec queue
  if quotes = 0 then
    let (heap, queue, handed) ← smpQclean fuel heap queue
    return (.ok, heap.record (.free .queue queue.addr), none, handed)
  return (.failure, heap, some queue, [])

/-! ## Traversal -/

/-- The state of the loop of the traversals: memory, queue, the container at hand, and the nodes
visited so far. -/
structure VisitState where
  heap : Heap
  queue : SmpQueue
  nodeCnt : Nat
  visited : List Nat

/-- One pass of the loop of `smp_queue_traversal`; the container's successor is read after the
visit. -/
def traversalPass (visit : Nat → Heap → SmpQueue → Heap × SmpQueue) (s : VisitState) :
    Exec (Pass VisitState VisitState) :=
  if s.nodeCnt = 0 then .ok (.done s)
  else
    let node := smpCntQnode s.nodeCnt
    let (heap, queue) := if node ≠ 0 then visit node s.heap s.queue else (s.heap, s.queue)
    let visited := if node ≠ 0 then s.visited ++ [node] else s.visited
    .ok (.again ⟨heap, queue, (heap.qnode s.nodeCnt).next, visited⟩)

/-- `smp_queue_traversal`, with the nodes it visits, in order; a visit may change the nodes and
the queue. -/
def smpQueueTraversal (fuel : Nat) (heap : Heap) (queue : SmpQueue)
    (visit : Nat → Heap → SmpQueue → Heap × SmpQueue) :
    Exec (Status × Heap × SmpQueue × List Nat) := do
  if queue.elems = 0 ∨ queue.qlen = 0 then return (.ok, heap, queue, [])
  let s ← loop .diverged (traversalPass visit) fuel ⟨heap, queue, queue.elems, []⟩
  return (.ok, s.heap, s.queue, s.visited)

/-- `smp_qnode_traversal`: the visitor is given the node only. -/
def smpQnodeTraversal (fuel : Nat) (heap : Heap) (queue : SmpQueue) (visit : Nat → Heap → Heap) :
    Exec (Status × Heap × SmpQueue × List Nat) :=
  smpQueueTraversal fuel heap queue fun node heap queue => (visit node heap, queue)

end Queue
end Smpcil
