import Smpcil.Tree.Model
import Smpcil.Queue.Model

/-!
# The teardown of a tree

`smp_rbt_destory` walks a red-black tree in breadth-first order and frees each node as it
meets it.  The nodes still to come wait in one queue, and cells that have done their work
in a second one, from which they are taken again.

The log of the queues also records the nodes and keys that are freed, and an access to a
node that the log shows as freed is a fault.
-/

namespace Smpcil
namespace Teardown

open RbTree (Ptr Rbt)
open Queue (Heap SmpQueue Answers Event smpQueueCreate smpQnodeCreate smpQenter smpQnodeRemove
  smpQnodeDestory smpQdestory)
open Loops (Pass loop)

/-! ## Nodes -/

/-- The cast from `struct smp_rbt_node_s *` to `void *`. -/
def toVoid : Ptr → VoidPtr
  | .null => NULL
  | .nil => 1
  | .node a => a + 2

/-- The cast from `void *` to `struct smp_rbt_node_s *`. -/
def ofVoid : VoidPtr → Ptr
  | 0 => .null
  | 1 => .nil
  | a + 2 => .node a

/-- An access to the node {lit}`p`. -/
def touchNode (heap : Heap) (p : Ptr) : Exec Unit :=
  if .free .rnode (toVoid p) ∈ heap.log then .error .useAfterFree else .ok ()

/-- `smp_rbt_keyfree *`: the function given to `smp_rbt_create`, which is called without a check
for null. -/
structure KeyFree where
  addr : VoidPtr
  callable : addr ≠ NULL

/-- `smp_rnode_destory`. -/
def smpRnodeDestory (rbt : Rbt) (freeKey : KeyFree) (heap : Heap) (node : Ptr) : Exec Heap := do
  if node = .null then return heap
  touchNode heap node
  let heap :=
    if rbt.key node ≠ NULL then heap.record (.freeData freeKey.addr (rbt.key node)) else heap
  return heap.record (.free .rnode (toVoid node))

/-- `smp_rnode_delete`. -/
def smpRnodeDelete (freeKey : KeyFree) (fuel : Nat) (rbt : Rbt) (heap : Heap) (nd : Ptr) :
    Exec (Status × Rbt × Heap) := do
  let (nd, rbt) ← RbTree.smpRnodeRemove fuel rbt nd
  if nd = .null then return (.ok, rbt, heap)
  let heap ← smpRnodeDestory rbt freeKey heap nd
  return (.ok, rbt, heap)

/-- `smp_rnode_delete_bykey`. -/
def smpRnodeDeleteBykey (keyCmp : VoidPtr → VoidPtr → Int) (freeKey : KeyFree) (fuel : Nat)
    (rbt : Rbt) (heap : Heap) (key : VoidPtr) : Exec (Status × Rbt × Heap) := do
  let (node, rbt) ← RbTree.smpRnodeFindRemove keyCmp fuel rbt key
  if node = .null then return (.ok, rbt, heap)
  let heap ← smpRnodeDestory rbt freeKey heap node
  return (.ok, rbt, heap)

/-! ## The walk -/

/-- What the walk works on. -/
structure State where
  rbt : Rbt
  heap : Heap
  busy : SmpQueue
  idle : SmpQueue

/-- `smp_rnode_enter_queue`: a cell for {lit}`rnode`, taken again or new. -/
def smpRnodeEnterQueue (answers : Answers) (s : State) (rnode : Ptr) : Status × State :=
  match smpQnodeRemove s.heap s.idle with
  | (qnode, heap, idle) =>
      let (qnode, heap) :=
        if qnode = 0 then smpQnodeCreate answers heap NULL (toVoid rnode)
        else (qnode, heap.setData qnode (toVoid rnode))
      match smpQenter heap s.busy qnode with
      | (st, heap, busy) => (st, { s with heap := heap, busy := busy, idle := idle })

/-- `rnode->left = rnode->right = rnode->carrier = rnode->parent = NULL`. -/
def clearNode (rbt : Rbt) (rnode : Ptr) : Rbt :=
  rbt.store rnode
    { rbt.mem rnode with parent := .null, carrier := NULL, right := .null, left := .null }

/-- `rbt->size--`. -/
def decSize (rbt : Rbt) : Rbt :=
  { rbt with size := if rbt.size = 0 then 2 ^ 64 - 1 else rbt.size - 1 }

/-- Enter a child of {lit}`rnode`, if there is one. -/
def enterChild (answers : Answers) (d : RedBlack.Side) (s : State) (rnode : Ptr) : Exec State := do
  touchNode s.heap rnode
  if s.rbt.child d rnode ≠ .nil then
    return (smpRnodeEnterQueue answers s (s.rbt.child d rnode)).2
  else return s

/-- One pass of the loop of `smp_do_rbt_clean`; the state is `qnode` and what the walk works
on. -/
def doRbtCleanPass (answers : Answers) (freeKey : KeyFree) (st : Nat × State) :
    Exec (Pass (Nat × State) State) := do
  let (qnode, s) := st
  if qnode ≠ 0 then
    let rnode := ofVoid (s.heap.qnode qnode).data
    let s := { s with rbt := decSize s.rbt }
    let s ← enterChild answers .left s rnode
    let s ← enterChild answers .right s rnode
    touchNode s.heap rnode
    let s := { s with rbt := clearNode s.rbt rnode }
    let heap ← smpRnodeDestory s.rbt freeKey s.heap rnode
    match smpQenter (heap.setData qnode NULL) s.idle qnode with
    | (_, heap, idle) =>
        match smpQnodeRemove heap s.busy with
        | (qnode, heap, busy) =>
            return .again (qnode, { s with heap := heap, busy := busy, idle := idle })
  else return .done s

/-- `smp_do_rbt_clean` before its loop: a cell for the root enters and leaves the first
queue. -/
def doRbtCleanStart (answers : Answers) (s : State) : Nat × State :=
  match smpQnodeCreate answers s.heap NULL (toVoid s.rbt.root) with
  | (qnode, heap) =>
      match smpQenter heap s.busy qnode with
      | (_, heap, busy) =>
          match smpQnodeRemove heap busy with
          | (qnode, heap, busy) => (qnode, { s with heap := heap, busy := busy })

/-- `smp_do_rbt_clean`. -/
def smpDoRbtClean (answers : Answers) (freeKey : KeyFree) (fuel : Nat) (s : State) :
    Exec (Status × State) := do
  let s ← loop .diverged (doRbtCleanPass answers freeKey) fuel (doRbtCleanStart answers s)
  return (.ok, s)

/-! ## The tree -/

/-- `smp_rbt_clean`. -/
def smpRbtClean (answers : Answers) (freeKey : KeyFree) (fuel : Nat) (rbt : Rbt) (heap : Heap) :
    Exec (Status × Rbt × Heap) := do
  if rbt.root = .nil then return (.ok, rbt, heap)
  match smpQueueCreate answers heap (some smpQnodeDestory) with
  | (none, heap) => return (.failure, rbt, heap)
  | (some busy, heap) =>
      match smpQueueCreate answers heap (some smpQnodeDestory) with
      | (none, heap) =>
          let (_, heap, _) ← smpQdestory fuel heap busy
          return (.failure, rbt, heap)
      | (some idle, heap) =>
          let (st, s) ← smpDoRbtClean answers freeKey fuel ⟨rbt, heap, busy, idle⟩
          let (_, heap, _) ← smpQdestory fuel s.heap s.busy
          let (_, heap, _) ← smpQdestory fuel heap s.idle
          return (st, s.rbt, heap)

/-- `smp_rbt_free` of the struct at {lit}`addr`. -/
def smpRbtFree (addr : Nat) (rbt : Rbt) (heap : Heap) : Status × Heap :=
  if RbTree.smpRbtSize rbt > 0 then (.failure, heap) else (.ok, heap.record (.free .rbt addr))

/-- `smp_rbt_destory` of the struct at {lit}`addr`. -/
def smpRbtDestory (answers : Answers) (addr : Nat) (freeKey : KeyFree) (fuel : Nat) (rbt : Rbt)
    (heap : Heap) : Exec (Status × Rbt × Heap) := do
  let (_, rbt, heap) ← smpRbtClean answers freeKey fuel rbt heap
  let (_, heap) := smpRbtFree addr rbt heap
  return (.ok, rbt, heap)

end Teardown
end Smpcil
