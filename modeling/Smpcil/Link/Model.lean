import Smpcil.Pool.Calls
import Smpcil.Foundations.Loop
import Mathlib.Logic.Function.Basic
import Mathlib.Tactic.Simps.Basic

/-!
# The link of `smp_link.c`

A doubly linked list of data pointers.  Nodes are taken from the pool of the link and,
once removed, kept on the chain {lit}`recover` for later insertions.  The nodes live in a
memory indexed by address; a null address is {lit}`0`.

A ghost counter records the nodes taken from the pool.  No function reads it.
-/

namespace Smpcil
namespace Link

open Loops (Pass loop)

variable {π : Type}

/-- `SMP_LINK_POOL_SIZE`. -/
def linkPoolSize : Nat := 1024

/-- `sizeof(struct smp_link_s)`. -/
def sizeofLink : Nat := 144

/-- `sizeof(struct smp_link_node_s)`. -/
def sizeofLinkNode : Nat := 24

/-- `struct smp_link_node_s`. -/
structure LinkNode where
  next : Nat
  prev : Nat
  data : VoidPtr
deriving DecidableEq, Repr

/-- `struct smp_link_s`, with the memory {lit}`mem` of the nodes. -/
structure SmpLink (π : Type) where
  size : Nat
  node : Nat
  tail : Nat
  dataFree : VoidPtr
  recover : Nat
  quotes : Nat
  pool : π
  mem : Nat → LinkNode
  taken : Nat

namespace SmpLink

/-- `n->next = v`. -/
@[simps size node tail recover pool taken]
def setNext (link : SmpLink π) (n v : Nat) : SmpLink π :=
  { link with mem := Function.update link.mem n { link.mem n with next := v } }

/-- `n->prev = v`. -/
@[simps size node tail recover pool taken]
def setPrev (link : SmpLink π) (n v : Nat) : SmpLink π :=
  { link with mem := Function.update link.mem n { link.mem n with prev := v } }

/-- `n->data = v`. -/
@[simps size node tail recover pool taken]
def setData (link : SmpLink π) (n : Nat) (v : VoidPtr) : SmpLink π :=
  { link with mem := Function.update link.mem n { link.mem n with data := v } }

end SmpLink

/-! ## Nodes -/

/-- `smp_lnode_create`; null if there is no memory. -/
def smpLnodeCreate (calls : PoolCalls π) (link : SmpLink π) : Exec (Nat × SmpLink π) := do
  if link.recover ≠ 0 then
    let node := link.recover
    let link := { link with recover := (link.mem node).next }
    return (node, link.setNext node 0)
  let (node, pool) ← calls.mpalloc link.pool sizeofLinkNode
  let link := { link with pool := pool }
  if node = NULL then return (0, link)
  let link := { link with taken := link.taken + 1 }
  return (node, ((link.setData node NULL).setPrev node 0).setNext node 0)

/-- `smp_link_node_recover`. -/
def smpLinkNodeRecover (link : SmpLink π) (node : Nat) : SmpLink π :=
  let link := ((link.setNext node 0).setPrev node 0).setData node NULL
  if link.recover = 0 then { link with recover := node }
  else { link.setNext node link.recover with recover := node }

/-! ## Creation and insertion -/

/-- What the memory of a new link holds before anything is stored there: the field
{lit}`recover`, and the bytes that become nodes. -/
structure Contents where
  recover : Nat
  mem : Nat → LinkNode

/-- `smp_link_init` with `__smp_link_init`, which leaves {lit}`recover` as it finds it; the
second component is the state that a failed call leaves. -/
def smpLinkInit (calls : PoolCalls π) (pool : π) (raw : Contents) (freeFunc : VoidPtr) :
    Exec (Option (SmpLink π) × π) := do
  let (created, pool) ← calls.create pool linkPoolSize
  if ¬ created then return (none, pool)
  let (m, pool) ← calls.mpalloc pool sizeofLink
  if m = NULL then return (none, ← calls.destory pool)
  return (some
    { size := 0
      node := 0
      tail := 0
      dataFree := freeFunc
      recover := raw.recover
      quotes := 1
      pool := pool
      mem := raw.mem
      taken := 0 }, pool)

/-- `__smp_link_insert`. -/
def linkInsert (link : SmpLink π) (node : Nat) : SmpLink π :=
  let link :=
    if link.node = 0 then { link with node := node, tail := node }
    else { (link.setNext link.tail node).setPrev node link.tail with tail := node }
  { link with size := (link.size + 1) % 2 ^ 64 }

/-- `smp_link_insert`. -/
def smpLinkInsert (calls : PoolCalls π) (link : SmpLink π) (data : VoidPtr) :
    Exec (Nat × SmpLink π) := do
  if data = NULL then return (0, link)
  let (node, link) ← smpLnodeCreate calls link
  if node = 0 then return (0, link)
  return (node, (linkInsert link node).setData node data)

/-! ## Removal -/

/-- `link->size--`. -/
@[simps node tail recover pool taken mem]
def decSize (link : SmpLink π) : SmpLink π :=
  { link with size := if link.size = 0 then 2 ^ 64 - 1 else link.size - 1 }

/-- `smp_link_rm_node`, which returns its argument. -/
def smpLinkRmNode (link : SmpLink π) (node : Nat) : SmpLink π :=
  if node = link.node then
    let link :=
      if (link.mem link.node).next = 0 then { link with node := 0, tail := 0 }
      else
        let link := { link with node := (link.mem link.node).next }
        link.setPrev link.node 0
    decSize ((link.setNext node 0).setPrev node 0)
  else if node = link.tail then
    let link :=
      if link.tail = link.node then { link with node := 0, tail := 0 }
      else
        let link := { link with tail := (link.mem link.tail).prev }
        link.setNext link.tail 0
    decSize ((link.setNext node 0).setPrev node 0)
  else
    let link := link.setNext (link.mem node).prev (link.mem node).next
    let link := link.setPrev (link.mem node).next (link.mem node).prev
    decSize ((link.setPrev node 0).setNext node 0)

/-- The end of the three removals: take {lit}`node` out, keep its data, recycle it. -/
def removeNode (link : SmpLink π) (node : Nat) : VoidPtr × SmpLink π :=
  let link := smpLinkRmNode link node
  let data := (link.mem node).data
  (data, smpLinkNodeRecover link node)

/-- `smp_link_node_rm_athead`. -/
def smpLinkNodeRmAthead (link : SmpLink π) : VoidPtr × SmpLink π :=
  if link.node = 0 then (NULL, link) else removeNode link link.node

/-- `smp_link_node_rm_attail`. -/
def smpLinkNodeRmAttail (link : SmpLink π) : VoidPtr × SmpLink π :=
  if link.tail = 0 then (NULL, link) else removeNode link link.tail

/-- One pass of the search of `smp_link_node_rm`; null at the end of the chain. -/
def rmPass (link : SmpLink π) (data : VoidPtr) (cmpFunc : VoidPtr → VoidPtr → Int) (node : Nat) :
    Exec (Pass Nat Nat) :=
  if node ≠ 0 then
    if cmpFunc (link.mem node).data data = 0 then .ok (.done node)
    else .ok (.again (link.mem node).next)
  else .ok (.done 0)

/-- `smp_link_node_rm`. -/
def smpLinkNodeRm (fuel : Nat) (link : SmpLink π) (data : VoidPtr)
    (cmpFunc : VoidPtr → VoidPtr → Int) : Exec (VoidPtr × SmpLink π) := do
  if data = NULL then return (NULL, link)
  let node ← loop .diverged (rmPass link data cmpFunc) fuel link.node
  if node = 0 then return (NULL, link)
  return removeNode link node

/-! ## References and destruction -/

/-- `smp_link_size`. -/
def smpLinkSize (link : SmpLink π) : Nat := link.size

/-- `smp_link_quote_inc`. -/
def smpLinkQuoteInc (link : SmpLink π) : Int × SmpLink π :=
  let quotes := (link.quotes + 1) % 2 ^ 32
  (toInt quotes, { link with quotes := quotes })

/-- `smp_link_quote_dec`. -/
def smpLinkQuoteDec (link : SmpLink π) : Int × SmpLink π :=
  let quotes := if link.quotes = 0 then 2 ^ 32 - 1 else link.quotes - 1
  (toInt quotes, { link with quotes := quotes })

/-- One pass of `smp_link_traversal`; the state is the node and the data visited so far. -/
def traversalPass (link : SmpLink π) (s : Nat × List VoidPtr) :
    Exec (Pass (Nat × List VoidPtr) (List VoidPtr)) :=
  let (node, visited) := s
  if node ≠ 0 then .ok (.again ((link.mem node).next, visited ++ [(link.mem node).data]))
  else .ok (.done visited)

/-- `smp_link_traversal`: the data handed to the visitor, in order. -/
def smpLinkTraversal (fuel : Nat) (link : SmpLink π) (visit : VoidPtr) : Exec (List VoidPtr) :=
  if visit = NULL then .ok []
  else loop .diverged (traversalPass link) fuel (link.node, [])

/-- `smp_link_destory`, with the data handed to `data_free`. -/
def smpLinkDestory (calls : PoolCalls π) (fuel : Nat) (link : SmpLink π) :
    Exec (Status × π × List VoidPtr) := do
  let freed ← smpLinkTraversal fuel link link.dataFree
  let pool ← calls.destory link.pool
  return (.ok, pool, freed)

end Link
end Smpcil
