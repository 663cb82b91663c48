import Smpcil.Pool.Calls
import Smpcil.Foundations.Loop
import Mathlib.Logic.Function.Basic
import Mathlib.Tactic.Simps.Basic

/-!
# The list of `smp_list.c`

A list is a chain of parts with room for {lit}`part_elem_maxmnt` elements each.  The first part
is the first field of the list, so it has the address of the list; the others come from the
pool.  The parts live in a memory indexed by address; a null address is {lit}`0`.
-/

namespace Smpcil
namespace PartList

open Loops (Pass loop)

variable {π : Type}

/-- `SMP_LIST_POOL_SIZE`. -/
def listPoolSize : Nat := 4096

/-- `sizeof(struct smp_list_s)`. -/
def sizeofList : Nat := 56

/-- `sizeof(struct smp_lpart_s)`. -/
def sizeofLpart : Nat := 24

/-- `sizeof(int)`. -/
def sizeofInt : Nat := 4

/-- `struct smp_lpart_s`. -/
structure Lpart where
  elems : VoidPtr
  next : Nat
  elemMnt : Nat
deriving DecidableEq, Repr

/-- `struct smp_list_s` at {lit}`addr`, with the memory {lit}`mem` of the parts; the member
`head` is the part at {lit}`addr`. -/
structure SmpList (π : Type) where
  addr : Nat
  elemSize : Nat
  tail : Nat
  mpool : π
  partElemMaxmnt : Nat
  mem : Nat → Lpart

namespace SmpList

/-- `p->elems = v`. -/
@[simps addr elemSize tail mpool partElemMaxmnt]
def setElems (list : SmpList π) (p : Nat) (v : VoidPtr) : SmpList π :=
  { list with mem := Function.update list.mem p { list.mem p with elems := v } }

/-- `p->next = v`. -/
@[simps addr elemSize tail mpool partElemMaxmnt]
def setNext (list : SmpList π) (p v : Nat) : SmpList π :=
  { list with mem := Function.update list.mem p { list.mem p with next := v } }

/-- `p->elem_mnt = v`. -/
@[simps addr elemSize tail mpool partElemMaxmnt]
def setElemMnt (list : SmpList π) (p v : Nat) : SmpList π :=
  { list with mem := Function.update list.mem p { list.mem p with elemMnt := v } }

end SmpList

/-- `smp_list_init` with `__smp_list_init`; the parts hold {lit}`raw` before.  The second
component is the state that a failed call leaves. -/
def smpListInit (calls : PoolCalls π) (pool : π) (raw : Nat → Lpart)
    (elemSize partElemMaxmnt : Nat) : Exec (Option (SmpList π) × π) := do
  if elemSize = 0 ∨ partElemMaxmnt = 0 then return (none, calls.setError pool)
  let (addr, pool) ← calls.mpalloc pool sizeofList
  if addr = NULL then return (none, calls.setError pool)
  let (elems, pool) ← calls.mpalloc pool (elemSize * partElemMaxmnt % 2 ^ 64)
  if elems = NULL then return (none, calls.setError pool)
  return (some
    { addr := addr
      elemSize := elemSize
      tail := addr
      mpool := pool
      partElemMaxmnt := partElemMaxmnt
      mem := Function.update raw addr ⟨elems, 0, 0⟩ }, pool)

/-- `smp_list_create`. -/
def smpListCreate (calls : PoolCalls π) (pool : π) (raw : Nat → Lpart)
    (elemSize partElemMaxmnt : Nat) : Exec (Option (SmpList π) × π) := do
  let (created, pool) ← calls.create pool listPoolSize
  if ¬ created then return (none, pool)
  smpListInit calls pool raw elemSize partElemMaxmnt

/-- The growth of a list in `smp_list_push`: a new last part; null if there is no memory. -/
def listGrow (calls : PoolCalls π) (list : SmpList π) : Exec (Nat × SmpList π) := do
  let (last, pool) ← calls.mpalloc list.mpool sizeofLpart
  let list := { list with mpool := pool }
  if last = NULL then return (0, list)
  let (elems, pool) ← calls.mpalloc list.mpool (list.elemSize * list.partElemMaxmnt % 2 ^ 64)
  let list := { list with mpool := pool }
  let list := list.setElems last elems
  if elems = NULL then return (0, list)
  let list := (list.setElemMnt last 0).setNext last 0
  let list := list.setNext list.tail last
  return (last, { list with tail := last })

/-- The end of `smp_list_push`: the next element of the part {lit}`last`. -/
def listTake (list : SmpList π) (last : Nat) : VoidPtr × SmpList π :=
  let elem := ((list.mem last).elems + list.elemSize * (list.mem last).elemMnt) % 2 ^ 64
  (elem, list.setElemMnt last (((list.mem last).elemMnt + 1) % 2 ^ 32))

/-- `smp_list_push`. -/
def smpListPush (calls : PoolCalls π) (list : SmpList π) : Exec (VoidPtr × SmpList π) := do
  if (list.mem list.tail).elemMnt = list.partElemMaxmnt then
    let (last, list) ← listGrow calls list
    if last = 0 then return (NULL, list)
    return listTake list last
  return listTake list list.tail

/-- `smp_list_visit_part_elems`: the addresses handed to the visitor, in order.  The
elements are addressed as an array of `int`. -/
def smpListVisitPartElems (part : Lpart) : List VoidPtr :=
  (List.range part.elemMnt).map fun i => part.elems + sizeofInt * i

/-- One pass of `smp_list_visit_parts`; the state is the part and what was visited before. -/
def visitPartsPass (list : SmpList π) (s : Nat × List VoidPtr) :
    Exec (Pass (Nat × List VoidPtr) (List VoidPtr)) :=
  let (part, visited) := s
  if part ≠ 0 then
    .ok (.again ((list.mem part).next, visited ++ smpListVisitPartElems (list.mem part)))
  else .ok (.done visited)

/-- `smp_list_traversal` with `smp_list_visit_parts`: the addresses handed to the visitor,
in order. -/
def smpListTraversal (fuel : Nat) (list : SmpList π) : Exec (List VoidPtr) :=
  loop .diverged (visitPartsPass list) fuel (list.addr, [])

/-- `smp_list_destory`. -/
def smpListDestory (calls : PoolCalls π) (list : SmpList π) : Exec (Status × π) := do
  let pool ← calls.destory list.mpool
  return (.ok, pool)

end PartList
end Smpcil
