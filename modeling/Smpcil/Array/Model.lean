import Smpcil.Pool.Calls
import Smpcil.Foundations.Loop
import Mathlib.Logic.Function.Basic

/-!
# The growing array of `smp_array.c`

An array is a list of units of {lit}`unit_elem_amt` elements each, reached through an
index table.  The C type {lit}`uint` is a number below {lit}`2^32`; arithmetic on it
wraps.
-/

namespace Smpcil
namespace GrowArray

open Loops (forUp)

variable {π : Type}

/-- Conversion to `uint`. -/
def uint (n : Nat) : Nat := n % 2 ^ 32

/-- `n - 1` in `uint`. -/
def uintPred (n : Nat) : Nat := if n = 0 then 2 ^ 32 - 1 else n - 1

/-- `SMP_ARRAY_POOL_SIZE`. -/
def arrayPoolSize : Nat := 2048

/-- `SMP_ARRAY_INDEX_AMT`. -/
def arrayIndexAmt : Nat := 32

/-- `SMP_ARRAY_INDEX_INC`. -/
def arrayIndexInc : Nat := 4

/-- `sizeof(struct smp_array_s)`. -/
def sizeofArray : Nat := 40

/-- `sizeof(u_char *)`. -/
def sizeofPtr : Nat := 8

/-- An index table: {lit}`amt` pointers at {lit}`addr`; an entry without a value was never
stored. -/
structure IndexTable where
  addr : VoidPtr
  amt : Nat
  entry : Nat → Option VoidPtr

namespace IndexTable

/-- `index[i]`. -/
def read (index : IndexTable) (i : Nat) : Exec VoidPtr :=
  if i < index.amt then
    match index.entry i with
    | some p => .ok p
    | none => .error .uninitialised
  else .error .outOfBounds

/-- `index[i] = p`. -/
def write (index : IndexTable) (i : Nat) (p : VoidPtr) : Exec IndexTable :=
  if i < index.amt then .ok { index with entry := Function.update index.entry i (some p) }
  else .error .outOfBounds

/-- `memcpy` of the first {lit}`used` entries to a new table of {lit}`amt` entries. -/
def copy (index : IndexTable) (addr : VoidPtr) (amt used : Nat) : Exec IndexTable :=
  if used ≤ index.amt ∧ used ≤ amt then
    .ok ⟨addr, amt, fun i => if i < used then index.entry i else none⟩
  else .error .outOfBounds

end IndexTable

/-- `struct smp_array_s`. -/
structure SmpArray (π : Type) where
  unitElemAmt : Nat
  elemSize : Nat
  indexAmt : Nat
  indexUsed : Nat
  currPoint : Nat
  index : IndexTable
  pool : π

/-- `smp_array_index_init`: the table, full of null pointers; null if there is no memory. -/
def smpArrayIndexInit (calls : PoolCalls π) (pool : π) : Exec (Option IndexTable × π) := do
  let (m, pool) ← calls.mpalloc pool (sizeofPtr * arrayIndexAmt)
  if m = NULL then return (none, pool)
  return (some ⟨m, arrayIndexAmt, fun _ => some NULL⟩, pool)

/-- `smp_array_init`; the second component is the state that a failed call leaves. -/
def smpArrayInit (calls : PoolCalls π) (pool : π) (elemSize unitElemAmt : Nat) :
    Exec (Option (SmpArray π) × π) := do
  let size := uint (elemSize * unitElemAmt)
  if size = 0 then return (none, calls.setError pool)
  let (created, pool) ← calls.create pool arrayPoolSize
  if ¬ created then return (none, pool)
  let (m, pool) ← calls.mpalloc pool sizeofArray
  if m = NULL then return (none, ← calls.destory pool)
  match ← smpArrayIndexInit calls pool with
  | (none, pool) => return (none, ← calls.destory pool)
  | (some index, pool) =>
      let (start, pool) ← calls.mpalloc pool size
      if start = NULL then return (none, ← calls.destory pool)
      let index ← index.write 0 start
      return (some
        { unitElemAmt := unitElemAmt
          elemSize := elemSize
          indexAmt := arrayIndexAmt
          indexUsed := 1
          currPoint := 0
          index := index
          pool := pool }, pool)

/-- `smp_array_index_realloc`. -/
def smpArrayIndexRealloc (calls : PoolCalls π) (array : SmpArray π) :
    Exec (Status × SmpArray π) := do
  let amt := uint (array.indexUsed + arrayIndexInc)
  let (m, pool) ← calls.mpalloc array.pool (sizeofPtr * amt)
  if m = NULL then return (.failure, { array with pool := pool })
  let index ← array.index.copy m amt array.indexUsed
  return (.ok, { array with
    index := index, indexAmt := uint (array.indexAmt + arrayIndexInc), pool := pool })

/-- The part of `smp_array_expand` behind the growth of the index: a new unit. -/
def smpArrayNewUnit (calls : PoolCalls π) (array : SmpArray π) :
    Exec (Status × SmpArray π) := do
  let (arr, pool) ← calls.mpalloc array.pool (uint (array.elemSize * array.unitElemAmt))
  if arr = NULL then return (.failure, { array with pool := pool })
  let indexUsed := uint (array.indexUsed + 1)
  let index ← array.index.write (uintPred indexUsed) arr
  return (.ok, { array with
    index := index, indexUsed := indexUsed, currPoint := 0, pool := pool })

/-- `smp_array_expand`. -/
def smpArrayExpand (calls : PoolCalls π) (array : SmpArray π) :
    Exec (Status × SmpArray π) := do
  if array.currPoint ≥ array.unitElemAmt then
    if array.indexUsed = array.indexAmt then
      match ← smpArrayIndexRealloc calls array with
      | (.failure, array) => return (.failure, array)
      | (.ok, array) => smpArrayNewUnit calls array
    else smpArrayNewUnit calls array
  else return (.ok, array)

/-- `smp_array_push`. -/
def smpArrayPush (calls : PoolCalls π) (array : SmpArray π) : Exec (VoidPtr × SmpArray π) := do
  if array.index.addr = NULL then return (NULL, array)
  match ← smpArrayExpand calls array with
  | (.failure, array) => return (NULL, array)
  | (.ok, array) =>
      let start ← array.index.read (uintPred array.indexUsed)
      return (start + uint (array.currPoint * array.elemSize),
        { array with currPoint := uint (array.currPoint + 1) })

/-- `smp_array_size`; the `uint` is returned as an `int`. -/
def smpArraySize (array : SmpArray π) : Int :=
  (uint (array.currPoint + uintPred array.indexUsed * array.unitElemAmt) : Int).bmod
    (2 ^ 32)

/-- `smp_array_elem_n`. -/
def smpArrayElemN (array : SmpArray π) (i : Nat) : Exec VoidPtr := do
  let i := uint (i + 1)
  let n := uintPred (i % array.unitElemAmt)
  let idx := i / array.unitElemAmt
  if array.index.addr = NULL then return NULL
  if idx ≥ array.indexUsed then return NULL
  let p ← array.index.read idx
  if p ≠ NULL then
    if n ≥ array.currPoint then return NULL
    return p + uint (array.elemSize * n)
  return NULL

/-- One unit of `smp_array_traversal`; the state is what was visited before. -/
def traverseUnit (array : SmpArray π) (idx : Int) (visited : List VoidPtr) :
    Exec (List VoidPtr) :=
  let tmp := if idx = uintPred array.indexUsed then array.currPoint else array.unitElemAmt
  forUp 0 tmp (fun i visited => do
    let start ← array.index.read idx.toNat
    return visited ++ [start + uint (array.elemSize * i.toNat)]) visited

/-- `smp_array_traversal`: the addresses handed to the visitor, in order. -/
def smpArrayTraversal (array : SmpArray π) : Exec (List VoidPtr) :=
  forUp 0 array.indexUsed (traverseUnit array) []

/-- `smp_array_destory`, with the addresses handed to `free_elems_func`. -/
def smpArrayDestory (calls : PoolCalls π) (array : SmpArray π) (freeElemsFunc : VoidPtr) :
    Exec (Status × π × List VoidPtr) := do
  let freed ← if freeElemsFunc ≠ NULL then smpArrayTraversal array else pure []
  let pool ← calls.destory array.pool
  return (.ok, pool, freed)

end GrowArray
end Smpcil
