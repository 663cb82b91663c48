import Smpcil.Pool.Calls
import Smpcil.Pool.Model
import Mathlib.Logic.Function.Basic
import Mathlib.Tactic.Simps.Basic

/-!
# The stack of `smp_stack.c`

A chain of nodes, each followed by the bytes of its element.  A popped node belongs to
the caller until it is recovered; recovered nodes are kept on the chain {lit}`idel` for later
pushes.  The nodes live in a memory indexed by address; a null address is {lit}`0`.

The type {lit}`ε` is what the data of an element points to before it is pushed.
-/

namespace Smpcil
namespace Stack

variable {π ε : Type}

/-- `SMP_STACK_UNLIMITED`. -/
def stackUnlimited : Nat := 0

/-- `sizeof(struct smp_stack_s)`. -/
def sizeofStack : Nat := 64

/-- `sizeof(struct smp_stack_node_s)`, without the data behind it. -/
def sizeofStackNode : Nat := 8

/-- `struct smp_stack_node_s`; {lit}`data` are the `elem_size` bytes behind it. -/
structure StackNode where
  below : Nat
  data : List UInt8
deriving DecidableEq, Repr

/-- `smp_stk_appoint`: the bytes it leaves in a node, from the element and the bytes that
were there. -/
abbrev Appoint (ε : Type) := ε → List UInt8 → List UInt8

/-- `struct smp_stack_s`, with the memory {lit}`mem` of the nodes. -/
structure SmpStack (π ε : Type) where
  size : Nat
  currSize : Nat
  appoint : Option (Appoint ε)
  top : Nat
  bottom : Nat
  idel : Nat
  pool : π
  elemSize : Nat
  mem : Nat → StackNode

namespace SmpStack

/-- `n->below = v`. -/
@[simps size currSize appoint top bottom idel pool elemSize]
def setBelow (stack : SmpStack π ε) (n v : Nat) : SmpStack π ε :=
  { stack with mem := Function.update stack.mem n { stack.mem n with below := v } }

/-- Store the bytes behind a node. -/
@[simps size currSize appoint top bottom idel pool elemSize]
def setData (stack : SmpStack π ε) (n : Nat) (v : List UInt8) : SmpStack π ε :=
  { stack with mem := Function.update stack.mem n { stack.mem n with data := v } }

end SmpStack

/-- The address of the data of a node. -/
def dataOf (node : Nat) : VoidPtr := node + sizeofStackNode

/-! ## Creation -/

/-- `smp_stack_init` with `__smp_stack_init`; the bytes that become nodes hold {lit}`raw`.
The second component is the state that a failed call leaves. -/
def smpStackInit (calls : PoolCalls π) (pool : π) (raw : Nat → StackNode)
    (elemSize stackSize : Nat) (appoint : Option (Appoint ε)) :
    Exec (Option (SmpStack π ε) × π) := do
  let size := if stackSize = stackUnlimited then 2048 else elemSize * stackSize % 2 ^ 64
  let (created, pool) ←
    calls.create pool ((size + Mpool.sizeofPool + Mpool.sizeofBigPool) % 2 ^ 64)
  if ¬ created then return (none, pool)
  let (m, pool) ← calls.mpalloc pool sizeofStack
  if m = NULL then return (none, ← calls.destory pool)
  return (some
    { size := stackSize
      currSize := 0
      appoint := appoint
      top := 0
      bottom := 0
      idel := 0
      pool := pool
      elemSize := elemSize
      mem := raw }, pool)

/-- `smp_stack_node_create`; null if there is no memory. -/
def smpStackNodeCreate (calls : PoolCalls π) (stack : SmpStack π ε) :
    Exec (Nat × SmpStack π ε) := do
  if stack.idel ≠ 0 then
    let node := stack.idel
    let stack := { stack with idel := (stack.mem node).below }
    let stack := stack.setData node (List.replicate stack.elemSize 0)
    return (node, stack.setBelow node 0)
  let (node, pool) ← calls.mpalloc stack.pool (sizeofStackNode + stack.elemSize)
  let stack := { stack with pool := pool }
  if node = NULL then return (0, stack)
  return (node, stack.setBelow node 0)

/-! ## Queries -/

/-- `smp_stack_elem_size`. -/
def smpStackElemSize (stack : SmpStack π ε) : Int := toInt stack.elemSize

/-- `smp_stack_size`. -/
def smpStackSize (stack : SmpStack π ε) : Int := toInt stack.size

/-- `smp_stack_length`. -/
def smpStackLength (stack : SmpStack π ε) : Int := toInt stack.currSize

/-- `smp_stack_empty`. -/
def smpStackEmpty (stack : SmpStack π ε) : Bool :=
  smpStackLength stack = 0 || stack.top = 0

/-- `smp_stack_filled`. -/
def smpStackFilled (stack : SmpStack π ε) : Bool :=
  if toSize (smpStackSize stack) = stackUnlimited then false
  else toSize (smpStackLength stack) ≥ toSize (smpStackSize stack)

/-- `smp_stack_gettop`. -/
def smpStackGettop (stack : SmpStack π ε) : VoidPtr :=
  if stack.top ≠ 0 then dataOf stack.top else NULL

/-! ## Moves -/

/-- The call of `appoint` on a new node, if there is one. -/
def callAppoint (stack : SmpStack π ε) (node : Nat) (elem : ε) : SmpStack π ε :=
  match stack.appoint with
  | some appoint => stack.setData node (appoint elem (stack.mem node).data)
  | none => stack

/-- The end of `smp_stack_push`: the node becomes the top. -/
def linkTop (stack : SmpStack π ε) (node : Nat) : SmpStack π ε :=
  let stack :=
    if stack.top = 0 then stack.setBelow node stack.bottom
    else stack.setBelow node stack.top
  { stack with top := node, currSize := (stack.currSize + 1) % 2 ^ 64 }

/-- `smp_stack_push`; {lit}`none` stands for null data. -/
def smpStackPush (calls : PoolCalls π) (stack : SmpStack π ε) (elemData : Option ε) :
    Exec (VoidPtr × SmpStack π ε) := do
  match elemData with
  | none => return (NULL, stack)
  | some elem =>
      if smpStackFilled stack then
        return (NULL, { stack with pool := calls.setError stack.pool })
      let (node, stack) ← smpStackNodeCreate calls stack
      if node = 0 then return (NULL, stack)
      return (dataOf node, linkTop (callAppoint stack node elem) node)

/-- `smp_stack_pop`. -/
def smpStackPop (stack : SmpStack π ε) : Nat × SmpStack π ε :=
  if smpStackEmpty stack then (0, stack)
  else
    let node := stack.top
    let stack := { stack with top := (stack.mem node).below }
    let stack := stack.setBelow node 0
    (node, { stack with
      currSize := if stack.currSize = 0 then 2 ^ 64 - 1 else stack.currSize - 1 })

/-- `smp_stack_recover`. -/
def smpStackRecover (stack : SmpStack π ε) (node : Nat) : SmpStack π ε :=
  if node = 0 then stack
  else { stack.setBelow node stack.idel with idel := node }

/-! ## Release -/

/-- `smp_stack_destory`, on a stack from `smp_stack_init`. -/
def smpStackDestory (calls : PoolCalls π) (stack : SmpStack π ε) : Exec (Status × π) := do
  let pool ← calls.destory stack.pool
  return (.ok, pool)

end Stack
end Smpcil
