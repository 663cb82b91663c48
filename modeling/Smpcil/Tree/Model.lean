import Smpcil.Basic
import Smpcil.Foundations.Loop
import Smpcil.Foundations.RedBlackTree
import Mathlib.Logic.Function.Basic

/-!
# The red-black tree of `smp_rbt.c`

A pointer-level model.  Node structs live in a memory that maps every pointer to
the record stored there, the sentinel `rbt->nil` among them.  The comparison
function `key_cmp` is a parameter, since nothing assigns it after
`smp_rbt_create`.  The mirrored halves of the two fixup functions and the two
rotations are one definition each, indexed by a side.

A ghost trace records every rotation with its pivot child, every sibling a
deletion fixup works on and every colour store.  No function reads it.
-/

namespace Smpcil
namespace RbTree

open RedBlack (Color Side)
open Loops (Pass loop)

/-- `struct smp_rbt_node_s *`: a null pointer, `&rbt->nil`, or a node of the caller. -/
inductive Ptr where
  | null
  | nil
  | node (addr : Nat)
deriving DecidableEq, Repr

/-- `struct smp_rbt_node_s`. -/
structure RbtNode where
  parent : Ptr
  left : Ptr
  right : Ptr
  key : VoidPtr
  carrier : VoidPtr
  color : Color
deriving DecidableEq, Repr

/-- What the ghost trace records. -/
inductive Event where
  /-- A rotation with this pivot child. -/
  | rotate (pivot : Ptr)
  /-- A sibling that a deletion fixup looks at. -/
  | sibling (p : Ptr)
  /-- A store to a colour field. -/
  | paint (p : Ptr) (c : Color)
deriving DecidableEq, Repr

/-- `struct smp_rbt_s` with the memory of its nodes.  The record at {lit}`Ptr.nil` is
the member `nil` of the struct. -/
structure Rbt where
  mem : Ptr → RbtNode
  root : Ptr
  size : Nat
  trace : List Event

/-! ## Field access -/

namespace Rbt

/-- `p->parent`. -/
def parent (rbt : Rbt) (p : Ptr) : Ptr := (rbt.mem p).parent

/-- `p->left` or `p->right`. -/
def child (rbt : Rbt) (d : Side) (p : Ptr) : Ptr :=
  match d with
  | .left => (rbt.mem p).left
  | .right => (rbt.mem p).right

/-- `p->color`. -/
def color (rbt : Rbt) (p : Ptr) : Color := (rbt.mem p).color

/-- `p->key`. -/
def key (rbt : Rbt) (p : Ptr) : VoidPtr := (rbt.mem p).key

/-- `p->carrier`. -/
def carrier (rbt : Rbt) (p : Ptr) : VoidPtr := (rbt.mem p).carrier

/-- Store a whole record at {lit}`p`. -/
def store (rbt : Rbt) (p : Ptr) (cell : RbtNode) : Rbt :=
  { rbt with mem := Function.update rbt.mem p cell }

/-- `p->parent = q`. -/
def setParent (rbt : Rbt) (p q : Ptr) : Rbt :=
  rbt.store p { rbt.mem p with parent := q }

/-- `p->left = q` or `p->right = q`. -/
def setChild (rbt : Rbt) (d : Side) (p q : Ptr) : Rbt :=
  match d with
  | .left => rbt.store p { rbt.mem p with left := q }
  | .right => rbt.store p { rbt.mem p with right := q }

/-- `p->key = k`. -/
def setKey (rbt : Rbt) (p : Ptr) (k : VoidPtr) : Rbt :=
  rbt.store p { rbt.mem p with key := k }

/-- Append to the ghost trace. -/
def log (rbt : Rbt) (e : Event) : Rbt :=
  { rbt with trace := e :: rbt.trace }

/-- `p->color = c`. -/
def paint (rbt : Rbt) (p : Ptr) (c : Color) : Rbt :=
  (rbt.store p { rbt.mem p with color := c }).log (.paint p c)

end Rbt

/-! ## Rotations -/

/-- Both rotations: {lit}`node` moves down to side {lit}`d` of its other child. -/
def smpRotate (d : Side) (rbt : Rbt) (node : Ptr) : Rbt :=
  let tmp := rbt.child d.flip node
  let rbt := rbt.log (.rotate tmp)
  let rbt := rbt.setChild d.flip node (rbt.child d tmp)
  let rbt := if rbt.child d tmp ≠ .nil then rbt.setParent (rbt.child d tmp) node else rbt
  let rbt := rbt.setParent tmp (rbt.parent node)
  let rbt :=
    if rbt.parent node = .nil then { rbt with root := tmp }
    else if node = rbt.child .left (rbt.parent node) then
      rbt.setChild .left (rbt.parent node) tmp
    else rbt.setChild .right (rbt.parent node) tmp
  let rbt := rbt.setChild d tmp node
  rbt.setParent node tmp

/-- `smp_left_rotate`. -/
def smpLeftRotate (rbt : Rbt) (node : Ptr) : Rbt := smpRotate .left rbt node

/-- `smp_right_rotate`. -/
def smpRightRotate (rbt : Rbt) (node : Ptr) : Rbt := smpRotate .right rbt node

/-! ## Insertion -/

/-- The last steps of a pass of `smp_insert_fixup` that rotates: parent and grandparent
are recoloured and the grandparent moves down. -/
def insertFixupTurn (d : Side) (rbt : Rbt) (nd : Ptr) : Rbt :=
  let rbt := rbt.paint (rbt.parent nd) .black
  let rbt := rbt.paint (rbt.parent (rbt.parent nd)) .red
  smpRotate d.flip rbt (rbt.parent (rbt.parent nd))

/-- The body of the loop of `smp_insert_fixup` when the parent of {lit}`nd` is on side
{lit}`d` of the grandparent. -/
def insertFixupBranch (d : Side) (rbt : Rbt) (nd : Ptr) : Rbt × Ptr :=
  let tmp := rbt.child d.flip (rbt.parent (rbt.parent nd))
  if rbt.color tmp = .red then
    let rbt := rbt.paint tmp .black
    let rbt := rbt.paint (rbt.parent nd) .black
    let rbt := rbt.paint (rbt.parent (rbt.parent nd)) .red
    (rbt, rbt.parent (rbt.parent nd))
  else
    let (rbt, nd) :=
      if nd = rbt.child d.flip (rbt.parent nd) then
        let nd := rbt.parent nd
        (smpRotate d rbt nd, nd)
      else (rbt, nd)
    (insertFixupTurn d rbt nd, nd)

/-- One test of the loop of `smp_insert_fixup`, followed by its body. -/
def insertFixupPass (s : Rbt × Ptr) : Exec (Pass (Rbt × Ptr) Rbt) :=
  let (rbt, nd) := s
  if rbt.color (rbt.parent nd) = .red then
    if rbt.parent nd = rbt.child .left (rbt.parent (rbt.parent nd)) then
      .ok (.again (insertFixupBranch .left rbt nd))
    else .ok (.again (insertFixupBranch .right rbt nd))
  else .ok (.done rbt)

/-- `smp_insert_fixup`. -/
def smpInsertFixup (fuel : Nat) (rbt : Rbt) (nd : Ptr) : Exec Rbt := do
  let rbt ← loop .diverged insertFixupPass fuel (rbt, nd)
  return rbt.paint rbt.root .black

section Compare

variable (keyCmp : VoidPtr → VoidPtr → Int)

/-- One pass of the descent in `smp_rnode_insert`; the state is {lit}`itor` and {lit}`tmp`. -/
def insertDescentPass (rbt : Rbt) (nd : Ptr) (s : Ptr × Ptr) : Exec (Pass (Ptr × Ptr) Ptr) :=
  let (itor, tmp) := s
  if itor ≠ .nil then
    let tmp := itor
    if keyCmp (rbt.key itor) (rbt.key nd) > 0 then .ok (.again (rbt.child .left itor, tmp))
    else .ok (.again (rbt.child .right itor, tmp))
  else .ok (.done tmp)

/-- `smp_rnode_insert`. -/
def smpRnodeInsert (fuel : Nat) (rbt : Rbt) (nd : Ptr) : Exec (Status × Rbt) := do
  if nd = .null then return (.failure, rbt)
  let tmp ← loop .diverged (insertDescentPass keyCmp rbt nd) fuel (rbt.root, .nil)
  let rbt := rbt.setParent nd tmp
  let rbt :=
    if tmp = .nil then { rbt with root := nd }
    else if keyCmp (rbt.key tmp) (rbt.key nd) > 0 then rbt.setChild .left tmp nd
    else rbt.setChild .right tmp nd
  let rbt := rbt.setChild .right nd .nil
  let rbt := rbt.setChild .left nd .nil
  let rbt := rbt.paint nd .red
  let rbt ← smpInsertFixup fuel rbt nd
  return (.ok, { rbt with size := rbt.size + 1 })

/-! ## Lookup -/

/-- One pass of the search in `smp_rnode_find`. -/
def findPass (rbt : Rbt) (key : VoidPtr) (nd : Ptr) : Exec (Pass Ptr Ptr) :=
  if nd ≠ .nil then
    let ret := keyCmp (rbt.key nd) key
    if ret > 0 then .ok (.again (rbt.child .left nd))
    else if ret < 0 then .ok (.again (rbt.child .right nd))
    else .ok (.done nd)
  else .ok (.done .null)

/-- `smp_rnode_find`. -/
def smpRnodeFind (fuel : Nat) (rbt : Rbt) (key : VoidPtr) : Exec Ptr :=
  loop .diverged (findPass keyCmp rbt key) fuel rbt.root

end Compare

/-- One pass of `while (p->child != &rbt->nil) p = p->child`. -/
def descendPass (d : Side) (rbt : Rbt) (p : Ptr) : Exec (Pass Ptr Ptr) :=
  if rbt.child d p ≠ .nil then .ok (.again (rbt.child d p)) else .ok (.done p)

/-- The common body of `smp_rnode_min` and `smp_rnode_max`. -/
def outermost (d : Side) (fuel : Nat) (rbt : Rbt) : Exec Ptr := do
  let tmp := rbt.root
  if tmp = .nil then return .null
  let tmp ← loop .diverged (descendPass d rbt) fuel tmp
  if tmp = .nil then return .null
  return tmp

/-- `smp_rnode_min`. -/
def smpRnodeMin (fuel : Nat) (rbt : Rbt) : Exec Ptr := outermost .left fuel rbt

/-- `smp_rnode_max`. -/
def smpRnodeMax (fuel : Nat) (rbt : Rbt) : Exec Ptr := outermost .right fuel rbt

/-- `smp_rbt_size` of a tree that is not null. -/
def smpRbtSize (rbt : Rbt) : Nat := rbt.size

/-- `smp_inorder`: the keys handed to the visitor, in order.  The fuel bounds the
depth of the recursion. -/
def smpInorder (rbt : Rbt) : Nat → Ptr → Exec (List VoidPtr)
  | 0, _ => .error .diverged
  | fuel + 1, tree => do
      if tree ≠ .null ∧ tree ≠ .nil then
        let l ← smpInorder rbt fuel (rbt.child .left tree)
        let r ← smpInorder rbt fuel (rbt.child .right tree)
        return l ++ rbt.key tree :: r
      else return []

/-- `smp_rbt_inorder`, less the lines it prints. -/
def smpRbtInorder (fuel : Nat) (rbt : Rbt) : Exec (List VoidPtr) :=
  smpInorder rbt fuel rbt.root

/-- `smp_preorder`. -/
def smpPreorder (rbt : Rbt) : Nat → Ptr → Exec (List VoidPtr)
  | 0, _ => .error .diverged
  | fuel + 1, tree => do
      if tree ≠ .null ∧ tree ≠ .nil then
        let l ← smpPreorder rbt fuel (rbt.child .left tree)
        let r ← smpPreorder rbt fuel (rbt.child .right tree)
        return rbt.key tree :: l ++ r
      else return []

/-- `smp_rbt_preorder`, less the lines it prints. -/
def smpRbtPreorder (fuel : Nat) (rbt : Rbt) : Exec (List VoidPtr) :=
  smpPreorder rbt fuel rbt.root

/-- `smp_postorder`. -/
def smpPostorder (rbt : Rbt) : Nat → Ptr → Exec (List VoidPtr)
  | 0, _ => .error .diverged
  | fuel + 1, tree => do
      if tree ≠ .null ∧ tree ≠ .nil then
        let l ← smpPostorder rbt fuel (rbt.child .left tree)
        let r ← smpPostorder rbt fuel (rbt.child .right tree)
        return l ++ r ++ [rbt.key tree]
      else return []

/-- `smp_rbt_postorder`, less the lines it prints. -/
def smpRbtPostorder (fuel : Nat) (rbt : Rbt) : Exec (List VoidPtr) :=
  smpPostorder rbt fuel rbt.root

/-! ## Creation -/

/-- `smp_rnode_create`, once its allocation has succeeded: the record it leaves. -/
def smpRnodeCreate (key : VoidPtr) : RbtNode where
  parent := .null
  left := .null
  right := .null
  key := key
  carrier := NULL
  color := .black

/-- `smp_rbt_create`, once its allocation has succeeded, over memory of any contents. -/
def smpRbtCreate (mem : Ptr → RbtNode) : Rbt where
  mem := Function.update mem .nil
    { parent := .nil, left := .nil, right := .nil, key := NULL, carrier := NULL,
      color := .black }
  root := .nil
  size := 0
  trace := []

/-! ## Removal -/

/-- The step of `smp_delete_fixup` for a red sibling {lit}`tmp`: it moves above the parent
of {lit}`nd`, and {lit}`nd` gets a new sibling. -/
def deleteFixupRedSibling (d : Side) (rbt : Rbt) (nd tmp : Ptr) : Rbt × Ptr :=
  let rbt := rbt.paint tmp .black
  let rbt := rbt.paint (rbt.parent nd) .red
  let rbt := smpRotate d rbt (rbt.parent nd)
  let tmp := rbt.child d.flip (rbt.parent nd)
  (rbt.log (.sibling tmp), tmp)

/-- The step of `smp_delete_fixup` for a black far nephew: the red near nephew becomes
the sibling. -/
def deleteFixupNearNephew (d : Side) (rbt : Rbt) (nd tmp : Ptr) : Rbt × Ptr :=
  let rbt := rbt.paint (rbt.child d tmp) .black
  let rbt := rbt.paint tmp .red
  let rbt := smpRotate d.flip rbt tmp
  let tmp := rbt.child d.flip (rbt.parent nd)
  (rbt.log (.sibling tmp), tmp)

/-- The last steps of `smp_delete_fixup`, below a red far nephew. -/
def deleteFixupTurn (d : Side) (rbt : Rbt) (nd tmp : Ptr) : Rbt :=
  let rbt := rbt.paint tmp (rbt.color (rbt.parent nd))
  let rbt := rbt.paint (rbt.parent nd) .black
  let rbt := rbt.paint (rbt.child d.flip tmp) .black
  smpRotate d rbt (rbt.parent nd)

/-- The rest of the body of `smp_delete_fixup`, once the sibling {lit}`tmp` is black. -/
def deleteFixupBlackSibling (d : Side) (rbt : Rbt) (nd tmp : Ptr) : Rbt × Ptr :=
  if rbt.color (rbt.child d tmp) = .black ∧ rbt.color (rbt.child d.flip tmp) = .black then
    let rbt := rbt.paint tmp .red
    (rbt, rbt.parent nd)
  else
    let (rbt, tmp) :=
      if rbt.color (rbt.child d.flip tmp) = .black then
        deleteFixupNearNephew d rbt nd tmp
      else (rbt, tmp)
    let rbt := deleteFixupTurn d rbt nd tmp
    (rbt, rbt.root)

/-- The body of the loop of `smp_delete_fixup` when {lit}`nd` is on side {lit}`d` of its
parent. -/
def deleteFixupBranch (d : Side) (rbt : Rbt) (nd : Ptr) : Rbt × Ptr :=
  let tmp := rbt.child d.flip (rbt.parent nd)
  let rbt := rbt.log (.sibling tmp)
  let (rbt, tmp) :=
    if rbt.color tmp = .red then deleteFixupRedSibling d rbt nd tmp else (rbt, tmp)
  deleteFixupBlackSibling d rbt nd tmp

/-- One test of the loop of `smp_delete_fixup`, followed by its body. -/
def deleteFixupPass (s : Rbt × Ptr) : Exec (Pass (Rbt × Ptr) (Rbt × Ptr)) :=
  let (rbt, nd) := s
  if nd ≠ rbt.root ∧ rbt.color nd = .black then
    if nd = rbt.child .left (rbt.parent nd) then
      .ok (.again (deleteFixupBranch .left rbt nd))
    else .ok (.again (deleteFixupBranch .right rbt nd))
  else .ok (.done (rbt, nd))

/-- `smp_delete_fixup`. -/
def smpDeleteFixup (fuel : Nat) (rbt : Rbt) (nd : Ptr) : Exec Rbt := do
  let (rbt, nd) ← loop .diverged deleteFixupPass fuel (rbt, nd)
  return rbt.paint nd .black

/-- One pass of the upward walk in `smp_rbt_successor`; the state is {lit}`nd` and
{lit}`min`. -/
def ascendPass (rbt : Rbt) (s : Ptr × Ptr) : Exec (Pass (Ptr × Ptr) Ptr) :=
  let (nd, min) := s
  if min ≠ .nil ∧ nd = rbt.child .right min then .ok (.again (min, rbt.parent min))
  else .ok (.done min)

/-- `smp_rbt_successor`. -/
def smpRbtSuccessor (fuel : Nat) (rbt : Rbt) (nd : Ptr) : Exec Ptr :=
  if rbt.child .right nd ≠ .nil then
    loop .diverged (descendPass .left rbt) fuel (rbt.child .right nd)
  else loop .diverged (ascendPass rbt) fuel (nd, rbt.parent nd)

/-- The struct that `smp_rnode_remove` unlinks: that of {lit}`nd`, or that of its
successor if {lit}`nd` has two children. -/
def removeTarget (fuel : Nat) (rbt : Rbt) (nd : Ptr) : Exec Ptr :=
  if rbt.child .left nd = .nil ∨ rbt.child .right nd = .nil then .ok nd
  else smpRbtSuccessor fuel rbt nd

/-- The stores of `smp_rnode_remove` that put {lit}`itor` in the place of {lit}`tmp` and
move the key of {lit}`tmp`, followed by the repair. -/
def removeTakeOut (fuel : Nat) (rbt : Rbt) (nd tmp itor : Ptr) : Exec Rbt :=
  let rbt := rbt.setParent itor (rbt.parent tmp)
  let rbt :=
    if rbt.parent tmp = .nil then { rbt with root := itor }
    else if tmp = rbt.child .left (rbt.parent tmp) then
      rbt.setChild .left (rbt.parent tmp) itor
    else rbt.setChild .right (rbt.parent tmp) itor
  let rbt := if tmp ≠ itor then rbt.setKey nd (rbt.key tmp) else rbt
  if rbt.color tmp = .black then smpDeleteFixup fuel rbt itor else .ok rbt

/-- The last stores of `smp_rnode_remove`, to the struct it hands back. -/
def removeDetach (rbt : Rbt) (tmp : Ptr) (key : VoidPtr) : Rbt :=
  let rbt := { rbt with size := rbt.size - 1 }
  let rbt := rbt.setKey tmp key
  let rbt := rbt.setParent tmp .null
  let rbt := rbt.setChild .right tmp .null
  rbt.setChild .left tmp .null

/-- `smp_rnode_remove` of a tree that is not null: the node it returns and the tree. -/
def smpRnodeRemove (fuel : Nat) (rbt : Rbt) (nd : Ptr) : Exec (Ptr × Rbt) := do
  if nd = .null then return (.null, rbt)
  let key := rbt.key nd
  let tmp ← removeTarget fuel rbt nd
  let itor := if rbt.child .left tmp ≠ .nil then rbt.child .left tmp else rbt.child .right tmp
  let rbt ← removeTakeOut fuel rbt nd tmp itor
  return (tmp, removeDetach rbt tmp key)

/-- `smp_rnode_find_remove` of a tree that is not null. -/
def smpRnodeFindRemove (keyCmp : VoidPtr → VoidPtr → Int) (fuel : Nat) (rbt : Rbt)
    (key : VoidPtr) : Exec (Ptr × Rbt) := do
  if key = NULL then return (.null, rbt)
  let node ← smpRnodeFind keyCmp fuel rbt key
  if node = .null then return (.null, rbt)
  smpRnodeRemove fuel rbt node

end RbTree
end Smpcil
