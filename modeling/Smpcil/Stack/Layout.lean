import Smpcil.Stack.Model
import Smpcil.Foundations.Chain
import Mathlib.Data.List.Perm.Basic

/-!
# The chains of a stack

The invariant of a stack: the live chain, the chain of recovered nodes and the nodes held
outside both, by the caller or by a push that has not linked its node yet.

Main results:

- Definition {lit}`Placed`: where the nodes of a stack are.
- Theorems {lit}`Placed.reuse`, {lit}`Placed.take`, {lit}`Placed.put`, {lit}`Placed.pop` and
  {lit}`Placed.recover`: the moves of a node.
- Definition {lit}`Linked`: the invariant of a stack within the range of `int`.
-/

namespace Smpcil
namespace Stack

open Allocator Chains

variable {π ε : Type}

/-! ## Stores -/

namespace SmpStack

variable (stack : SmpStack π ε) (n v m : Nat) (d : List UInt8)

@[simp] theorem setBelow_below :
    ((stack.setBelow n v).mem m).below = if m = n then v else (stack.mem m).below := by
  by_cases h : m = n <;> simp [setBelow, h]

@[simp] theorem setBelow_data : ((stack.setBelow n v).mem m).data = (stack.mem m).data := by
  by_cases h : m = n <;> simp [setBelow, h]

@[simp] theorem setData_below : ((stack.setData n d).mem m).below = (stack.mem m).below := by
  by_cases h : m = n <;> simp [setData, h]

@[simp] theorem setData_data :
    ((stack.setData n d).mem m).data = if m = n then d else (stack.mem m).data := by
  by_cases h : m = n <;> simp [setData, h]

end SmpStack

/-! ## The invariant -/

/-- The bytes of a node and its data. -/
def nodeBlock (elemSize n : Nat) : Block := ⟨n, sizeofStackNode + elemSize⟩

/-- The stack has the live nodes {lit}`ns` from the top and the recovered nodes {lit}`fs`; the
nodes {lit}`hs` are held outside both chains. -/
structure Placed (Good : π → Prop) (blocks : π → List Block) (stack : SmpStack π ε)
    (ns fs hs : List Nat) : Prop where
  good : Good stack.pool
  live : Chain (fun n => (stack.mem n).below) stack.top ns
  idle : Chain (fun n => (stack.mem n).below) stack.idel fs
  bottom : stack.bottom = 0
  currSize : stack.currSize = ns.length
  nodup : (ns ++ (fs ++ hs)).Nodup
  block : ∀ n ∈ ns ++ (fs ++ hs), nodeBlock stack.elemSize n ∈ blocks stack.pool

variable {calls : PoolCalls π} {Good : π → Prop} {blocks : π → List Block}
variable {stack : SmpStack π ε} {ns fs hs : List Nat} {node : Nat}

namespace Placed

/-- Stores that move nodes between the chains. -/
theorem move (h : Placed Good blocks stack ns fs hs) {stack' : SmpStack π ε}
    {ns' fs' hs' : List Nat} (hperm : (ns' ++ (fs' ++ hs')).Perm (ns ++ (fs ++ hs)))
    (hpool : stack'.pool = stack.pool) (helem : stack'.elemSize = stack.elemSize)
    (hbottom : stack'.bottom = stack.bottom)
    (hlive : Chain (fun n => (stack'.mem n).below) stack'.top ns')
    (hidle : Chain (fun n => (stack'.mem n).below) stack'.idel fs')
    (hcurr : stack'.currSize = ns'.length) :
    Placed Good blocks stack' ns' fs' hs' := by
  constructor
  case good => exact hpool ▸ h.good
  case live => exact hlive
  case idle => exact hidle
  case bottom => exact hbottom.trans h.bottom
  case currSize => exact hcurr
  case nodup => exact hperm.nodup_iff.mpr h.nodup
  case block =>
    intro n hn
    rw [hpool, helem]
    exact h.block n (hperm.mem_iff.mp hn)

/-- Another state of the pool with the same blocks. -/
theorem pool (h : Placed Good blocks stack ns fs hs) {pool : π} (hgood : Good pool)
    (hsame : blocks pool = blocks stack.pool) :
    Placed Good blocks { stack with pool := pool } ns fs hs := by
  refine { h with good := hgood, block := fun n hn => ?_ }
  rw [hsame]
  exact h.block n hn

/-- The nodes that are not live. -/
theorem nodup_rest (h : Placed Good blocks stack ns fs hs) : (fs ++ hs).Nodup :=
  (List.nodup_append.mp h.nodup).2.1

/-- The live nodes and the others are different. -/
theorem ne_live (h : Placed Good blocks stack ns fs hs) {a b : Nat} (ha : a ∈ ns)
    (hb : b ∈ fs ++ hs) : a ≠ b :=
  (List.nodup_append.mp h.nodup).2.2 a ha b hb

/-- The recovered nodes and the held ones are different. -/
theorem ne_idle (h : Placed Good blocks stack ns fs hs) {a b : Nat} (ha : a ∈ fs)
    (hb : b ∈ hs) : a ≠ b :=
  (List.nodup_append.mp h.nodup_rest).2.2 a ha b hb

/-- No node is null. -/
theorem ne_null (hserves : calls.Serves Good blocks) (h : Placed Good blocks stack ns fs hs)
    {n : Nat} (hn : n ∈ ns ++ (fs ++ hs)) : n ≠ 0 :=
  (hserves.bounded h.good _ (h.block n hn)).1

/-- There is no room for more nodes than the address space has bytes. -/
theorem length_lt (hserves : calls.Serves Good blocks) (h : Placed Good blocks stack ns fs hs) :
    ns.length < PoolCalls.bound := by
  apply h.live.length_lt
  · unfold PoolCalls.bound
    omega
  · intro n hn
    have hle := (hserves.bounded h.good _ (h.block n (List.mem_append_left _ hn))).2
    unfold nodeBlock sizeofStackNode at hle
    simp only at hle
    omega

/-- A new node of the pool is none of the old ones. -/
theorem ne_fresh (h : Placed Good blocks stack ns fs hs)
    (hfresh : ∀ b ∈ blocks stack.pool, Apart (nodeBlock stack.elemSize node) b) {n : Nat}
    (hn : n ∈ ns ++ (fs ++ hs)) : n ≠ node := by
  rintro rfl
  have happ := hfresh _ (h.block n hn)
  unfold Apart nodeBlock sizeofStackNode at happ
  simp only at happ
  omega

/-- The nodes with their data do not overlap. -/
theorem apart (hserves : calls.Serves Good blocks) (h : Placed Good blocks stack ns fs hs) :
    (ns ++ (fs ++ hs)).Pairwise fun n m =>
      Apart (nodeBlock stack.elemSize n) (nodeBlock stack.elemSize m) := by
  have happ := hserves.apart h.good
  refine h.nodup.imp_of_mem fun hn hm hne => ?_
  refine happ.forall (h.block _ hn) (h.block _ hm) ?_
  intro heq
  exact hne (congrArg Block.addr heq)

/-! ## Nodes for a push -/

/-- The first recovered node is taken for a new element. -/
theorem reuse (h : Placed Good blocks stack ns (node :: fs) hs) (d : List UInt8) :
    Placed Good blocks
      ((SmpStack.setData { stack with idel := (stack.mem node).below } node d).setBelow node 0)
      ns fs (node :: hs) := by
  have hns : ∀ n ∈ ns, n ≠ node := fun n hn => h.ne_live hn (by simp)
  have hfs : ∀ n ∈ fs, n ≠ node := by
    have hnodup := h.nodup_rest
    rw [List.cons_append, List.nodup_cons] at hnodup
    exact fun n hn heq => hnodup.1 (heq ▸ List.mem_append_left _ hn)
  apply h.move
  case hperm => exact List.Perm.append_left ns List.perm_middle
  case hpool => rfl
  case helem => rfl
  case hbottom => rfl
  case hlive => exact h.live.congr fun n hn => by simp [hns n hn]
  case hidle => exact h.idle.2.2.congr fun n hn => by simp [hfs n hn]
  case hcurr => exact h.currSize

/-- A node from the pool is taken for a new element. -/
theorem take (h : Placed Good blocks stack ns [] hs) {pool : π} (hgood : Good pool)
    (hfresh : ∀ b ∈ blocks stack.pool, Apart (nodeBlock stack.elemSize node) b)
    (hnew : blocks pool = nodeBlock stack.elemSize node :: blocks stack.pool) :
    Placed Good blocks (SmpStack.setBelow { stack with pool := pool } node 0) ns []
      (node :: hs) := by
  have hne : ∀ n ∈ ns ++ ([] ++ hs), n ≠ node := fun n hn => h.ne_fresh hfresh hn
  have hperm : (ns ++ ([] ++ node :: hs)).Perm (node :: (ns ++ ([] ++ hs))) := List.perm_middle
  constructor
  case good => exact hgood
  case live => exact h.live.congr fun n hn => by simp [hne n (List.mem_append_left _ hn)]
  case idle => exact h.idle
  case bottom => exact h.bottom
  case currSize => exact h.currSize
  case nodup =>
    rw [hperm.nodup_iff, List.nodup_cons]
    exact ⟨fun hmem => hne node hmem rfl, h.nodup⟩
  case block =>
    intro n hn
    change nodeBlock stack.elemSize n ∈ blocks pool
    rw [hnew]
    rcases List.mem_cons.mp (hperm.mem_iff.mp hn) with rfl | hn
    · exact List.mem_cons_self
    · exact List.mem_cons_of_mem _ (h.block n hn)

/-- The call of `appoint` moves no node. -/
theorem callAppoint (h : Placed Good blocks stack ns fs hs) (n : Nat) (elem : ε) :
    Placed Good blocks (callAppoint stack n elem) ns fs hs := by
  unfold Stack.callAppoint
  cases stack.appoint with
  | none => exact h
  | some appoint =>
      apply h.move (List.Perm.refl _)
      case hpool => rfl
      case helem => rfl
      case hbottom => rfl
      case hlive => exact h.live.congr fun m _ => stack.setData_below n m _
      case hidle => exact h.idle.congr fun m _ => stack.setData_below n m _
      case hcurr => exact h.currSize

/-! ## Moves between the chains -/

/-- A held node is put on top of the live ones. -/
theorem put (hserves : calls.Serves Good blocks)
    (h : Placed Good blocks stack ns fs (node :: hs)) :
    Placed Good blocks (linkTop stack node) (node :: ns) fs hs := by
  -- on an empty stack the bottom is null, as the top is
  have hbelow : (if stack.top = 0 then stack.setBelow node stack.bottom
      else stack.setBelow node stack.top) = stack.setBelow node stack.top := by
    split_ifs with hnull
    · rw [h.bottom, hnull]
    · rfl
  unfold linkTop
  rw [hbelow]
  have hne : node ≠ 0 := h.ne_null hserves (by simp)
  have hns : ∀ n ∈ ns, n ≠ node := fun n hn => h.ne_live hn (by simp)
  have hfs : ∀ n ∈ fs, n ≠ node := fun n hn => h.ne_idle hn (by simp)
  apply h.move
  case hperm =>
    rw [List.cons_append, ← List.append_assoc, ← List.append_assoc]
    exact List.perm_middle.symm
  case hpool => rfl
  case helem => rfl
  case hbottom => rfl
  case hlive =>
    refine ⟨rfl, hne, ?_⟩
    simp only [SmpStack.setBelow_below, if_true]
    exact h.live.congr fun n hn => if_neg (hns n hn)
  case hidle => exact h.idle.congr fun n hn => by simp [hfs n hn]
  case hcurr =>
    have hlength := h.length_lt hserves
    unfold PoolCalls.bound at hlength
    simp only [SmpStack.setBelow_currSize, h.currSize, List.length_cons]
    exact Nat.mod_eq_of_lt (by omega)

/-- The top node is handed to the caller. -/
theorem pop (h : Placed Good blocks stack (node :: ns) fs hs) :
    Placed Good blocks
      { SmpStack.setBelow { stack with top := (stack.mem node).below } node 0 with
        currSize := if stack.currSize = 0 then 2 ^ 64 - 1 else stack.currSize - 1 }
      ns fs (node :: hs) := by
  have hns : ∀ n ∈ ns, n ≠ node := by
    have hnodup := (List.nodup_append.mp h.nodup).1
    exact fun n hn heq => (List.nodup_cons.mp hnodup).1 (heq ▸ hn)
  have hfs : ∀ n ∈ fs, n ≠ node := fun n hn =>
    (h.ne_live (a := node) (by simp) (List.mem_append_left _ hn)).symm
  have hcurr := h.currSize
  rw [List.length_cons] at hcurr
  apply h.move
  case hperm =>
    rw [List.cons_append, ← List.append_assoc, ← List.append_assoc]
    exact List.perm_middle
  case hpool => rfl
  case helem => rfl
  case hbottom => rfl
  case hlive => exact h.live.2.2.congr fun n hn => by simp [hns n hn]
  case hidle => exact h.idle.congr fun n hn => by simp [hfs n hn]
  case hcurr =>
    simp only [hcurr, if_neg (Nat.succ_ne_zero _), Nat.add_sub_cancel]

/-- A held node becomes the first recovered one. -/
theorem recover (hserves : calls.Serves Good blocks) (h : Placed Good blocks stack ns fs hs)
    (hnode : node ∈ hs) :
    Placed Good blocks (smpStackRecover stack node) ns (node :: fs) (hs.erase node) := by
  have hne : node ≠ 0 := h.ne_null hserves (by simp [hnode])
  have hns : ∀ n ∈ ns, n ≠ node := fun n hn => h.ne_live hn (by simp [hnode])
  have hfs : ∀ n ∈ fs, n ≠ node := fun n hn => h.ne_idle hn hnode
  rw [smpStackRecover, if_neg hne]
  apply h.move
  case hperm =>
    refine List.Perm.append_left ns ?_
    refine List.Perm.trans ?_ (List.Perm.append_left fs (List.perm_cons_erase hnode).symm)
    exact List.perm_middle.symm
  case hpool => rfl
  case helem => rfl
  case hbottom => rfl
  case hlive => exact h.live.congr fun n hn => by simp [hns n hn]
  case hidle =>
    refine ⟨rfl, hne, ?_⟩
    simp only [SmpStack.setBelow_below, if_true]
    exact h.idle.congr fun n hn => if_neg (hfs n hn)
  case hcurr => exact h.currSize

end Placed

/-- A stack whose nodes are placed, with a size and a length in the range of `int`. -/
structure Linked (Good : π → Prop) (blocks : π → List Block) (stack : SmpStack π ε)
    (ns fs hs : List Nat) : Prop where
  good : Good stack.pool
  live : Chain (fun n => (stack.mem n).below) stack.top ns
  idle : Chain (fun n => (stack.mem n).below) stack.idel fs
  bottom : stack.bottom = 0
  currSize : stack.currSize = ns.length
  sizeLt : stack.size < 2 ^ 31
  lengthLt : ns.length < 2 ^ 31
  fits : stack.size ≠ stackUnlimited → ns.length ≤ stack.size
  nodup : (ns ++ (fs ++ hs)).Nodup
  block : ∀ n ∈ ns ++ (fs ++ hs), nodeBlock stack.elemSize n ∈ blocks stack.pool

/-- The nodes of a linked stack are placed. -/
theorem Linked.placed (h : Linked Good blocks stack ns fs hs) : Placed Good blocks stack ns fs hs :=
  ⟨h.good, h.live, h.idle, h.bottom, h.currSize, h.nodup, h.block⟩

/-- Placed nodes of a stack within the range of `int`. -/
theorem Placed.linked (h : Placed Good blocks stack ns fs hs) (hsize : stack.size < 2 ^ 31)
    (hlength : ns.length < 2 ^ 31) (hfits : stack.size ≠ stackUnlimited → ns.length ≤ stack.size) :
    Linked Good blocks stack ns fs hs :=
  ⟨h.good, h.live, h.idle, h.bottom, h.currSize, hsize, hlength, hfits, h.nodup, h.block⟩

end Stack
end Smpcil
