import Smpcil.Stack.Layout

/-!
# The stack as a list

What push, pop and recover do to the elements of a stack, over all runs in which the
caller recovers only nodes that it holds.

Main results:

- Theorem {lit}`smpStackPush_spec`: a push puts its element on top, or changes nothing.
- Theorem {lit}`Reachable.linked`: the layout of every reachable stack.
- Theorem {lit}`reachable_refines_lifo`: the refinement, in every reachable state.
-/

namespace Smpcil
namespace Stack

open Allocator Chains PoolCalls

variable {π ε : Type} {calls : PoolCalls π} {Good : π → Prop} {blocks : π → List Block}
variable {stack stack' : SmpStack π ε} {ns fs hs : List Nat} {node : Nat}

/-- The elements of live nodes. -/
def elements (stack : SmpStack π ε) (ns : List Nat) : List (List UInt8) :=
  ns.map fun n => (stack.mem n).data

/-- The elements of a stack after a store elsewhere. -/
theorem elements_congr (hsame : ∀ n ∈ ns, (stack'.mem n).data = (stack.mem n).data) :
    elements stack' ns = elements stack ns :=
  List.map_congr_left hsame

/-- What an element leaves in a node that held {lit}`d`. -/
def appointed (appoint : Option (Appoint ε)) (elem : ε) (d : List UInt8) : List UInt8 :=
  match appoint with
  | some appoint => appoint elem d
  | none => d

/-- What a node for the next push holds: recovered nodes are cleared, new ones are not. -/
def found (stack : SmpStack π ε) (node : Nat) : List UInt8 :=
  if stack.idel = 0 then (stack.mem node).data else List.replicate stack.elemSize 0

/-- The elements behind a push that answered {lit}`p`. -/
def pushed (stack : SmpStack π ε) (elemData : Option ε) (p : VoidPtr) (l : List (List UInt8)) :
    List (List UInt8) :=
  match elemData with
  | none => l
  | some elem =>
      if p = NULL then l
      else appointed stack.appoint elem (found stack (p - sizeofStackNode)) :: l

@[simp]
theorem pushed_null (stack : SmpStack π ε) (elemData : Option ε) (l : List (List UInt8)) :
    pushed stack elemData NULL l = l := by
  cases elemData <;> rfl

@[simp]
theorem pushed_dataOf (stack : SmpStack π ε) (elem : ε) (l : List (List UInt8)) :
    pushed stack (some elem) (dataOf node) l =
      appointed stack.appoint elem (found stack node) :: l := by
  have hne : dataOf node ≠ NULL := Nat.succ_ne_zero _
  rw [pushed, if_neg hne, dataOf, Nat.add_sub_cancel]

/-! ## Queries -/

namespace Linked

theorem filled_eq (h : Linked Good blocks stack ns fs hs) :
    smpStackFilled stack = decide (stack.size ≠ stackUnlimited ∧ stack.size ≤ ns.length) := by
  have hsize : toSize (smpStackSize stack) = stack.size := toSize_toInt h.sizeLt
  have hlength : toSize (smpStackLength stack) = ns.length := by
    rw [smpStackLength, h.currSize]
    exact toSize_toInt h.lengthLt
  rw [smpStackFilled, hsize, hlength]
  by_cases hunlimited : stack.size = stackUnlimited
  · simp [hunlimited]
  · simp [hunlimited]

theorem length_eq (h : Linked Good blocks stack ns fs hs) : smpStackLength stack = ns.length := by
  rw [smpStackLength, h.currSize]
  exact toInt_of_lt h.lengthLt

theorem empty_eq (h : Linked Good blocks stack ns fs hs) : smpStackEmpty stack = ns.isEmpty := by
  rw [smpStackEmpty, h.length_eq]
  cases ns with
  | nil => simp
  | cons node ns =>
      have hhead : stack.top = node := h.live.1
      have hne : node ≠ 0 := h.live.2.1
      simp [hhead, hne]
      omega

theorem gettop_eq (h : Linked Good blocks stack ns fs hs) :
    smpStackGettop stack = if ns = [] then NULL else dataOf (ns.headD 0) := by
  cases ns with
  | nil =>
      have hnull : stack.top = 0 := h.live
      simp [smpStackGettop, hnull]
  | cons node ns =>
      have hhead : stack.top = node := h.live.1
      have hne : node ≠ 0 := h.live.2.1
      simp [smpStackGettop, hhead, hne]

end Linked

/-! ## Push -/

/-- A node for a new element: the first recovered one, a new one when none is recovered, or no
memory for one.  Only the node that is taken is written. -/
theorem smpStackNodeCreate_spec (hserves : calls.Serves Good blocks)
    (h : Placed Good blocks stack ns fs hs) :
    ∃ node stack', smpStackNodeCreate calls stack = .ok (node, stack') ∧
      ((node = 0 ∧ fs = [] ∧ stack' = { stack with pool := stack'.pool } ∧
        Placed Good blocks stack' ns fs hs) ∨
      (node ≠ 0 ∧ (fs ≠ [] → node = fs.headD 0) ∧
        stack' = { stack with pool := stack'.pool, idel := stack'.idel, mem := stack'.mem } ∧
        Placed Good blocks stack' ns fs.tail (node :: hs) ∧
        (stack'.mem node).data = found stack node ∧
        ∀ n, n ≠ node → (stack'.mem n).data = (stack.mem n).data)) := by
  cases fs with
  | cons node fs =>
      have hhead : stack.idel = node := h.idle.1
      have hne : node ≠ 0 := h.idle.2.1
      have hrun : smpStackNodeCreate calls stack =
          .ok (node, (SmpStack.setData { stack with idel := (stack.mem node).below } node
            (List.replicate stack.elemSize 0)).setBelow node 0) := by
        simp [smpStackNodeCreate, hhead, hne]
      refine ⟨_, _, hrun, Or.inr ⟨hne, fun _ => rfl, rfl, h.reuse _, ?_, ?_⟩⟩
      · simp [found, hhead, hne]
      · intro n hn
        simp [hn]
  | nil =>
      have hnull : stack.idel = 0 := h.idle
      rcases hserves.mpalloc (sizeofStackNode + stack.elemSize) h.good with
        ⟨node, pool, hcall, hgood, ⟨hnode, hsame⟩ | ⟨hnode, -, -, hfresh, hnew⟩⟩
      · have hrun : smpStackNodeCreate calls stack = .ok (0, { stack with pool := pool }) := by
          simp [smpStackNodeCreate, hnull, hcall, hnode]
        exact ⟨_, _, hrun, Or.inl ⟨rfl, rfl, rfl, h.pool hgood hsame⟩⟩
      · have hrun : smpStackNodeCreate calls stack =
            .ok (node, SmpStack.setBelow { stack with pool := pool } node 0) := by
          simp [smpStackNodeCreate, hnull, hcall, hnode]
        refine ⟨_, _, hrun, Or.inr ⟨hnode, fun hne => absurd rfl hne, rfl,
          h.take hgood hfresh hnew, ?_, ?_⟩⟩
        · simp [found, hnull]
        · intro n _
          simp

theorem callAppoint_size (stack : SmpStack π ε) (node : Nat) (elem : ε) :
    (callAppoint stack node elem).size = stack.size := by
  unfold callAppoint
  cases stack.appoint <;> rfl

theorem callAppoint_data (stack : SmpStack π ε) (node n : Nat) (elem : ε) :
    ((callAppoint stack node elem).mem n).data =
      if n = node then appointed stack.appoint elem (stack.mem node).data
      else (stack.mem n).data := by
  unfold callAppoint
  cases stack.appoint with
  | none =>
      split_ifs with heq
      · rw [heq]
        rfl
      · rfl
  | some appoint => simp [appointed]

theorem linkTop_data (stack : SmpStack π ε) (node n : Nat) :
    ((linkTop stack node).mem n).data = (stack.mem n).data := by
  unfold linkTop
  split_ifs <;> simp

theorem linkTop_size (stack : SmpStack π ε) (node : Nat) :
    (linkTop stack node).size = stack.size := by
  unfold linkTop
  split_ifs <;> rfl

/-- The outcome of a push that puts {lit}`elem` into {lit}`node`, on top of the live
nodes; the first recovered node is taken if there is one. -/
structure PushedOn (Good : π → Prop) (blocks : π → List Block) (stack : SmpStack π ε)
    (ns fs hs : List Nat) (elem : ε) (node : Nat) (stack' : SmpStack π ε) : Prop where
  nonnull : node ≠ 0
  first : fs ≠ [] → node = fs.headD 0
  placed : Placed Good blocks stack' (node :: ns) fs.tail hs
  value : (stack'.mem node).data = appointed stack.appoint elem (found stack node)
  others : ∀ n, n ≠ node → (stack'.mem n).data = (stack.mem n).data

/-- The node of a push is none of those in use. -/
theorem PushedOn.notMem {elem : ε} (h : PushedOn Good blocks stack ns fs hs elem node stack') :
    node ∉ ns ++ hs := by
  have hnot := (List.nodup_cons.mp h.placed.nodup).1
  intro hmem
  rcases List.mem_append.mp hmem with hn | hn
  · exact hnot (List.mem_append_left _ hn)
  · exact hnot (List.mem_append_right _ (List.mem_append_right _ hn))

/-- A push leaves the elements below its own as they are. -/
theorem PushedOn.elements {elem : ε} (h : PushedOn Good blocks stack ns fs hs elem node stack') :
    elements stack' (node :: ns) =
      appointed stack.appoint elem (found stack node) :: elements stack ns := by
  rw [← h.value, ← elements_congr fun n hn =>
    h.others n fun heq => h.notMem (heq ▸ List.mem_append_left _ hn)]
  rfl

/-- The layout after a push: nothing has moved, or a node is on top. -/
theorem smpStackPush_placed (hserves : calls.Serves Good blocks)
    (h : Placed Good blocks stack ns fs hs) (elem : ε) {p : VoidPtr}
    (hrun : smpStackPush calls stack (some elem) = .ok (p, stack')) :
    stack'.size = stack.size ∧
      ((p = NULL ∧ (smpStackFilled stack = true ∨ fs = []) ∧
        stack' = { stack with pool := stack'.pool } ∧ Placed Good blocks stack' ns fs hs) ∨
      ∃ node, smpStackFilled stack = false ∧ p = dataOf node ∧
        PushedOn Good blocks stack ns fs hs elem node stack') := by
  cases hfilled : smpStackFilled stack with
  | true =>
      simp only [smpStackPush, hfilled, if_true, Exec.pure_eq, Except.ok.injEq,
        Prod.mk.injEq] at hrun
      rcases hrun with ⟨rfl, rfl⟩
      rcases hserves.setError h.good with ⟨hgood, hsame⟩
      exact ⟨rfl, Or.inl ⟨rfl, Or.inl rfl, rfl, h.pool hgood hsame⟩⟩
  | false =>
      rcases smpStackNodeCreate_spec hserves h with
        ⟨node, stack₁, hcreate, ⟨rfl, hnone, hpool, h₁⟩ |
          ⟨hnode, hfirst, hfields, h₁, hdata, hothers⟩⟩
      · simp only [smpStackPush, hfilled, hcreate, Exec.ok_bind, if_true, Exec.pure_eq,
          Except.ok.injEq, Prod.mk.injEq, reduceCtorEq, if_false] at hrun
        rcases hrun with ⟨rfl, rfl⟩
        refine ⟨?_, Or.inl ⟨rfl, Or.inr hnone, hpool, h₁⟩⟩
        rw [hpool]
      · simp only [smpStackPush, hfilled, hcreate, Exec.ok_bind, hnode, if_false, Exec.pure_eq,
          Except.ok.injEq, Prod.mk.injEq, reduceCtorEq] at hrun
        rcases hrun with ⟨rfl, rfl⟩
        have happoint : stack₁.appoint = stack.appoint := by rw [hfields]
        have hsize : stack₁.size = stack.size := by rw [hfields]
        refine ⟨?_, Or.inr ⟨node, rfl, rfl, ?_⟩⟩
        · rw [linkTop_size, callAppoint_size, hsize]
        · constructor
          case nonnull => exact hnode
          case first => exact hfirst
          case placed => exact (h₁.callAppoint node elem).put hserves
          case value => rw [linkTop_data, callAppoint_data, if_pos rfl, happoint, hdata]
          case others =>
            intro n hn
            rw [linkTop_data, callAppoint_data, if_neg hn]
            exact hothers n hn

/-- A push returns. -/
theorem smpStackPush_returns (hserves : calls.Serves Good blocks)
    (h : Placed Good blocks stack ns fs hs) (elemData : Option ε) :
    ∃ r, smpStackPush calls stack elemData = .ok r := by
  cases elemData with
  | none => exact ⟨_, rfl⟩
  | some elem =>
      rcases smpStackNodeCreate_spec hserves h with ⟨node, stack₁, hcreate, -⟩
      simp only [smpStackPush, hcreate, Exec.ok_bind, Exec.pure_eq]
      split_ifs
      · exact ⟨_, rfl⟩
      · exact ⟨_, rfl⟩
      · exact ⟨_, rfl⟩

/-- What a push does with a node for its element. -/
theorem smpStackPush_of_node (hfilled : smpStackFilled stack = false)
    (hcreate : smpStackNodeCreate calls stack = .ok (node, stack')) (hne : node ≠ 0) (elem : ε) :
    smpStackPush calls stack (some elem) =
      .ok (dataOf node, linkTop (callAppoint stack' node elem) node) := by
  simp [smpStackPush, hfilled, hcreate, hne]

/-- A push puts its element on top of the live nodes, or returns null and changes
nothing. -/
theorem smpStackPush_spec (hserves : calls.Serves Good blocks)
    (h : Linked Good blocks stack ns fs hs) (hlt : ns.length + 1 < 2 ^ 31)
    (elemData : Option ε) :
    ∃ p stack', smpStackPush calls stack elemData = .ok (p, stack') ∧
      ((p = NULL ∧ (elemData = none ∨ smpStackFilled stack = true ∨ fs = []) ∧
        stack' = { stack with pool := stack'.pool } ∧ Linked Good blocks stack' ns fs hs) ∨
      ∃ elem node, elemData = some elem ∧ p = dataOf node ∧
        PushedOn Good blocks stack ns fs hs elem node stack' ∧
        Linked Good blocks stack' (node :: ns) fs.tail hs) := by
  cases elemData with
  | none => exact ⟨NULL, stack, rfl, Or.inl ⟨rfl, Or.inl rfl, rfl, h⟩⟩
  | some elem =>
      rcases smpStackPush_returns hserves h.placed (some elem) with ⟨⟨p, stack'⟩, hrun⟩
      rcases smpStackPush_placed hserves h.placed elem hrun with
        ⟨hsize, ⟨rfl, hwhy, hpool, h'⟩ | ⟨node, hfilled, rfl, hpushed⟩⟩
      · have hlinked : Linked Good blocks stack' ns fs hs :=
          h'.linked (hsize ▸ h.sizeLt) h.lengthLt (hsize ▸ h.fits)
        exact ⟨_, _, hrun, Or.inl ⟨rfl, Or.inr hwhy, hpool, hlinked⟩⟩
      · rw [h.filled_eq, decide_eq_false_iff_not] at hfilled
        have hroom : stack'.size ≠ stackUnlimited → (node :: ns).length ≤ stack'.size := by
          rw [hsize]
          intro hne
          have hnot : ¬ stack.size ≤ ns.length := fun hle => hfilled ⟨hne, hle⟩
          rw [List.length_cons]
          omega
        have hlinked : Linked Good blocks stack' (node :: ns) fs.tail hs :=
          hpushed.placed.linked (hsize ▸ h.sizeLt) hlt hroom
        exact ⟨_, _, hrun, Or.inr ⟨elem, node, rfl, rfl, hpushed, hlinked⟩⟩

/-! ## Pop -/

/-- A pop of a stack that is not empty hands out the top node with its element. -/
theorem smpStackPop_placed (h : Placed Good blocks stack (node :: ns) fs hs)
    (hempty : smpStackEmpty stack = false) :
    ∃ stack', smpStackPop stack = (node, stack') ∧ stack'.size = stack.size ∧
      Placed Good blocks stack' ns fs (node :: hs) ∧
      ∀ n, (stack'.mem n).data = (stack.mem n).data := by
  have hhead : stack.top = node := h.live.1
  have hrun : smpStackPop stack = (node,
      { SmpStack.setBelow { stack with top := (stack.mem node).below } node 0 with
        currSize := if stack.currSize = 0 then 2 ^ 64 - 1 else stack.currSize - 1 }) := by
    simp [smpStackPop, hempty, hhead]
  refine ⟨_, hrun, rfl, h.pop, ?_⟩
  intro n
  simp

/-- A pop hands out the top node with its element, or null if there is none. -/
theorem smpStackPop_spec (h : Linked Good blocks stack ns fs hs) :
    (ns = [] ∧ smpStackPop stack = (0, stack)) ∨
      ∃ node t stack', ns = node :: t ∧ node ≠ 0 ∧ smpStackPop stack = (node, stack') ∧
        Linked Good blocks stack' t fs (node :: hs) ∧
        ∀ n, (stack'.mem n).data = (stack.mem n).data := by
  have hempty := h.empty_eq
  cases ns with
  | nil => exact Or.inl ⟨rfl, by simp [smpStackPop, hempty]⟩
  | cons node t =>
      rcases smpStackPop_placed h.placed hempty with ⟨stack', hrun, hsize, h', hdata⟩
      have hlinked : Linked Good blocks stack' t fs (node :: hs) :=
        h'.linked (hsize ▸ h.sizeLt) (Nat.lt_of_succ_lt h.lengthLt)
          (hsize ▸ fun hne => Nat.le_of_succ_le (h.fits hne))
      exact Or.inr ⟨node, t, stack', rfl, h.live.2.1, hrun, hlinked, hdata⟩

theorem smpStackRecover_size (stack : SmpStack π ε) (node : Nat) :
    (smpStackRecover stack node).size = stack.size := by
  unfold smpStackRecover
  split_ifs <;> rfl

/-- A recovered node keeps its data, and so do the others. -/
theorem smpStackRecover_data (stack : SmpStack π ε) (node n : Nat) :
    ((smpStackRecover stack node).mem n).data = (stack.mem n).data := by
  unfold smpStackRecover
  split_ifs <;> simp

/-! ## Runs -/

/-- The stacks of all runs from `smp_stack_init`, with the elements pushed and not popped,
the nodes recovered and not pushed out again, and the nodes popped and not recovered, each the
last one first.  The caller recovers nodes it holds, and null; a push is to take the first
recovered node. -/
inductive Reachable (calls : PoolCalls π) (Good : π → Prop) :
    SmpStack π ε → List (List UInt8) → List Nat → List Nat → Prop where
  | init {w w' : π} {raw : Nat → StackNode} {elemSize stackSize : Nat}
      {appoint : Option (Appoint ε)} {stack : SmpStack π ε} : Good w → stackSize < 2 ^ 31 →
      smpStackInit calls w raw elemSize stackSize appoint = .ok (some stack, w') →
      Reachable calls Good stack [] [] []
  | push {stack stack' : SmpStack π ε} {l : List (List UInt8)} {fs hs : List Nat} {p : VoidPtr}
      {elemData : Option ε} : Reachable calls Good stack l fs hs → l.length + 1 < 2 ^ 31 →
      smpStackPush calls stack elemData = .ok (p, stack') →
      Reachable calls Good stack' (pushed stack elemData p l) (if p = NULL then fs else fs.tail) hs
  | pop {stack stack' : SmpStack π ε} {l : List (List UInt8)} {fs hs : List Nat} {node : Nat} :
      Reachable calls Good stack l fs hs → smpStackPop stack = (node, stack') →
      Reachable calls Good stack' l.tail fs (if node = 0 then hs else node :: hs)
  | recover {stack : SmpStack π ε} {l : List (List UInt8)} {fs hs : List Nat} {node : Nat} :
      Reachable calls Good stack l fs hs → node ∈ hs →
      Reachable calls Good (smpStackRecover stack node) l (node :: fs) (hs.erase node)
  | recoverNull {stack : SmpStack π ε} {l : List (List UInt8)} {fs hs : List Nat} :
      Reachable calls Good stack l fs hs → Reachable calls Good (smpStackRecover stack 0) l fs hs

/-- A new stack has the size it was created with, and no nodes. -/
theorem smpStackInit_placed (hserves : calls.Serves Good blocks) {w w' : π}
    {raw : Nat → StackNode} {elemSize stackSize : Nat} {appoint : Option (Appoint ε)}
    (hw : Good w)
    (hinit : smpStackInit calls w raw elemSize stackSize appoint = .ok (some stack, w')) :
    Placed Good blocks stack [] [] [] ∧ stack.size = stackSize := by
  rcases Exec.bind_eq_ok.mp hinit with ⟨⟨created, w₁⟩, hcreate, hinit⟩
  cases created with
  | false => simp at hinit
  | true =>
      have hgood₁ := hserves.create hw hcreate
      rcases hserves.mpalloc sizeofStack hgood₁ with ⟨m, w₂, hcall, hgood₂, -⟩
      simp only [not_true_eq_false, if_false, hcall, Exec.ok_bind] at hinit
      by_cases hm : m = NULL
      · rw [if_pos hm] at hinit
        rcases Exec.bind_eq_ok.mp hinit with ⟨w₃, -, hnone⟩
        simp at hnone
      · simp only [if_neg hm, Exec.pure_eq, Except.ok.injEq, Prod.mk.injEq,
          Option.some.injEq] at hinit
        rcases hinit with ⟨rfl, rfl⟩
        refine ⟨?_, rfl⟩
        constructor
        case good => exact hgood₂
        case live => simp
        case idle => simp
        case bottom => rfl
        case currSize => rfl
        case nodup => simp
        case block => simp

/-- A new stack is empty. -/
theorem smpStackInit_linked (hserves : calls.Serves Good blocks) {w w' : π}
    {raw : Nat → StackNode} {elemSize stackSize : Nat} {appoint : Option (Appoint ε)}
    (hw : Good w) (hsize : stackSize < 2 ^ 31)
    (hinit : smpStackInit calls w raw elemSize stackSize appoint = .ok (some stack, w')) :
    Linked Good blocks stack [] [] [] := by
  rcases smpStackInit_placed hserves hw hinit with ⟨h, rfl⟩
  exact h.linked hsize (Nat.two_pow_pos 31) fun _ => Nat.zero_le _

/-- A held node is recovered. -/
theorem Linked.recover (hserves : calls.Serves Good blocks)
    (h : Linked Good blocks stack ns fs hs) (hnode : node ∈ hs) :
    Linked Good blocks (smpStackRecover stack node) ns (node :: fs) (hs.erase node) := by
  have hsize : (smpStackRecover stack node).size = stack.size := smpStackRecover_size stack node
  exact (h.placed.recover hserves hnode).linked (hsize ▸ h.sizeLt) h.lengthLt (hsize ▸ h.fits)

/-- The layout of a reachable stack; its elements are those pushed and not popped. -/
theorem Reachable.linked (hserves : calls.Serves Good blocks) {l : List (List UInt8)}
    (h : Reachable calls Good stack l fs hs) :
    ∃ ns, Linked Good blocks stack ns fs hs ∧ elements stack ns = l := by
  induction h with
  | init hw hsize hinit => exact ⟨[], smpStackInit_linked hserves hw hsize hinit, rfl⟩
  | @push stack stack' l fs hs p elemData _ hlt hpush ih =>
      rcases ih with ⟨ns, hlinked, rfl⟩
      rw [elements, List.length_map] at hlt
      rcases smpStackPush_spec hserves hlinked hlt elemData with
        ⟨p', stack₂, hrun, ⟨rfl, -, hpool, hlinked'⟩ | ⟨elem, node, rfl, rfl, hpushed, hlinked'⟩⟩
      · rw [hpush, Except.ok.injEq, Prod.mk.injEq] at hrun
        rcases hrun with ⟨rfl, rfl⟩
        rw [if_pos rfl, pushed_null]
        refine ⟨ns, hlinked', ?_⟩
        rw [hpool]
        rfl
      · rw [hpush, Except.ok.injEq, Prod.mk.injEq] at hrun
        rcases hrun with ⟨rfl, rfl⟩
        have hne : dataOf node ≠ NULL := Nat.succ_ne_zero _
        rw [if_neg hne, pushed_dataOf]
        exact ⟨node :: ns, hlinked', hpushed.elements⟩
  | @pop stack stack' l fs hs node _ hpop ih =>
      rcases ih with ⟨ns, hlinked, rfl⟩
      rcases smpStackPop_spec hlinked with
        ⟨rfl, hrun⟩ | ⟨top, t, stack₂, rfl, hne, hrun, hlinked', hsame⟩
      · rw [hpop, Prod.mk.injEq] at hrun
        rcases hrun with ⟨rfl, rfl⟩
        exact ⟨[], hlinked, rfl⟩
      · rw [hpop, Prod.mk.injEq] at hrun
        rcases hrun with ⟨rfl, rfl⟩
        rw [if_neg hne]
        exact ⟨t, hlinked', elements_congr fun n _ => hsame n⟩
  | @recover stack l fs hs node _ hnode ih =>
      rcases ih with ⟨ns, hlinked, rfl⟩
      exact ⟨ns, hlinked.recover hserves hnode,
        elements_congr fun n _ => smpStackRecover_data stack node n⟩
  | recoverNull _ ih => exact ih

/-! ## Refinement -/

/-- What a stack with live nodes {lit}`ns`, recovered nodes {lit}`fs` and held nodes
{lit}`hs` is as the list {lit}`l`. -/
structure Refines (calls : PoolCalls π) (stack : SmpStack π ε) (l : List (List UInt8))
    (ns fs hs : List Nat) : Prop where
  live : Chain (fun n => (stack.mem n).below) stack.top ns
  idle : Chain (fun n => (stack.mem n).below) stack.idel fs
  disjoint : (ns ++ (fs ++ hs)).Nodup
  apart : (ns ++ (fs ++ hs)).Pairwise fun n m =>
    Apart (nodeBlock stack.elemSize n) (nodeBlock stack.elemSize m)
  values : elements stack ns = l
  currSize : stack.currSize = l.length
  length : smpStackLength stack = l.length
  gettop : smpStackGettop stack = if l = [] then NULL else dataOf (ns.headD 0)
  push : ∀ elemData, l.length + 1 < 2 ^ 31 →
    ∃ p stack', smpStackPush calls stack elemData = .ok (p, stack') ∧
      (p = NULL → (elemData = none ∨ smpStackFilled stack = true ∨ fs = []) ∧
        stack' = { stack with pool := stack'.pool }) ∧
      (p ≠ NULL → ∃ elem node, elemData = some elem ∧ p = dataOf node ∧ node ∉ ns ++ hs ∧
        (fs ≠ [] → node = fs.headD 0) ∧
        Chain (fun n => (stack'.mem n).below) stack'.top (node :: ns) ∧
        Chain (fun n => (stack'.mem n).below) stack'.idel fs.tail ∧
        elements stack' (node :: ns) = appointed stack.appoint elem (found stack node) :: l ∧
        ∀ n ∈ ns ++ hs, (stack'.mem n).data = (stack.mem n).data)
  pop : (smpStackPop stack).1 = ns.headD 0 ∧ ((smpStackPop stack).1 = 0 ↔ l = []) ∧
    Chain (fun n => ((smpStackPop stack).2.mem n).below) (smpStackPop stack).2.top ns.tail ∧
    Chain (fun n => ((smpStackPop stack).2.mem n).below) (smpStackPop stack).2.idel fs ∧
    ∀ n, ((smpStackPop stack).2.mem n).data = (stack.mem n).data
  recover : ∀ node ∈ hs,
    Chain (fun n => ((smpStackRecover stack node).mem n).below) (smpStackRecover stack node).top
      ns ∧
    Chain (fun n => ((smpStackRecover stack node).mem n).below) (smpStackRecover stack node).idel
      (node :: fs) ∧
    (smpStackRecover stack node).currSize = l.length ∧
    ∀ n, ((smpStackRecover stack node).mem n).data = (stack.mem n).data

/-- The stack refines a list that grows and shrinks at its front: in every reachable state
its live nodes hold the elements pushed and not popped, the last one first; its idle chain are
the nodes recovered and not pushed out again; these two and the nodes that the caller holds are
all different and do not overlap; a push puts its element on top, in the first recovered node if
there is one, and leaves the nodes in use as they are, or returns null and changes nothing; a pop
hands out the top node; and a recovered node becomes the first of the idle chain. -/
theorem reachable_refines_lifo (hserves : calls.Serves Good blocks) {l : List (List UInt8)}
    (h : Reachable calls Good stack l fs hs) : ∃ ns, Refines calls stack l ns fs hs := by
  rcases h.linked hserves with ⟨ns, hlinked, rfl⟩
  have hnil : elements stack ns = [] ↔ ns = [] := List.map_eq_nil_iff
  have hlength : (elements stack ns).length = ns.length := List.length_map _
  refine ⟨ns, ?_⟩
  constructor
  case live => exact hlinked.live
  case idle => exact hlinked.idle
  case disjoint => exact hlinked.nodup
  case apart => exact hlinked.placed.apart hserves
  case values => rfl
  case currSize => rw [hlength, hlinked.currSize]
  case length => rw [hlength, hlinked.length_eq]
  case gettop =>
    rw [hlinked.gettop_eq]
    simp only [hnil]
  case push =>
    intro elemData hlt
    rw [hlength] at hlt
    rcases smpStackPush_spec hserves hlinked hlt elemData with
      ⟨p, stack', hrun, ⟨rfl, hwhy, hpool, -⟩ | ⟨elem, node, helem, rfl, hpushed, hlinked'⟩⟩
    · exact ⟨_, _, hrun, fun _ => ⟨hwhy, hpool⟩, fun hne => absurd rfl hne⟩
    · exact ⟨_, _, hrun, fun hnull => absurd hnull (Nat.succ_ne_zero _), fun _ =>
        ⟨elem, node, helem, rfl, hpushed.notMem, hpushed.first, hlinked'.live, hlinked'.idle,
          hpushed.elements, fun n hn => hpushed.others n fun heq => hpushed.notMem (heq ▸ hn)⟩⟩
  case pop =>
    rw [hnil]
    rcases smpStackPop_spec hlinked with
      ⟨rfl, hrun⟩ | ⟨top, t, stack', rfl, hne, hrun, hlinked', hsame⟩
    · rw [hrun]
      exact ⟨rfl, by simp, hlinked.live, hlinked.idle, fun _ => rfl⟩
    · rw [hrun]
      exact ⟨rfl, by simp [hne], hlinked'.live, hlinked'.idle, hsame⟩
  case recover =>
    intro node hnode
    have hlinked' := hlinked.recover hserves hnode
    refine ⟨hlinked'.live, hlinked'.idle, ?_, smpStackRecover_data stack node⟩
    rw [hlength, hlinked'.currSize]

/-! ## A sample -/

/-- A new stack of capacity two with elements of one byte. -/
def sampleStack : SmpStack History (List UInt8) where
  size := 2
  currSize := 0
  appoint := some fun elem _ => elem
  top := 0
  bottom := 0
  idel := 0
  pool := [.alloc 64 (some 8)]
  elemSize := 1
  mem := fun _ => ⟨0, [0]⟩

/-- That stack after two pushes, a pop and a recover. -/
theorem reachable_sample : ∃ stack : SmpStack History (List UInt8),
    Reachable bumpPool BumpTrace stack [[7]] [96] [] := by
  have hinit : Reachable bumpPool BumpTrace sampleStack [] [] [] :=
    @Reachable.init _ _ _ _ [] _ (fun _ => ⟨0, [0]⟩) 1 2 (some fun elem _ => elem) _ Trace.nil
      (by decide) rfl
  obtain ⟨stack₁, stack₂, hpush₁, hpush₂, hempty, htop⟩ :
      ∃ stack₁ stack₂ : SmpStack History (List UInt8),
        smpStackPush bumpPool sampleStack (some [7]) = .ok (88, stack₁) ∧
        smpStackPush bumpPool stack₁ (some [8]) = .ok (104, stack₂) ∧
        smpStackEmpty stack₂ = false ∧ stack₂.top = 96 :=
    ⟨_, _, smpStackPush_of_node (by decide) rfl (by decide) _,
      smpStackPush_of_node (by decide) rfl (by decide) _, by decide, rfl⟩
  have hpop : smpStackPop stack₂ = (96, (smpStackPop stack₂).2) := by
    simp [smpStackPop, hempty, htop]
  exact ⟨_, (((hinit.push (by decide) hpush₁).push (by decide) hpush₂).pop hpop).recover
    List.mem_cons_self⟩

/-- The next push on it takes the recovered node. -/
theorem reachable_refines_lifo_sample : ∃ (stack : SmpStack History (List UInt8)) (ns : List Nat),
    Reachable bumpPool BumpTrace stack [[7]] [96] [] ∧ elements stack ns = [[7]] ∧
      (ns ++ ([96] ++ [])).Nodup ∧
      ∃ p stack', smpStackPush bumpPool stack (some [9]) = .ok (p, stack') ∧
        (p ≠ NULL → p = dataOf 96) := by
  rcases reachable_sample with ⟨stack, hreach⟩
  rcases reachable_refines_lifo bumpPool_serves hreach with ⟨ns, hrefines⟩
  rcases hrefines.push (some [9]) (by decide) with ⟨p, stack', hrun, -, hpushed⟩
  refine ⟨stack, ns, hreach, hrefines.values, hrefines.disjoint, p, stack', hrun, fun hne => ?_⟩
  rcases hpushed hne with ⟨elem, node, -, rfl, -, hfirst, -⟩
  rw [hfirst (List.cons_ne_nil _ _)]
  rfl

end Stack
end Smpcil
