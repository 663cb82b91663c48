import Smpcil.Stack.Refinement

/-!
# The capacity of a stack

A stack keeps its capacity and its number of elements as `size_t`, but compares what the
getters return, which are of type `int`.  This module describes the runs of a stack of any
size and says in which of their states the comparisons are right.

Main results:

- Theorems {lit}`smpStackFilled_iff` and {lit}`smpStackEmpty_iff`: what the comparisons see.
- Theorem {lit}`Counted.placed`: the layout and the bound on the elements in every run.
- Theorem {lit}`exact_iff`: the states in which the capacity is exact.
-/

namespace Smpcil
namespace Stack

open Allocator Chains PoolCalls

variable {π ε : Type} {calls : PoolCalls π} {Good : π → Prop} {blocks : π → List Block}
variable {stack stack' : SmpStack π ε} {ns fs hs : List Nat} {stackSize count : Nat}

/-! ## What the getters see -/

/-- The test for a full stack sees the low 32 bits of both numbers. -/
theorem smpStackFilled_iff : smpStackFilled stack = true ↔
    stack.size % 2 ^ 32 ≠ 0 ∧ stack.size % 2 ^ 32 ≤ stack.currSize % 2 ^ 32 := by
  have hsize : toSize (smpStackSize stack) = stackUnlimited ↔ stack.size % 2 ^ 32 = 0 :=
    toSize_toInt_eq_zero
  have hle : toSize (smpStackSize stack) ≤ toSize (smpStackLength stack) ↔
      stack.size % 2 ^ 32 ≤ stack.currSize % 2 ^ 32 := toSize_toInt_le
  rw [smpStackFilled, ← hle, ne_eq, ← hsize]
  split_ifs with hunlimited
  · simp [hunlimited]
  · simp [hunlimited]

/-- The test for an empty stack sees the low 32 bits of the length. -/
theorem smpStackEmpty_iff :
    smpStackEmpty stack = true ↔ stack.currSize % 2 ^ 32 = 0 ∨ stack.top = 0 := by
  simp [smpStackEmpty, smpStackLength, toInt_eq_zero]

/-! ## Runs -/

/-- The stacks of all runs on a stack created with {lit}`stackSize`, with the number of live
elements (pushed and not popped) and the nodes popped and not recovered. -/
inductive Counted (calls : PoolCalls π) (Good : π → Prop) (stackSize : Nat) :
    SmpStack π ε → Nat → List Nat → Prop where
  | init {w w' : π} {raw : Nat → StackNode} {elemSize : Nat} {appoint : Option (Appoint ε)}
      {stack : SmpStack π ε} : Good w →
      smpStackInit calls w raw elemSize stackSize appoint = .ok (some stack, w') →
      Counted calls Good stackSize stack 0 []
  | push {stack stack' : SmpStack π ε} {count : Nat} {hs : List Nat} {p : VoidPtr} {elem : ε} :
      Counted calls Good stackSize stack count hs →
      smpStackPush calls stack (some elem) = .ok (p, stack') →
      Counted calls Good stackSize stack' (if p = NULL then count else count + 1) hs
  | pop {stack stack' : SmpStack π ε} {count node : Nat} {hs : List Nat} :
      Counted calls Good stackSize stack count hs → smpStackPop stack = (node, stack') →
      Counted calls Good stackSize stack' (if node = 0 then count else count - 1)
        (if node = 0 then hs else node :: hs)
  | recover {stack : SmpStack π ε} {count node : Nat} {hs : List Nat} :
      Counted calls Good stackSize stack count hs → node ∈ hs →
      Counted calls Good stackSize (smpStackRecover stack node) count (hs.erase node)

/-- The live elements stay below the capacity that the getters see. -/
def Bounded (stackSize count : Nat) : Prop :=
  stackSize % 2 ^ 32 ≠ 0 → count ≤ stackSize % 2 ^ 32

/-- A stack that is not full has room for one more element. -/
theorem Bounded.succ (h : Bounded stackSize count)
    (hroom : ¬ (stackSize % 2 ^ 32 ≠ 0 ∧ stackSize % 2 ^ 32 ≤ count % 2 ^ 32)) :
    Bounded stackSize (count + 1) := by
  unfold Bounded at *
  omega

/-- In every run the nodes are placed, one for each live element. -/
theorem Counted.placed (hserves : calls.Serves Good blocks)
    (h : Counted calls Good stackSize stack count hs) :
    ∃ ns fs, Placed Good blocks stack ns fs hs ∧ ns.length = count ∧ stack.size = stackSize ∧
      Bounded stackSize count := by
  induction h with
  | init hw hinit =>
      rcases smpStackInit_placed hserves hw hinit with ⟨hplaced, hsize⟩
      exact ⟨[], [], hplaced, rfl, hsize, fun _ => Nat.zero_le _⟩
  | @push stack stack' count hs p elem _ hpush ih =>
      rcases ih with ⟨ns, fs, hplaced, rfl, hsize, hbounded⟩
      rcases smpStackPush_placed hserves hplaced elem hpush with
        ⟨hsize', ⟨rfl, -, -, h'⟩ | ⟨node, hfilled, rfl, hpushed⟩⟩
      · rw [if_pos rfl]
        exact ⟨ns, fs, h', rfl, hsize'.trans hsize, hbounded⟩
      · have hne : dataOf node ≠ NULL := Nat.succ_ne_zero _
        rw [if_neg hne]
        refine ⟨node :: ns, fs.tail, hpushed.placed, List.length_cons, hsize'.trans hsize, ?_⟩
        apply hbounded.succ
        rw [← hsize, ← hplaced.currSize, ← smpStackFilled_iff, hfilled]
        exact Bool.false_ne_true
  | @pop stack stack' count node hs _ hpop ih =>
      rcases ih with ⟨ns, fs, hplaced, rfl, hsize, hbounded⟩
      cases hempty : smpStackEmpty stack with
      | true =>
          simp only [smpStackPop, hempty, if_true, Prod.mk.injEq] at hpop
          rcases hpop with ⟨rfl, rfl⟩
          exact ⟨ns, fs, hplaced, rfl, hsize, hbounded⟩
      | false =>
          cases ns with
          | nil =>
              have hnull : smpStackEmpty stack = true :=
                smpStackEmpty_iff.mpr (Or.inr hplaced.live)
              rw [hempty] at hnull
              exact absurd hnull Bool.false_ne_true
          | cons top ns =>
              rcases smpStackPop_placed hplaced hempty with ⟨stack₂, hrun, hsize', h', -⟩
              rw [hpop, Prod.mk.injEq] at hrun
              rcases hrun with ⟨rfl, rfl⟩
              have hne : node ≠ 0 := hplaced.live.2.1
              rw [if_neg hne, if_neg hne]
              refine ⟨ns, fs, h', ?_, hsize'.trans hsize, ?_⟩
              · rw [List.length_cons, Nat.add_sub_cancel]
              · exact fun hwide => (Nat.sub_le _ _).trans (hbounded hwide)
  | @recover stack count node hs _ hnode ih =>
      rcases ih with ⟨ns, fs, hplaced, hcount, hsize, hbounded⟩
      exact ⟨ns, node :: fs, hplaced.recover hserves hnode, hcount,
        (smpStackRecover_size stack node).trans hsize, hbounded⟩

/-! ## Exactness -/

/-- The capacity is exact for a stack with {lit}`count` live elements: a push is refused when
it is full and only then, a pop when it is empty and only then, and it is not more than
full. -/
structure Exact (calls : PoolCalls π) (stackSize : Nat) (stack : SmpStack π ε) (count : Nat)
    (elem : ε) : Prop where
  push : ∃ p stack', smpStackPush calls stack (some elem) = .ok (p, stack') ∧
    (p = NULL ↔ stackSize ≠ stackUnlimited ∧ count = stackSize)
  pop : (smpStackPop stack).1 = 0 ↔ count = 0
  fits : stackSize ≠ stackUnlimited → count ≤ stackSize

/-- The numbers that the getters do not change to a wrong answer. -/
def Representable (stackSize count : Nat) : Prop :=
  (count % 2 ^ 32 = 0 → count = 0) ∧
    (stackSize ≠ 0 → stackSize % 2 ^ 32 = 0 → count < stackSize) ∧
    (2 ^ 32 ≤ stackSize → stackSize % 2 ^ 32 ≠ 0 → count < stackSize % 2 ^ 32)

instance (stackSize count : Nat) : Decidable (Representable stackSize count) :=
  inferInstanceAs (Decidable (_ ∧ _))

/-- The comparisons of the low 32 bits are those of the numbers. -/
theorem comparisons_iff (h : Bounded stackSize count) :
    ((stackSize % 2 ^ 32 ≠ 0 ∧ stackSize % 2 ^ 32 ≤ count % 2 ^ 32 ↔
        stackSize ≠ stackUnlimited ∧ count = stackSize) ∧
      (count % 2 ^ 32 = 0 ↔ count = 0) ∧ (stackSize ≠ stackUnlimited → count ≤ stackSize)) ↔
      Representable stackSize count := by
  unfold Bounded Representable stackUnlimited at *
  omega

/-- What a pop answers. -/
theorem smpStackPop_null_iff (h : Placed Good blocks stack ns fs hs) :
    (smpStackPop stack).1 = 0 ↔ ns.length % 2 ^ 32 = 0 := by
  have hempty := @smpStackEmpty_iff π ε stack
  rw [h.currSize] at hempty
  cases ns with
  | nil =>
      have htrue : smpStackEmpty stack = true := hempty.mpr (Or.inr h.live)
      simp [smpStackPop, htrue]
  | cons node ns =>
      have hhead : stack.top = node := h.live.1
      have hne : node ≠ 0 := h.live.2.1
      rw [hhead, or_iff_left hne] at hempty
      rw [← hempty]
      cases hcase : smpStackEmpty stack with
      | true => simp [smpStackPop, hcase]
      | false => simp [smpStackPop, hcase, hhead, hne]

/-- What a push answers when a node for it can be had. -/
theorem smpStackPush_null_iff (elem : ε)
    (hnode : ∃ node stack', smpStackNodeCreate calls stack = .ok (node, stack') ∧ node ≠ 0) :
    ∃ p stack', smpStackPush calls stack (some elem) = .ok (p, stack') ∧
      (p = NULL ↔ smpStackFilled stack = true) := by
  rcases hnode with ⟨node, stack₁, hcreate, hne⟩
  cases hfilled : smpStackFilled stack with
  | true =>
      have hrun : smpStackPush calls stack (some elem) =
          .ok (NULL, { stack with pool := calls.setError stack.pool }) := by
        simp [smpStackPush, hfilled]
      exact ⟨NULL, _, hrun, by simp⟩
  | false =>
      refine ⟨_, _, smpStackPush_of_node hfilled hcreate hne elem, ?_⟩
      have hdata : dataOf node ≠ NULL := Nat.succ_ne_zero _
      simp [hdata]

/-- In which states the capacity is exact, over all runs on a stack of any size: a push for
which a node can be had is refused exactly at the capacity, a pop is refused exactly when
nothing is live, and the live elements do not exceed the capacity. -/
theorem exact_iff (hserves : calls.Serves Good blocks)
    (h : Counted calls Good stackSize stack count hs) (elem : ε)
    (hnode : ∃ node stack', smpStackNodeCreate calls stack = .ok (node, stack') ∧ node ≠ 0) :
    Exact calls stackSize stack count elem ↔ Representable stackSize count := by
  rcases h.placed hserves with ⟨ns, fs, hplaced, rfl, rfl, hbounded⟩
  rcases smpStackPush_null_iff elem hnode with ⟨p, stack', hrun, hnull⟩
  have hpop := smpStackPop_null_iff hplaced
  rw [smpStackFilled_iff, hplaced.currSize] at hnull
  have hpush : (∃ p stack', smpStackPush calls stack (some elem) = .ok (p, stack') ∧
      (p = NULL ↔ stack.size ≠ stackUnlimited ∧ ns.length = stack.size)) ↔
      (stack.size % 2 ^ 32 ≠ 0 ∧ stack.size % 2 ^ 32 ≤ ns.length % 2 ^ 32 ↔
        stack.size ≠ stackUnlimited ∧ ns.length = stack.size) := by
    simp only [hrun, Except.ok.injEq, Prod.mk.injEq]
    constructor
    · rintro ⟨p', stack₂, ⟨rfl, -⟩, hiff⟩
      rw [← hnull, hiff]
    · intro hiff
      exact ⟨p, stack', ⟨rfl, rfl⟩, hnull.trans hiff⟩
  rw [← comparisons_iff hbounded, ← hpush, ← hpop]
  constructor
  · intro hexact
    exact ⟨hexact.push, hexact.pop, hexact.fits⟩
  · rintro ⟨hpushes, hpops, hfits⟩
    exact ⟨hpushes, hpops, hfits⟩

/-- A capacity from 1 to the largest `unsigned int` is exact in every run. -/
theorem Counted.representable (hserves : calls.Serves Good blocks) (hpos : 0 < stackSize)
    (hsize : stackSize < 2 ^ 32) (h : Counted calls Good stackSize stack count hs) :
    Representable stackSize count := by
  rcases h.placed hserves with ⟨ns, fs, -, -, -, hbounded⟩
  unfold Bounded Representable at *
  omega

/-! ## Samples -/

/-- A new stack of capacity {lit}`2 ^ 32 + 1` with elements of one byte. -/
def wideStack : SmpStack History (List UInt8) := { sampleStack with size := 2 ^ 32 + 1 }

theorem sampleStack_counted : Counted bumpPool BumpTrace 2 sampleStack 0 [] :=
  @Counted.init _ _ _ _ _ [] _ (fun _ => ⟨0, [0]⟩) 1 (some fun elem _ => elem) _ Trace.nil rfl

theorem wideStack_counted : Counted bumpPool BumpTrace (2 ^ 32 + 1) wideStack 0 [] :=
  @Counted.init _ _ _ _ _ [] _ (fun _ => ⟨0, [0]⟩) 1 (some fun elem _ => elem) _ Trace.nil rfl

/-- A stack of capacity two with two elements. -/
theorem exact_iff_two : ∃ stack : SmpStack History (List UInt8),
    Counted bumpPool BumpTrace 2 stack 2 [] ∧ Exact bumpPool 2 stack 2 [9] := by
  obtain ⟨stack₁, stack₂, hpush₁, hpush₂, hnode⟩ :
      ∃ stack₁ stack₂ : SmpStack History (List UInt8),
        smpStackPush bumpPool sampleStack (some [7]) = .ok (88, stack₁) ∧
        smpStackPush bumpPool stack₁ (some [8]) = .ok (104, stack₂) ∧
        ∃ stack', smpStackNodeCreate bumpPool stack₂ = .ok (112, stack') :=
    ⟨_, _, smpStackPush_of_node (by decide) rfl (by decide) _,
      smpStackPush_of_node (by decide) rfl (by decide) _, _, rfl⟩
  have hcounted := (sampleStack_counted.push hpush₁).push hpush₂
  rcases hnode with ⟨stack', hcreate⟩
  exact ⟨stack₂, hcounted,
    (exact_iff bumpPool_serves hcounted [9] ⟨112, stack', hcreate, by decide⟩).mpr (by decide)⟩

/-- With a capacity of {lit}`2 ^ 32 + 1` the second push is refused, although there is one
element on the stack and a node for another. -/
theorem not_exact_wide : ∃ stack : SmpStack History (List UInt8),
    Counted bumpPool BumpTrace (2 ^ 32 + 1) stack 1 [] ∧
    (∃ node stack', smpStackNodeCreate bumpPool stack = .ok (node, stack') ∧ node ≠ 0) ∧
    (∃ stack', smpStackPush bumpPool stack (some [8]) = .ok (NULL, stack')) ∧
    ¬ Exact bumpPool (2 ^ 32 + 1) stack 1 [8] := by
  have hroom : smpStackFilled wideStack = false := by decide
  have hpush : ∃ stack, smpStackPush bumpPool wideStack (some [7]) = .ok (88, stack) ∧
      stack.size = 2 ^ 32 + 1 ∧ stack.currSize = 1 ∧
      ∃ node stack', smpStackNodeCreate bumpPool stack = .ok (node, stack') ∧ node ≠ 0 := by
    simp only [smpStackPush, hroom]
    exact ⟨_, rfl, rfl, rfl, 96, _, rfl, by decide⟩
  rcases hpush with ⟨stack, hpush, hsize, hcurr, hnode⟩
  have hfilled : smpStackFilled stack = true := by
    rw [smpStackFilled_iff, hsize, hcurr]
    decide
  have hrefused : smpStackPush bumpPool stack (some [8]) =
      .ok (NULL, { stack with pool := bumpPool.setError stack.pool }) := by
    simp [smpStackPush, hfilled]
  refine ⟨stack, wideStack_counted.push hpush, hnode, ⟨_, hrefused⟩, ?_⟩
  intro hexact
  rcases hexact.push with ⟨p, stack', hrun, hnull⟩
  rw [hrefused, Except.ok.injEq, Prod.mk.injEq] at hrun
  have hfull := (hnull.mp hrun.1.symm).2
  omega

end Stack
end Smpcil
