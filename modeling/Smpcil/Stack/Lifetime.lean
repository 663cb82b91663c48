import Smpcil.Pool.Lifetime
import Smpcil.Stack.Refinement

/-!
# The life of a stack

A stack over the pool of `smp_mpool.c`, from its creation to its end.  The size that it asks for
its pool depends on its capacity and may be no multiple of the alignment; such pools are left
out here.  A popped node stays with the caller until it is recovered, with the element it was
popped with.

Main results:

- Definition {lit}`Kept`: the runs, with the elements on the stack and the popped nodes.
- Theorem {lit}`Kept.lasting`: what every run keeps.
- Theorem {lit}`stack_whole_life`: the memory of live and popped nodes, and the end of a stack.
-/

namespace Smpcil
namespace Stack

open Allocator Chains PoolCalls
open Mpool (Env SoundEnv PoolData BigPool Fitting Life lifeCalls lifeCalls_serves maxOf
  firstAnswers sound_firstAnswers)

variable {π ε : Type} {calls : PoolCalls π} {Good : π → Prop}
variable {env : Env} {elemSize stackSize : Nat}

/-- The size that `smp_stack_init` asks for its pool. -/
def stackPoolSize (elemSize stackSize : Nat) : Nat :=
  ((if stackSize = stackUnlimited then 2048 else elemSize * stackSize % 2 ^ 64) +
    Mpool.sizeofPool + Mpool.sizeofBigPool) % 2 ^ 64

/-- What a stack requests from its pool: itself, and nodes. -/
def Requested (elemSize n : Nat) : Prop := n = sizeofStack ∨ n = sizeofStackNode + elemSize

/-! ## Runs -/

/-- The stacks of all runs over a pool of a fitting size, with the elements pushed and not popped,
the last one first, and the nodes popped and not recovered, each with the element it was popped
with. -/
inductive Kept (env : Env) (elemSize stackSize : Nat) :
    SmpStack Life ε → List (List UInt8) → List (Nat × List UInt8) → Prop where
  | init {data : Nat → PoolData} {big : Nat → BigPool} {life : Life} {raw : Nat → StackNode}
      {appoint : Option (Appoint ε)} {stack : SmpStack Life ε} :
      Fitting (stackPoolSize elemSize stackSize) →
      smpStackInit (lifeCalls env) (Life.start data big) raw elemSize stackSize appoint =
        .ok (some stack, life) →
      Kept env elemSize stackSize stack [] []
  | push {stack stack' : SmpStack Life ε} {l : List (List UInt8)} {held : List (Nat × List UInt8)}
      {elemData : Option ε} {p : VoidPtr} : Kept env elemSize stackSize stack l held →
      smpStackPush (lifeCalls env) stack elemData = .ok (p, stack') →
      Kept env elemSize stackSize stack' (pushed stack elemData p l) held
  | pop {stack stack' : SmpStack Life ε} {l : List (List UInt8)} {held : List (Nat × List UInt8)}
      {node : Nat} : Kept env elemSize stackSize stack l held →
      smpStackPop stack = (node, stack') →
      Kept env elemSize stackSize stack' (if node = 0 then l else l.tail)
        (if node = 0 then held else (node, l.headD []) :: held)
  | recover {stack : SmpStack Life ε} {l : List (List UInt8)} {held : List (Nat × List UInt8)}
      {node : Nat} {d : List UInt8} : Kept env elemSize stackSize stack l held →
      (node, d) ∈ held →
      Kept env elemSize stackSize (smpStackRecover stack node) l (held.erase (node, d))

/-! ## The pool of a stack -/

/-- A new stack over a new pool. -/
theorem smpStackInit_begun {w w' : π} {raw : Nat → StackNode} {appoint : Option (Appoint ε)}
    {stack : SmpStack π ε} (hw : Good w)
    (hinit : smpStackInit calls w raw elemSize stackSize appoint = .ok (some stack, w')) :
    stack.elemSize = elemSize ∧
      calls.Begun Good (Requested elemSize) (stackPoolSize elemSize stackSize) stack.pool := by
  rcases Exec.bind_eq_ok.mp hinit with ⟨⟨created, w₁⟩, hcreate, hinit⟩
  cases created with
  | false => simp at hinit
  | true =>
      simp only [not_true_eq_false, if_false] at hinit
      rcases Exec.bind_eq_ok.mp hinit with ⟨⟨m, w₂⟩, hcall, hinit⟩
      by_cases hm : m = NULL
      · simp only [if_pos hm] at hinit
        rcases Exec.bind_eq_ok.mp hinit with ⟨w₃, -, hnone⟩
        simp at hnone
      · simp only [if_neg hm, Exec.pure_eq, Except.ok.injEq, Prod.mk.injEq,
          Option.some.injEq] at hinit
        rcases hinit with ⟨rfl, rfl⟩
        exact ⟨rfl, w, w₁, hw, hcreate, .one (Or.inl rfl) hcall⟩

/-- A push keeps the size of the elements, and asks for a node or sets the error. -/
theorem smpStackPush_asked {stack stack' : SmpStack π ε} {elemData : Option ε} {p : VoidPtr}
    (hrun : smpStackPush calls stack elemData = .ok (p, stack')) :
    stack'.elemSize = stack.elemSize ∧
      calls.Asked (Requested stack.elemSize) stack.pool stack'.pool := by
  cases elemData with
  | none =>
      cases hrun
      exact ⟨rfl, .none⟩
  | some elem =>
      simp only [smpStackPush] at hrun
      split_ifs at hrun
      · cases hrun
        exact ⟨rfl, .error .none⟩
      rcases Exec.bind_eq_ok.mp hrun with ⟨⟨node, stack₁⟩, hcreate, hrun⟩
      have hasked : stack₁.elemSize = stack.elemSize ∧
          calls.Asked (Requested stack.elemSize) stack.pool stack₁.pool := by
        unfold smpStackNodeCreate at hcreate
        split_ifs at hcreate
        · cases hcreate
          exact ⟨rfl, .none⟩
        · rcases Exec.bind_eq_ok.mp hcreate with ⟨⟨m, pool⟩, hcall, hcreate⟩
          simp only at hcreate
          split_ifs at hcreate
          · cases hcreate
            exact ⟨rfl, .one (Or.inr rfl) hcall⟩
          · cases hcreate
            exact ⟨rfl, .one (Or.inr rfl) hcall⟩
      simp only at hrun
      split_ifs at hrun
      · cases hrun
        exact hasked
      · cases hrun
        have hpool : (linkTop (callAppoint stack₁ node elem) node).pool = stack₁.pool := by
          unfold linkTop callAppoint
          cases stack₁.appoint with
          | none => split_ifs <;> simp
          | some appoint => split_ifs <;> simp
        have helem : (linkTop (callAppoint stack₁ node elem) node).elemSize = stack₁.elemSize := by
          unfold linkTop callAppoint
          cases stack₁.appoint with
          | none => split_ifs <;> simp
          | some appoint => split_ifs <;> simp
        exact ⟨helem.trans hasked.1, hpool ▸ hasked.2⟩

/-- A pop asks for nothing. -/
theorem smpStackPop_pool (stack : SmpStack π ε) :
    (smpStackPop stack).2.pool = stack.pool ∧ (smpStackPop stack).2.elemSize = stack.elemSize := by
  unfold smpStackPop
  split_ifs <;> simp

/-- Nor does a recovered node. -/
theorem smpStackRecover_pool (stack : SmpStack π ε) (node : Nat) :
    (smpStackRecover stack node).pool = stack.pool ∧
      (smpStackRecover stack node).elemSize = stack.elemSize := by
  unfold smpStackRecover
  split_ifs <;> simp

/-- Taking a node out of what is held. -/
theorem map_erase_perm {held : List (Nat × List UInt8)} {node : Nat} {d : List UInt8}
    (h : (node, d) ∈ held) :
    ((held.erase (node, d)).map Prod.fst).Perm ((held.map Prod.fst).erase node) := by
  have hperm := (List.perm_cons_erase h).map Prod.fst
  have hnode : node ∈ held.map Prod.fst := List.mem_map_of_mem h
  exact (List.Perm.cons_inv (hperm.symm.trans (List.perm_cons_erase hnode)))

/-! ## What every run keeps -/

/-- What a stack keeps of its pool, of its elements and of the popped nodes. -/
structure Lasting (env : Env) (elemSize stackSize : Nat) (stack : SmpStack Life ε)
    (ns fs : List Nat) (l : List (List UInt8)) (held : List (Nat × List UInt8)) : Prop where
  placed : Placed (Life.Good env) (fun life => life.world.issued) stack ns fs (held.map Prod.fst)
  size : stack.elemSize = elemSize
  begun : (lifeCalls env).Begun (Life.Good env) (Requested elemSize)
    (stackPoolSize elemSize stackSize) stack.pool
  elements : elements stack ns = l
  held : ∀ x ∈ held, (stack.mem x.1).data = x.2

namespace Lasting

variable {stack stack' : SmpStack Life ε} {ns fs : List Nat} {l : List (List UInt8)}
variable {held : List (Nat × List UInt8)}

/-- A push keeps the popped nodes as they are. -/
theorem push (hs : SoundEnv env) (hpage : Mpool.sizeofBigPool ≤ env.pageSize)
    (h : Lasting env elemSize stackSize stack ns fs l held) {elemData : Option ε} {p : VoidPtr}
    (hrun : smpStackPush (lifeCalls env) stack elemData = .ok (p, stack')) :
    ∃ ns' fs', Lasting env elemSize stackSize stack' ns' fs' (pushed stack elemData p l) held := by
  rcases smpStackPush_asked hrun with ⟨helem, hasked⟩
  rw [h.size] at helem hasked
  have hbegun := h.begun.ask hasked
  cases elemData with
  | none =>
      cases hrun
      exact ⟨ns, fs, h⟩
  | some elem =>
      rcases (smpStackPush_placed (lifeCalls_serves hs hpage) h.placed elem hrun).2 with
        ⟨rfl, -, hpool, hplaced⟩ | ⟨node, -, rfl, hpushed⟩
      · have hmem : stack'.mem = stack.mem := by rw [hpool]
        rw [pushed_null]
        refine ⟨ns, fs, hplaced, helem, hbegun, ?_, ?_⟩
        · rw [← h.elements]
          exact elements_congr fun n _ => by rw [hmem]
        · intro x hx
          rw [hmem]
          exact h.held x hx
      · rw [pushed_dataOf]
        refine ⟨node :: ns, fs.tail, hpushed.placed, helem, hbegun, ?_, ?_⟩
        · rw [← h.elements]
          exact hpushed.elements
        · intro x hx
          have hne : x.1 ≠ node := fun heq =>
            hpushed.notMem (heq ▸ List.mem_append_right _ (List.mem_map_of_mem hx))
          rw [hpushed.others x.1 hne]
          exact h.held x hx

/-- A pop hands out the top node with its element. -/
theorem pop (h : Lasting env elemSize stackSize stack ns fs l held) {node : Nat}
    (hrun : smpStackPop stack = (node, stack')) :
    ∃ ns', Lasting env elemSize stackSize stack' ns' fs (if node = 0 then l else l.tail)
      (if node = 0 then held else (node, l.headD []) :: held) := by
  have hpool := smpStackPop_pool stack
  rw [hrun] at hpool
  have helem : stack'.elemSize = elemSize := hpool.2.trans h.size
  have hbegun := h.begun
  rw [← hpool.1] at hbegun
  cases hempty : smpStackEmpty stack with
  | true =>
      simp only [smpStackPop, hempty, if_true, Prod.mk.injEq] at hrun
      rcases hrun with ⟨rfl, rfl⟩
      exact ⟨ns, h⟩
  | false =>
      cases ns with
      | nil =>
          have hnull : smpStackEmpty stack = true := by simp [smpStackEmpty, show stack.top = 0 from
            h.placed.live]
          rw [hempty] at hnull
          exact absurd hnull Bool.false_ne_true
      | cons top ns =>
          rcases smpStackPop_placed h.placed hempty with ⟨stack₂, hrun', -, hplaced, hdata⟩
          rw [hrun, Prod.mk.injEq] at hrun'
          rcases hrun' with ⟨rfl, rfl⟩
          have hne : node ≠ 0 := h.placed.live.2.1
          have hl : l = (stack.mem node).data :: Stack.elements stack ns := h.elements.symm
          rw [if_neg hne, if_neg hne, hl]
          refine ⟨ns, hplaced, helem, hbegun, elements_congr fun n _ => hdata n, ?_⟩
          intro x hx
          rw [hdata x.1]
          rcases List.mem_cons.mp hx with rfl | hx
          · rfl
          · exact h.held x hx

/-- A recovered node is no longer held. -/
theorem recover (hs : SoundEnv env) (hpage : Mpool.sizeofBigPool ≤ env.pageSize)
    (h : Lasting env elemSize stackSize stack ns fs l held) {node : Nat} {d : List UInt8}
    (hnode : (node, d) ∈ held) :
    Lasting env elemSize stackSize (smpStackRecover stack node) ns (node :: fs) l
      (held.erase (node, d)) := by
  have hmem : node ∈ held.map Prod.fst := List.mem_map_of_mem hnode
  have hplaced := h.placed.recover (lifeCalls_serves hs hpage) hmem
  have hpool := smpStackRecover_pool stack node
  have hdata := smpStackRecover_data stack node
  constructor
  case placed =>
    have hperm := ((map_erase_perm hnode).append_left (node :: fs)).append_left ns
    exact hplaced.move hperm rfl rfl rfl hplaced.live hplaced.idle hplaced.currSize
  case size => exact hpool.2.trans h.size
  case begun =>
    rw [hpool.1]
    exact h.begun
  case elements =>
    rw [← h.elements]
    exact elements_congr fun n _ => hdata n
  case held =>
    intro x hx
    rw [hdata]
    exact h.held x (List.mem_of_mem_erase hx)

end Lasting

/-- What every run keeps. -/
theorem Kept.lasting (hs : SoundEnv env) (hpage : Mpool.sizeofBigPool ≤ env.pageSize)
    {stack : SmpStack Life ε} {l : List (List UInt8)} {held : List (Nat × List UInt8)}
    (h : Kept env elemSize stackSize stack l held) :
    ∃ ns fs, Lasting env elemSize stackSize stack ns fs l held := by
  induction h with
  | @init data big _ _ _ _ _ hinit =>
      have hstart : (Life.start data big).Good env := Life.good_start data big
      rcases smpStackInit_begun hstart hinit with ⟨helem, hbegun⟩
      exact ⟨[], [], (smpStackInit_placed (lifeCalls_serves hs hpage) hstart hinit).1, helem,
        hbegun, rfl, by simp⟩
  | push _ hrun ih =>
      rcases ih with ⟨ns, fs, hlasting⟩
      exact hlasting.push hs hpage hrun
  | pop _ hrun ih =>
      rcases ih with ⟨ns, fs, hlasting⟩
      rcases hlasting.pop hrun with ⟨ns', hlasting'⟩
      exact ⟨ns', fs, hlasting'⟩
  | recover _ hnode ih =>
      rcases ih with ⟨ns, fs, hlasting⟩
      exact ⟨ns, _, hlasting.recover hs hpage hnode⟩

/-! ## The end of a stack -/

/-- In every run over a pool of a fitting size the live nodes of a stack hold the elements pushed
and not popped, the last one first, and a popped node keeps its element until it is recovered.
All these nodes are apart and lie in live memory of the underlying allocator.  Destroying the
stack leaves live only what was lost by requests too big for the blocks of the pool, and nothing
of any node, popped or not. -/
theorem stack_whole_life (hs : SoundEnv env) (hpage : Mpool.sizeofBigPool ≤ env.pageSize)
    {stack : SmpStack Life ε} {l : List (List UInt8)} {held : List (Nat × List UInt8)}
    (h : Kept env elemSize stackSize stack l held) :
    ∃ ns, Chain (fun n => (stack.mem n).below) stack.top ns ∧ elements stack ns = l ∧
      (∀ x ∈ held, (stack.mem x.1).data = x.2) ∧
      (ns ++ held.map Prod.fst).Pairwise
        (fun n m => Apart (nodeBlock elemSize n) (nodeBlock elemSize m)) ∧
      (∀ n ∈ ns ++ held.map Prod.fst,
        ∃ b ∈ live stack.pool.history, Within (nodeBlock elemSize n) b) ∧
      (∀ b ∈ stack.pool.lost,
        Requested elemSize b.size ∧ maxOf env (stackPoolSize elemSize stackSize) < b.size) ∧
      ∃ life, smpStackDestory (lifeCalls env) stack = .ok (.ok, life) ∧
        life.Leaves stack.pool.lost ∧
        ∀ n ∈ ns ++ held.map Prod.fst, ∀ b ∈ stack.pool.lost, Apart (nodeBlock elemSize n) b := by
  rcases h.lasting hs hpage with ⟨ns, fs, hlasting⟩
  rcases Life.begun_destory hs hpage hlasting.begun with ⟨life, hrun, hleaves⟩
  have hsub : (ns ++ held.map Prod.fst).Sublist (ns ++ (fs ++ held.map Prod.fst)) :=
    (List.Sublist.refl ns).append (List.sublist_append_right fs _)
  have hblock : ∀ n ∈ ns ++ held.map Prod.fst, nodeBlock elemSize n ∈ stack.pool.world.issued := by
    intro n hn
    rw [← hlasting.size]
    exact hlasting.placed.block n (hsub.subset hn)
  have hdestory : smpStackDestory (lifeCalls env) stack = .ok (.ok, life) := by
    rw [smpStackDestory, hrun, Exec.ok_bind, Exec.pure_eq]
  refine ⟨ns, hlasting.placed.live, hlasting.elements, hlasting.held, ?_, ?_,
    (Life.begun_lost hs hpage hlasting.begun).2.1, life, hdestory, hleaves, ?_⟩
  · have happ := hlasting.placed.apart (lifeCalls_serves hs hpage)
    rw [hlasting.size] at happ
    exact happ.sublist hsub
  · exact fun n hn => hlasting.placed.good.within (hblock n hn)
  · exact fun n hn b hb => hlasting.placed.good.apart_lost hs (hblock n hn) hb

/-- A stack that is destroyed while its only element is popped. -/
theorem stack_whole_life_sample : ∃ (stack : SmpStack Life (List UInt8)) (life : Life),
    Kept (firstAnswers 2) 1 0 stack [] [(128, [7])] ∧ (stack.mem 128).data = [7] ∧
      smpStackDestory (lifeCalls (firstAnswers 2)) stack = .ok (.ok, life) ∧
      life.Leaves stack.pool.lost := by
  obtain ⟨stack₀, life₀, stack₁, hinit, hvalue, hfilled, hcreate, happoint, hcurr, htop⟩ :
      ∃ (stack₀ : SmpStack Life (List UInt8)) (life₀ : Life) (stack₁ : SmpStack Life (List UInt8)),
        smpStackInit (lifeCalls (firstAnswers 2))
          (Life.start (fun _ => ⟨0, 0, 0, 0⟩) fun _ => ⟨0, 0⟩)
          (fun _ => ⟨0, [0]⟩) 1 0 (some fun elem _ => elem) = .ok (some stack₀, life₀) ∧
        pushed stack₀ (some [7]) 136 [] = [[7]] ∧ smpStackFilled stack₀ = false ∧
        smpStackNodeCreate (lifeCalls (firstAnswers 2)) stack₀ = .ok (128, stack₁) ∧
        stack₁.appoint = some (fun elem _ => elem) ∧ stack₁.currSize = 0 ∧ stack₁.top = 0 :=
    ⟨_, _, _, rfl, rfl, by decide, rfl, rfl, rfl, rfl⟩
  obtain ⟨stack₂, hstack₂⟩ : ∃ stack₂, stack₂ = linkTop (callAppoint stack₁ 128 [7]) 128 := ⟨_, rfl⟩
  have hfields : stack₂.currSize = 1 ∧ stack₂.top = 128 ∧ (stack₂.mem 128).data = [7] := by
    simp [hstack₂, linkTop, callAppoint, happoint, hcurr, htop]
  have hpush : smpStackPush (lifeCalls (firstAnswers 2)) stack₀ (some [7]) = .ok (136, stack₂) := by
    rw [smpStackPush_of_node hfilled hcreate (by decide), hstack₂]
    rfl
  have hempty : smpStackEmpty stack₂ = false := by
    simp [smpStackEmpty, smpStackLength, hfields, show toInt 1 = 1 by decide]
  obtain ⟨stack₃, hpop⟩ : ∃ stack₃, smpStackPop stack₂ = (128, stack₃) := by
    simp [smpStackPop, hempty, hfields]
  have h₁ := (Kept.init (by decide) hinit).push hpush
  rw [hvalue] at h₁
  have h₂ := h₁.pop hpop
  rw [if_neg (by decide), if_neg (by decide)] at h₂
  rcases stack_whole_life (sound_firstAnswers 2) (by decide) h₂ with
    ⟨ns, -, -, hheld, -, -, -, life, hrun, hleaves, -⟩
  exact ⟨stack₃, life, h₂, hheld (128, [7]) (by simp), hrun, hleaves⟩

end Stack
end Smpcil
