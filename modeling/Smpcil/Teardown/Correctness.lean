import Smpcil.Teardown.Runs
import Smpcil.Tree.Depth

/-!
# What a teardown frees

Main results:

- Theorem {lit}`teardown_frees_all`: with no refused request every node, every key and every cell
  is freed exactly once, and in every iteration each cell is in one place.
- Theorem {lit}`losesNothing_iff`: a teardown frees everything it reports as freed exactly when
  none of its requests is refused.
-/

namespace Smpcil
namespace Teardown

open RedBlack
open RbTree (Ptr Rbt rootPtr Rep InTree)
open Queue

variable {keyCmp : VoidPtr → VoidPtr → Int} {answers : Answers} {rbt rbt' : Rbt}
  {freeKey : KeyFree} {t : Tree Ptr} {addr qnode : Nat} {mem : Nat → QNode} {s : State}
  {heap' : Heap} {gone lost : List Ptr} {es : List Event}

/-! ## Iterations -/

/-- The states of the loop of a teardown, `qnode` and what the walk works on. -/
inductive Iteration (answers : Answers) (freeKey : KeyFree) (rbt : Rbt) (mem : Nat → QNode) :
    Nat × State → Prop where
  | start {busy idle : SmpQueue} {heap₁ heap₂ : Heap} : rbt.root ≠ .nil →
      smpQueueCreate answers ⟨mem, 0, []⟩ (some smpQnodeDestory) = (some busy, heap₁) →
      smpQueueCreate answers heap₁ (some smpQnodeDestory) = (some idle, heap₂) →
      Iteration answers freeKey rbt mem (doRbtCleanStart answers ⟨rbt, heap₂, busy, idle⟩)
  | pass {st st' : Nat × State} : Iteration answers freeKey rbt mem st →
      doRbtCleanPass answers freeKey st = .ok (.again st') → Iteration answers freeKey rbt mem st'

/-- The two queues of a teardown that gets as far as its loop. -/
theorem created_of_eq (hs : Sound answers) {busy idle : SmpQueue} {heap₁ heap₂ : Heap}
    (hcreate₁ : smpQueueCreate answers ⟨mem, 0, []⟩ (some smpQnodeDestory) = (some busy, heap₁))
    (hcreate₂ : smpQueueCreate answers heap₁ (some smpQnodeDestory) = (some idle, heap₂)) :
    Created answers heap₂ busy idle := by
  cases hb : answers 0 with
  | none =>
      rw [@smpQueueCreate_refused answers ⟨mem, 0, []⟩ hb] at hcreate₁
      simp at hcreate₁
  | some b =>
      rcases @smpQueueCreate_granted answers b ⟨mem, 0, []⟩ hs hb (some smpQnodeDestory) with
        ⟨busy', hcreate, -⟩
      rw [hcreate₁, Prod.mk.injEq] at hcreate
      cases hi : answers 1 with
      | none =>
          have hrefused := @smpQueueCreate_refused answers ⟨mem, 1, []⟩ hi (some smpQnodeDestory)
          rw [hcreate.2, hrefused] at hcreate₂
          simp at hcreate₂
      | some i =>
          rcases create_queues hs mem hb hi with ⟨busy', idle', heap₁', heap₂', h₁, h₂, hcreated⟩
          simp only [hcreate₁, Prod.mk.injEq, Option.some.injEq] at h₁
          rcases h₁ with ⟨rfl, rfl⟩
          simp only [hcreate₂, Prod.mk.injEq, Option.some.injEq] at h₂
          rcases h₂ with ⟨rfl, rfl⟩
          exact hcreated

/-- Every iteration keeps the invariant of the walk. -/
theorem Iteration.walk {st : Nat × State} (h : Iteration answers freeKey rbt mem st)
    (hs : Sound answers) (hrep : Rep rbt t) (hsize : rbt.size = t.toList.length) :
    ∃ bs is ts gone lost,
      Walk answers rbt freeKey t (3 + newCells [t] 0) st.1 st.2 bs is ts gone lost := by
  induction h with
  | @start busy idle heap₁ heap₂ hroot hcreate₁ hcreate₂ =>
      have hcreated := created_of_eq hs hcreate₁ hcreate₂
      have hne : t ≠ .leaf := by
        rintro rfl
        exact hroot hrep.root
      rcases @walk_start answers rbt freeKey t heap₂ busy idle hs hrep hsize hne hcreated.first
        hcreated.second hcreated.requests hcreated.log (by simp [hcreated.addr]) with
        ⟨qnode, s, bs, is, ts, lost, hstart, hwalk, -⟩
      rw [hstart]
      exact ⟨bs, is, ts, [], lost, hwalk⟩
  | @pass st st' _ hpass ih =>
      rcases ih with ⟨bs, is, ts, gone, lost, hwalk⟩
      rcases st with ⟨qnode, s⟩
      by_cases hq : qnode = 0
      · simp [doRbtCleanPass, hq] at hpass
      · rcases hwalk.pass hs hrep.nodup hq with
          ⟨qnode', s', bs', is', ts', lost', hrun, hwalk', -⟩
        rw [hpass, Except.ok.injEq, Loops.Pass.again.injEq] at hrun
        rw [hrun]
        exact ⟨bs', is', ts', _, lost', hwalk'⟩

/-- What holds at an iteration.  Every cell is in the hand of the loop or in one of the two
queues; the node of the cell in the hand still has its children, and the pass reads them
before it frees the key and the node. -/
structure InOrder (answers : Answers) (freeKey : KeyFree) (rbt : Rbt) (qnode : Nat) (s : State) :
    Prop where
  cells : ∃ bs is, Cells answers s (handOf qnode) bs is ∧ (handOf qnode ++ bs ++ is).Nodup
  node : qnode ≠ 0 → ∃ p st', (s.heap.qnode qnode).data = toVoid p ∧ InTree rbt p ∧
    .free .rnode (toVoid p) ∉ s.heap.log ∧ (∀ d, s.rbt.child d p = rbt.child d p) ∧
    doRbtCleanPass answers freeKey (qnode, s) = .ok (.again st') ∧
    st'.2.heap.log = s.heap.log ++ released rbt freeKey p

theorem Walk.inOrder {bs is : List Nat} {ts : List (Tree Ptr)} {N : Nat}
    (h : Walk answers rbt freeKey t N qnode s bs is ts gone lost) (hs : Sound answers)
    (hrep : Rep rbt t) : InOrder answers freeKey rbt qnode s := by
  refine ⟨⟨bs, is, h.forest.cells, h.forest.cells.nodup hs⟩, fun hq => ?_⟩
  rcases h.exists_cons hq with ⟨c, l, p, r, ts', par, rfl, hdata, -⟩
  have hp : p ∈ nodesOf (Tree.node c l p r :: ts') := by simp [Tree.toList]
  rcases h.pass hs hrep.nodup hq with ⟨qnode', s', bs', is', ts'', lost', hrun, hwalk, -⟩
  have hlog : s'.heap.log = s.heap.log ++ released rbt freeKey p := by
    rw [hwalk.log, h.log, hdata, ofVoid_toVoid, List.flatMap_append, List.flatMap_singleton]
  have htree : p ∈ t.toList :=
    h.nodes.mem_iff.mp (List.mem_append_left _ (List.mem_append_right _ hp))
  refine ⟨p, (qnode', s'), hdata, hrep.inTree_iff.mpr htree, h.notMem_log hrep.nodup hp, ?_, hrun,
    hlog⟩
  have hmem := h.mem p (h.notMem_gone hrep.nodup hp)
  intro d
  cases d <;> simp [Rbt.child, hmem]

/-! ## Teardowns without a refusal -/

theorem queuesOf_nodup (hs : Sound answers) (requests : Nat) :
    (queuesOf answers requests).Nodup := by
  refine List.Nodup.filterMap ?_ List.nodup_range
  exact fun i j a hi hj => hs.fresh hi hj

/-- No queue and no cell is freed twice. -/
theorem QueuesFreed.nodup {requests : Nat} (h : QueuesFreed answers requests es)
    (hs : Sound answers) : es.Nodup := by
  have hinj : ∀ o : Object, Function.Injective (Event.free o) := by
    intro o a b hab
    simpa using hab
  rw [List.Perm.nodup_iff h, List.nodup_append]
  refine ⟨(queuesOf_nodup hs _).map (hinj _), (hs.cellsOf_nodup _).map (hinj _), ?_⟩
  intro e he e' he' heq
  rcases List.mem_map.mp he with ⟨a, -, rfl⟩
  rcases List.mem_map.mp he' with ⟨b, -, rfl⟩
  simp at heq

/-- With no refused request a teardown frees all nodes and their keys, all cells and queues,
and the tree, each exactly once.  In every iteration of its loop, refusals or not, each cell is
in one place and a node is freed after its children have been read. -/
theorem teardown_frees_all (hreach : RbTree.Reachable keyCmp rbt) (hs : Sound answers) (addr : Nat)
    (freeKey : KeyFree) (mem : Nat → QNode) :
    (∀ qnode s, Iteration answers freeKey rbt mem (qnode, s) →
      InOrder answers freeKey rbt qnode s) ∧
    ∃ rbt' heap', (∃ enough, ∀ fuel, enough ≤ fuel →
        smpRbtDestory answers addr freeKey fuel rbt ⟨mem, 0, []⟩ = .ok (.ok, rbt', heap')) ∧
      ((∀ i < heap'.requests, answers i ≠ none) → rbt'.size = 0 ∧
        ∃ (nodes : List Ptr) (es : List Event), nodes.Nodup ∧ (∀ p, p ∈ nodes ↔ InTree rbt p) ∧
          heap'.log = nodes.flatMap (released rbt freeKey) ++ es ++ [.free .rbt addr] ∧
          QueuesFreed answers heap'.requests es ∧ es.Nodup) := by
  rcases hreach.shaped with ⟨t, hshaped⟩
  constructor
  · intro qnode s hiter
    rcases hiter.walk hs hshaped.rep hshaped.size with ⟨bs, is, ts, gone, lost, hwalk⟩
    exact hwalk.inOrder hs hshaped.rep
  · rcases smpRbtDestory_finished hs hshaped.rep hshaped.size addr freeKey mem with
      ⟨rbt', heap', gone, lost, es, hrun, hfinished⟩
    refine ⟨rbt', heap', hrun, fun hgranted => ?_⟩
    have hlost : lost = [] := hfinished.made.mpr hgranted
    have hnodes := hfinished.nodes
    have hlog := hfinished.log
    have hsize := hfinished.size
    simp only [hlost, List.append_nil, if_true, List.length_nil] at hnodes hlog hsize
    refine ⟨hsize, gone, es, hnodes.nodup_iff.mpr hshaped.rep.nodup, fun p => ?_, hlog,
      hfinished.freed, hfinished.freed.nodup hs⟩
    rw [hnodes.mem_iff, hshaped.rep.inTree_iff]

/-- A `malloc` that grants the first hundred requests. -/
def sampleAnswers : Answers := fun i => if i < 100 then some (i + 8) else none

/-- Keys are freed by the function at 9. -/
def sampleFree : KeyFree := ⟨9, by decide⟩

theorem sound_sampleAnswers : Sound sampleAnswers := by
  have hspec : ∀ {i a}, sampleAnswers i = some a → i < 100 ∧ a = i + 8 := by
    intro i a h
    unfold sampleAnswers at h
    split_ifs at h with hi
    exact ⟨hi, (Option.some.inj h).symm⟩
  constructor
  case nonzero => intro i a h; have := hspec h; omega
  case bounded => intro i a h; have := hspec h; omega
  case fresh => intro i j a hi hj; have := hspec hi; have := hspec hj; omega

/-- A value read off a run comes from a run that returns. -/
theorem exists_of_map_eq_ok {α β : Type} {x : Exec α} {f : α → β} {b : β}
    (h : x.map f = .ok b) : ∃ a, x = .ok a ∧ f a = b := by
  cases x with
  | error e => simp [Except.map] at h
  | ok a => exact ⟨a, rfl, by simpa [Except.map] using h⟩

/-- The teardown of three nodes makes five requests. -/
theorem requests_sampleThree :
    (smpRbtDestory sampleAnswers 7 sampleFree 8 RbTree.sampleThree
      ⟨fun _ => ⟨0, 0, 0, 0⟩, 0, []⟩).map (fun r => r.2.2.requests) = .ok 5 := by
  decide +kernel

theorem teardown_frees_all_sampleThree : ∃ rbt' heap' fuel,
    smpRbtDestory sampleAnswers 7 sampleFree fuel RbTree.sampleThree
        ⟨fun _ => ⟨0, 0, 0, 0⟩, 0, []⟩ =
      .ok (.ok, rbt', heap') ∧ rbt'.size = 0 := by
  rcases teardown_frees_all RbTree.reachable_sampleThree sound_sampleAnswers 7 sampleFree
    (fun _ => ⟨0, 0, 0, 0⟩) with ⟨-, rbt', heap', ⟨enough, hrun⟩, hall⟩
  refine ⟨rbt', heap', enough, hrun enough (Nat.le_refl _), (hall ?_).1⟩
  rcases exists_of_map_eq_ok requests_sampleThree with ⟨r, hrun₈, hcount⟩
  have hsame := smpRbtDestory_mono (Nat.le_max_left 8 enough) hrun₈
  rw [hrun _ (Nat.le_max_right 8 enough), Except.ok.injEq] at hsame
  intro i hi
  have hlt : i < 100 := by
    rw [← hsame] at hcount
    exact Nat.lt_trans (hcount ▸ hi) (by decide)
  simp [sampleAnswers, hlt]

/-! ## Teardowns with refusals -/

/-- Whether an event is about a node or a key. -/
def ofNode : Event → Bool
  | .free .rnode _ => true
  | .freeData _ _ => true
  | _ => false

/-- Every node and every key that is not null is freed exactly once, and so is the tree. -/
structure FreedAll (addr : Nat) (freeKey : KeyFree) (rbt : Rbt) (log : List Event) : Prop where
  nodes : ∃ nodes : List Ptr, nodes.Nodup ∧ (∀ p, p ∈ nodes ↔ InTree rbt p) ∧
    (log.filter ofNode).Perm (nodes.flatMap (released rbt freeKey))
  tree : log.count (.free .rbt addr) = 1

/-- A teardown that returns `SMP_OK` has freed everything, and no node that it has not freed is
out of reach. -/
def LosesNothing (answers : Answers) (addr : Nat) (freeKey : KeyFree) (rbt : Rbt)
    (mem : Nat → QNode) : Prop :=
  ∀ fuel st rbt' heap',
    smpRbtDestory answers addr freeKey fuel rbt ⟨mem, 0, []⟩ = .ok (st, rbt', heap') →
    (st = .ok → FreedAll addr freeKey rbt heap'.log) ∧
    ∀ p, InTree rbt p → .free .rnode (toVoid p) ∉ heap'.log → InTree rbt' p

/-- Freeing nodes records nothing else. -/
theorem ofNode_of_mem {e : Event} (he : e ∈ gone.flatMap (released rbt freeKey)) :
    ofNode e = true := by
  rcases List.mem_flatMap.mp he with ⟨p, -, he⟩
  by_cases hkey : rbt.key p = NULL
  · simp only [released, hkey, ne_eq, not_true, if_false, List.nil_append, List.mem_singleton] at he
    rw [he]
    rfl
  · simp only [released, ne_eq, hkey, not_false_iff, if_true, List.cons_append, List.nil_append,
      List.mem_cons, List.not_mem_nil, or_false] at he
    rcases he with rfl | rfl
    · rfl
    · rfl

/-- Freeing the queues records queues and cells. -/
theorem QueuesFreed.not_node {requests : Nat} {e : Event} (h : QueuesFreed answers requests es)
    (he : e ∈ es) : ofNode e = false ∧ e ≠ .free .rbt addr := by
  have he' := (List.Perm.mem_iff h).mp he
  rcases List.mem_append.mp he' with he' | he'
  · rcases List.mem_map.mp he' with ⟨a, -, rfl⟩
    exact ⟨rfl, by simp⟩
  · rcases List.mem_map.mp he' with ⟨a, -, rfl⟩
    exact ⟨rfl, by simp⟩

/-- The tree itself is freed exactly if no node is lost. -/
theorem Finished.count_tree (h : Finished answers addr freeKey rbt t rbt' heap' gone lost es) :
    heap'.log.count (.free .rbt addr) = if lost = [] then 1 else 0 := by
  have hnodes : (gone.flatMap (released rbt freeKey)).count (.free .rbt addr) = 0 :=
    List.count_eq_zero.mpr fun hmem => by simpa [ofNode] using ofNode_of_mem hmem
  have hqueues : es.count (.free .rbt addr) = 0 :=
    List.count_eq_zero.mpr fun hmem => (QueuesFreed.not_node h.freed hmem).2 rfl
  rw [h.log, List.count_append, List.count_append, hnodes, hqueues]
  split_ifs <;> simp

/-- The nodes and keys that are freed. -/
theorem Finished.filter_log (h : Finished answers addr freeKey rbt t rbt' heap' gone lost es) :
    heap'.log.filter ofNode = gone.flatMap (released rbt freeKey) := by
  have hnodes : (gone.flatMap (released rbt freeKey)).filter ofNode =
      gone.flatMap (released rbt freeKey) := List.filter_eq_self.mpr fun e he => ofNode_of_mem he
  have hqueues : es.filter ofNode = [] := by
    refine List.filter_eq_nil_iff.mpr fun e he => ?_
    have hnot := (@QueuesFreed.not_node answers addr es _ e h.freed he).1
    simp [hnot]
  rw [h.log, List.filter_append, List.filter_append, hnodes, hqueues]
  split_ifs <;> simp [ofNode]

/-- A teardown loses nothing exactly if none of the requests that it makes when all are granted
is refused: two for the queues, one for the root, and those of the walk. -/
theorem losesNothing_iff (hreach : RbTree.Reachable keyCmp rbt) (hs : Sound answers) (addr : Nat)
    (freeKey : KeyFree) (mem : Nat → QNode) :
    ∃ t, Rep rbt t ∧ (LosesNothing answers addr freeKey rbt mem ↔
      ∀ i < teardownRequests t, answers i ≠ none) := by
  rcases hreach.shaped with ⟨t, hshaped⟩
  rcases smpRbtDestory_finished hs hshaped.rep hshaped.size addr freeKey mem with
    ⟨rbt', heap', gone, lost, es, ⟨enough, hrun⟩, hfinished⟩
  refine ⟨t, hshaped.rep, ?_⟩
  rw [← hfinished.needed]
  constructor
  · intro hloses
    by_contra hlost
    have hcount := ((hloses enough _ _ _ (hrun enough (Nat.le_refl _))).1 rfl).tree
    rw [hfinished.count_tree, if_neg hlost] at hcount
    exact absurd hcount (by decide)
  · intro hlost fuel st rbt₁ heap₁ hrun₁
    have hsame := smpRbtDestory_mono (Nat.le_max_left fuel enough) hrun₁
    rw [hrun _ (Nat.le_max_right fuel enough)] at hsame
    simp only [Except.ok.injEq, Prod.mk.injEq] at hsame
    rcases hsame with ⟨-, -, rfl⟩
    have hnodes := hfinished.nodes
    rw [hlost, List.append_nil] at hnodes
    have hmem : ∀ p, p ∈ gone ↔ InTree rbt p := fun p => by
      rw [hnodes.mem_iff, hshaped.rep.inTree_iff]
    refine ⟨fun _ => ⟨⟨gone, hnodes.nodup_iff.mpr hshaped.rep.nodup, hmem, ?_⟩, ?_⟩, ?_⟩
    · rw [hfinished.filter_log]
    · rw [hfinished.count_tree, if_pos hlost]
    · intro p hp hout
      refine absurd ?_ hout
      rw [hfinished.log]
      simp only [List.mem_append]
      exact Or.inl (Or.inl (mem_flatMap_released.mpr ((hmem p).mpr hp)))

theorem losesNothing_iff_sampleThree : ∃ t, Rep RbTree.sampleThree t ∧
    (LosesNothing sampleAnswers 7 sampleFree RbTree.sampleThree (fun _ => ⟨0, 0, 0, 0⟩) ↔
      ∀ i < teardownRequests t, sampleAnswers i ≠ none) :=
  losesNothing_iff RbTree.reachable_sampleThree sound_sampleAnswers 7 sampleFree _

/-- One more request is refused. -/
theorem Sound.refuse (hs : Sound answers) (n : Nat) :
    Sound fun i => if i = n then none else answers i := by
  have hspec : ∀ {i a}, (if i = n then none else answers i) = some a → answers i = some a := by
    intro i a h
    split_ifs at h
    exact h
  exact ⟨fun h => hs.nonzero (hspec h), fun h => hs.bounded (hspec h),
    fun hi hj => hs.fresh (hspec hi) (hspec hj)⟩

/-- The cell of the second child of the root is refused: that child is lost, and the status is
`SMP_OK` all the same. -/
theorem not_losesNothing : RbTree.Reachable RbTree.keyDiff RbTree.sampleThree ∧
    Sound (fun i => if i = 4 then none else sampleAnswers i) ∧
    ¬ LosesNothing (fun i => if i = 4 then none else sampleAnswers i) 7 sampleFree
      RbTree.sampleThree
      (fun _ => ⟨0, 0, 0, 0⟩) := by
  have hlog : (smpRbtDestory (fun i => if i = 4 then none else sampleAnswers i) 7 sampleFree 8
      RbTree.sampleThree ⟨fun _ => ⟨0, 0, 0, 0⟩, 0, []⟩).map
      (fun r => (r.1, r.2.2.log.count (.free .rbt 7))) = .ok (.ok, 0) := by
    decide +kernel
  refine ⟨RbTree.reachable_sampleThree, sound_sampleAnswers.refuse 4, fun hloses => ?_⟩
  rcases exists_of_map_eq_ok hlog with ⟨⟨st, rbt', heap'⟩, hrun, hread⟩
  rw [Prod.mk.injEq] at hread
  have hcount := ((hloses _ _ _ _ hrun).1 hread.1).tree
  rw [hread.2] at hcount
  exact absurd hcount (by decide)

end Teardown
end Smpcil
