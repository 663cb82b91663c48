import Smpcil.Teardown.Walk
import Smpcil.Queue.Refinement

/-!
# Runs of a teardown

The whole of `smp_rbt_destory`, for all answers of `malloc`.

Main results:

- Definition {lit}`teardownRequests`: how many requests a teardown makes if none is refused.
- Definition {lit}`Finished`: what a teardown leaves.
- Theorem {lit}`smpRbtDestory_finished`: every teardown ends, and {lit}`Finished` holds then.
-/

namespace Smpcil
namespace Teardown

open RedBlack
open RbTree (Ptr Rbt rootPtr Rep)
open Queue

/-! ## The queues -/

variable {answers : Answers} {rbt rbt' : Rbt} {freeKey : KeyFree} {t : Tree Ptr}
  {addr a fuel fuel' : Nat} {heap heap' : Heap} {queue : SmpQueue} {ns : List Nat}

/-- A queue is created in the memory of a granted request. -/
theorem smpQueueCreate_granted (hs : Sound answers) (h : answers heap.requests = some a)
    (free : Option (Nat → Heap → Heap)) :
    ∃ queue, smpQueueCreate answers heap free =
        (some queue, { heap with requests := heap.requests + 1 }) ∧
      Fifo { heap with requests := heap.requests + 1 } queue [] ∧ queue.freeQnode = free ∧
      queue.quotes = 1 ∧ queue.addr = a := by
  have hrun : smpQueueCreate answers heap free = (some (smpQinit
      { addr := a, qlen := 0, elems := 0, tail := 0, freeQnode := none, quotes := 0 } free),
      { heap with requests := heap.requests + 1 }) := by
    simp [smpQueueCreate, smpCalloc, h, hs.nonzero h]
  rcases smpQueueCreate_fifo hrun with ⟨hfifo, hfree, hquotes, -⟩
  exact ⟨_, hrun, hfifo, hfree, hquotes, rfl⟩

/-- No queue is created if the request is refused. -/
theorem smpQueueCreate_refused (h : answers heap.requests = none)
    (free : Option (Nat → Heap → Heap)) :
    smpQueueCreate answers heap free = (none, { heap with requests := heap.requests + 1 }) := by
  simp [smpQueueCreate, smpCalloc, h]

/-- Freeing cells that do not own their data. -/
theorem flatMap_freed (hdata : ∀ c ∈ ns, (heap.qnode c).freeQdata = NULL) :
    (ns.flatMap fun n => (madeAt heap n).freed) = ns.map (.free .qnode) := by
  rw [← List.flatMap_pure_eq_map]
  refine List.flatMap_congr fun c hc => ?_
  simp [Made.freed, madeAt, hdata c hc]

/-- A queue is freed with its cells, which do not own their data. -/
theorem smpQdestory_log (h : Fifo heap queue ns) (hfree : queue.freeQnode = some smpQnodeDestory)
    (hquotes : queue.quotes = 1) (hdata : ∀ c ∈ ns, (heap.qnode c).freeQdata = NULL)
    (hfuel : ns.length < fuel) :
    ∃ heap', smpQdestory fuel heap queue = .ok (.ok, heap', none, ns) ∧
      heap'.log = heap.log ++ (ns.map (.free .qnode) ++ [.free .queue queue.addr]) ∧
      heap'.requests = heap.requests := by
  have hfifo : Fifo heap { queue with quotes := 0 } ns := ⟨h.next, h.prev, h.qlen, h.addr⟩
  have hclean := hfifo.qclean_some hfree smpQnodeDestory_local hfuel
  have hfreed := @handAll_freed heap ns fun n hn => h.ne_zero hn
  have hrun : smpQdestory fuel heap queue = .ok (.ok,
      (Fifo.handAll smpQnodeDestory ns heap).record (.free .queue queue.addr), none, ns) := by
    simp only [smpQdestory, smpQueueQuoteDec_last hquotes, if_true, hclean, Exec.ok_bind,
      Exec.pure_eq]
    rfl
  refine ⟨_, hrun, ?_, hfreed.requests⟩
  rw [Heap.record_log, hfreed.log, flatMap_freed hdata, List.append_assoc]

/-- An empty queue is freed. -/
theorem smpQdestory_nil (h : Fifo heap queue []) (hquotes : queue.quotes = 1) :
    smpQdestory fuel heap queue =
      .ok (.ok, heap.record (.free .queue queue.addr), none, []) := by
  have hempty : queue.elems = 0 := h.next
  simp [smpQdestory, smpQueueQuoteDec_last hquotes, smpQclean, hempty]

theorem smpQdestory_mono {r : Status × Heap × Option SmpQueue × List Nat} (hle : fuel ≤ fuel')
    (hrun : smpQdestory fuel heap queue = .ok r) : smpQdestory fuel' heap queue = .ok r := by
  rcases hdec : smpQueueQuoteDec queue with ⟨quotes, queue'⟩
  simp only [smpQdestory, hdec] at hrun ⊢
  split_ifs at hrun ⊢ with hquotes
  · rcases Exec.bind_eq_ok.mp hrun with ⟨s, hclean, hrest⟩
    rw [smpQclean_mono hle hclean]
    exact hrest
  · exact hrun

/-! ## Fuel -/

theorem smpRbtClean_mono {r : Status × Rbt × Heap} (hle : fuel ≤ fuel')
    (hrun : smpRbtClean answers freeKey fuel rbt heap = .ok r) :
    smpRbtClean answers freeKey fuel' rbt heap = .ok r := by
  unfold smpRbtClean at hrun ⊢
  split_ifs at hrun ⊢ with hroot
  · exact hrun
  · rcases hbusy : smpQueueCreate answers heap (some smpQnodeDestory) with ⟨_ | busy, heap₁⟩
    · simpa only [hbusy] using hrun
    · rcases hidle : smpQueueCreate answers heap₁ (some smpQnodeDestory) with ⟨_ | idle, heap₂⟩
      · simp only [hbusy, hidle] at hrun ⊢
        rcases Exec.bind_eq_ok.mp hrun with ⟨s, hdestory, hrest⟩
        rw [smpQdestory_mono hle hdestory]
        exact hrest
      · simp only [hbusy, hidle] at hrun ⊢
        rcases Exec.bind_eq_ok.mp hrun with ⟨⟨st, s⟩, hwalk, hrest⟩
        rcases Exec.bind_eq_ok.mp hwalk with ⟨s', hloop, hend⟩
        rcases Exec.bind_eq_ok.mp hrest with ⟨d, hdestory, hrest'⟩
        rcases Exec.bind_eq_ok.mp hrest' with ⟨d', hdestory', hrest''⟩
        have hwalk' :
            smpDoRbtClean answers freeKey fuel' ⟨rbt, heap₂, busy, idle⟩ = .ok (st, s) := by
          rw [smpDoRbtClean, Loops.loop_mono hle hloop]
          exact hend
        rw [hwalk', Exec.ok_bind, smpQdestory_mono hle hdestory, Exec.ok_bind,
          smpQdestory_mono hle hdestory']
        exact hrest''

/-- A finished teardown does not depend on the fuel. -/
theorem smpRbtDestory_mono {r : Status × Rbt × Heap} (hle : fuel ≤ fuel')
    (hrun : smpRbtDestory answers addr freeKey fuel rbt heap = .ok r) :
    smpRbtDestory answers addr freeKey fuel' rbt heap = .ok r := by
  rcases Exec.bind_eq_ok.mp hrun with ⟨s, hclean, hrest⟩
  rw [smpRbtDestory, smpRbtClean_mono hle hclean]
  exact hrest

/-! ## The outcome -/

/-- How many requests a teardown makes if none is refused: for the two queues, for the cell of
the root, and for the cells that the walk takes. -/
def teardownRequests : Tree Ptr → Nat
  | .leaf => 0
  | .node c l x r => 3 + newCells [.node c l x r] 0

/-- The queues granted to the first of {lit}`requests` requests. -/
def queuesOf (answers : Answers) (requests : Nat) : List Nat :=
  (List.range (min requests 2)).filterMap answers

/-- The events {lit}`es` are the calls of `free` for all queues and cells that
{lit}`requests` requests were granted. -/
def QueuesFreed (answers : Answers) (requests : Nat) (es : List Event) : Prop :=
  es.Perm ((queuesOf answers requests).map (.free .queue) ++
    (cellsOf answers (requests - 2)).map (.free .qnode))

/-- What clearing the tree {lit}`t` of {lit}`rbt` leads to: the nodes {lit}`gone` are freed, and
those of {lit}`lost` are not. -/
structure Cleaned (answers : Answers) (freeKey : KeyFree) (rbt : Rbt) (t : Tree Ptr) (rbt' : Rbt)
    (heap' : Heap) (gone lost : List Ptr) (es : List Event) : Prop where
  nodes : (gone ++ lost).Perm t.toList
  log : heap'.log = gone.flatMap (released rbt freeKey) ++ es
  size : rbt'.size = lost.length
  freed : QueuesFreed answers heap'.requests es
  needed : lost = [] ↔ ∀ i < teardownRequests t, answers i ≠ none
  made : lost = [] ↔ ∀ i < heap'.requests, answers i ≠ none

/-- Two queues that no call has used. -/
structure Created (answers : Answers) (heap : Heap) (busy idle : SmpQueue) : Prop where
  first : Fifo heap busy []
  second : Fifo heap idle []
  freeQnode : idle.freeQnode = some smpQnodeDestory
  quotes : busy.quotes = 1 ∧ idle.quotes = 1
  addr : answers 0 = some busy.addr ∧ answers 1 = some idle.addr
  requests : heap.requests = 2
  log : heap.log = []

/-- The two queues of a teardown are created. -/
theorem create_queues (hs : Sound answers) (mem : Nat → QNode) {b i : Nat}
    (hb : answers 0 = some b) (hi : answers 1 = some i) :
    ∃ busy idle heap₁ heap₂,
      smpQueueCreate answers ⟨mem, 0, []⟩ (some smpQnodeDestory) = (some busy, heap₁) ∧
      smpQueueCreate answers heap₁ (some smpQnodeDestory) = (some idle, heap₂) ∧
      Created answers heap₂ busy idle := by
  rcases @smpQueueCreate_granted answers b ⟨mem, 0, []⟩ hs hb (some smpQnodeDestory) with
    ⟨busy, hcreate, hbusy, -, hbquotes, rfl⟩
  rcases @smpQueueCreate_granted answers i ⟨mem, 1, []⟩ hs hi (some smpQnodeDestory) with
    ⟨idle, hcreate', hidle, hfree, hiquotes, rfl⟩
  refine ⟨busy, idle, _, _, hcreate, hcreate', ?_, hidle, hfree, ⟨hbquotes, hiquotes⟩, ⟨hb, hi⟩,
    rfl, rfl⟩
  exact hbusy.congr fun n hn => ⟨rfl, rfl⟩

/-- After the walk the two queues are freed with the cells. -/
theorem Walk.queues_freed {s : State} {heap : Heap} {busy idle : SmpQueue} {N : Nat} {is : List Nat}
    {gone lost : List Ptr} (h : Walk answers rbt freeKey t N 0 s [] is [] gone lost)
    (hcreated : Created answers heap busy idle) (hbusy : SameQueue busy s.busy)
    (hidle : SameQueue idle s.idle) (hfuel : is.length < fuel) :
    ∃ heap₁ heap₂ es, smpQdestory fuel s.heap s.busy = .ok (.ok, heap₁, none, []) ∧
      smpQdestory fuel heap₁ s.idle = .ok (.ok, heap₂, none, is) ∧
      heap₂.log = gone.flatMap (released rbt freeKey) ++ es ∧
      heap₂.requests = s.heap.requests ∧ QueuesFreed answers s.heap.requests es := by
  have hcells := h.forest.cells
  rcases hcells.requests with ⟨n, hreq, hperm⟩
  rw [handOf, if_pos rfl, List.nil_append, List.nil_append] at hperm
  have hfirst : smpQdestory fuel s.heap s.busy = .ok (.ok, _, none, []) :=
    smpQdestory_nil hcells.busy (hbusy.quotes.trans hcreated.quotes.1)
  have hfifo : Fifo (s.heap.record (.free .queue s.busy.addr)) s.idle is :=
    hcells.idle.congr fun n hn => ⟨rfl, rfl⟩
  have hdata : ∀ c ∈ is, ((s.heap.record (.free .queue s.busy.addr)).qnode c).freeQdata = NULL :=
    fun c hc => hcells.freeQdata c (by simp [hc])
  rcases smpQdestory_log hfifo (hidle.freeQnode.trans hcreated.freeQnode)
    (hidle.quotes.trans hcreated.quotes.2) hdata hfuel with ⟨heap₂, hsecond, hlog, hreq₂⟩
  refine ⟨_, heap₂, .free .queue s.busy.addr ::
    (is.map (.free .qnode) ++ [.free .queue s.idle.addr]), hfirst, hsecond, ?_, hreq₂, ?_⟩
  · rw [hlog, Heap.record_log, h.log, List.append_assoc, List.singleton_append]
  · rw [QueuesFreed, hreq, hbusy.addr, hidle.addr]
    have hqueues : queuesOf answers (n + 2) = [busy.addr, idle.addr] := by
      simp [queuesOf, List.range_succ, hcreated.addr]
    rw [hqueues, Nat.add_sub_cancel]
    simp only [List.map_cons, List.map_nil, List.cons_append, List.nil_append]
    refine List.Perm.cons _ ((List.perm_append_singleton _ _).trans (List.Perm.cons _ ?_))
    exact hperm.map _

/-- Clearing, step by step. -/
theorem smpRbtClean_eq {heap₁ heap₂ heap₃ heap₄ : Heap} {busy idle : SmpQueue} {s : State}
    {st : Status} {handed : List Nat} (hroot : rbt.root ≠ .nil)
    (hcreate₁ : smpQueueCreate answers heap (some smpQnodeDestory) = (some busy, heap₁))
    (hcreate₂ : smpQueueCreate answers heap₁ (some smpQnodeDestory) = (some idle, heap₂))
    (hwalk : smpDoRbtClean answers freeKey fuel ⟨rbt, heap₂, busy, idle⟩ = .ok (st, s))
    (hfirst : smpQdestory fuel s.heap s.busy = .ok (.ok, heap₃, none, []))
    (hsecond : smpQdestory fuel heap₃ s.idle = .ok (.ok, heap₄, none, handed)) :
    smpRbtClean answers freeKey fuel rbt heap = .ok (st, s.rbt, heap₄) := by
  rw [smpRbtClean, if_neg hroot, hcreate₁]
  dsimp only
  rw [hcreate₂]
  dsimp only
  rw [hwalk, Exec.ok_bind]
  dsimp only
  rw [hfirst, Exec.ok_bind]
  dsimp only
  rw [hsecond, Exec.ok_bind]
  rfl

/-- The root of a tree with nodes is not the sentinel. -/
theorem root_ne_nil (hrep : Rep rbt t) (hne : t ≠ .leaf) : rbt.root ≠ .nil := by
  rw [hrep.root]
  cases t with
  | leaf => exact absurd rfl hne
  | node c l x r => exact hrep.linked.1.ne_nil

/-- The walk and the end of the two queues. -/
theorem smpRbtClean_walk (hs : Sound answers) (hrep : Rep rbt t)
    (hsize : rbt.size = t.toList.length) (hne : t ≠ .leaf) (mem : Nat → QNode) {b i : Nat}
    (hb : answers 0 = some b) (hi : answers 1 = some i) :
    ∃ fuel st rbt' heap' gone lost es,
      smpRbtClean answers freeKey fuel rbt ⟨mem, 0, []⟩ = .ok (st, rbt', heap') ∧
      Cleaned answers freeKey rbt t rbt' heap' gone lost es := by
  rcases create_queues hs mem hb hi with
    ⟨busy, idle, heap₁, heap₂, hcreate₁, hcreate₂, hcreated⟩
  rcases @walk_start answers rbt freeKey t heap₂ busy idle hs hrep hsize hne hcreated.first
    hcreated.second hcreated.requests hcreated.log (by simp [hb, hi]) with
    ⟨qnode, s, bs, is, ts, lost₀, hstart, hwalk₀, hbusy₀, hidle₀⟩
  rcases hwalk₀.run hs hrep.nodup (Nat.lt_succ_self _) with
    ⟨s', is', gone, lost, hloop, hwalk, hbusy, hidle⟩
  have hfuel : is'.length < t.toList.length + 1 + (is'.length + 1) := by omega
  rcases hwalk.queues_freed hcreated (hbusy₀.trans hbusy) (hidle₀.trans hidle) hfuel with
    ⟨heap₃, heap₄, es, hfirst, hsecond, hlog, hreq, hfreed⟩
  have hroot := root_ne_nil hrep hne
  have hrun : smpRbtClean answers freeKey (t.toList.length + 1 + (is'.length + 1)) rbt
      ⟨mem, 0, []⟩ = .ok (.ok, s'.rbt, heap₄) := by
    have hdo : smpDoRbtClean answers freeKey (t.toList.length + 1 + (is'.length + 1))
        ⟨rbt, heap₂, busy, idle⟩ = .ok (.ok, s') := by
      rw [smpDoRbtClean, hstart, Loops.loop_mono (Nat.le_add_right _ _) hloop]
      rfl
    exact smpRbtClean_eq hroot hcreate₁ hcreate₂ hdo hfirst hsecond
  refine ⟨_, .ok, s'.rbt, heap₄, gone, lost, es, hrun, ?_⟩
  have hneeded : teardownRequests t = 3 + newCells [t] 0 := by
    cases t with
    | leaf => exact absurd rfl hne
    | node c l x r => rfl
  constructor
  case nodes => simpa using hwalk.nodes
  case log => exact hlog
  case size =>
    have hlen := hwalk.nodes.length_eq
    have hcount := hwalk.size
    simp only [nodesOf_nil, List.append_nil, List.length_append] at hlen
    omega
  case freed => rw [hreq]; exact hfreed
  case needed =>
    rw [hneeded]
    rcases hwalk.budget with ⟨rfl, hgranted, hcount⟩ | ⟨hlost, j, hj, -, hrefused⟩
    · rw [newCells_nil, Nat.add_zero] at hcount
      simpa only [true_iff, ← hcount] using hgranted
    · simp only [hlost, false_iff]
      exact fun hall => hall j hj hrefused
  case made =>
    rw [hreq]
    rcases hwalk.budget with ⟨rfl, hgranted, -⟩ | ⟨hlost, j, -, hj, hrefused⟩
    · simpa only [true_iff] using hgranted
    · simp only [hlost, false_iff]
      exact fun hall => hall j hj hrefused

/-- Without its two queues clearing frees no node. -/
theorem Cleaned.refused {es : List Event} {i : Nat} (hrep : Rep rbt t)
    (hsize : rbt.size = t.toList.length) (hne : t ≠ .leaf) (hlog : heap.log = es)
    (hfreed : QueuesFreed answers heap.requests es) (hi : i < 3) (hmade : i < heap.requests)
    (hrefused : answers i = none) : Cleaned answers freeKey rbt t rbt heap [] t.toList es := by
  cases t with
  | leaf => exact absurd rfl hne
  | node c l x r =>
      have hlost : (Tree.node c l x r).toList ≠ [] := by simp [Tree.toList]
      constructor
      case nodes => exact .refl _
      case log => exact hlog
      case size => exact hsize
      case freed => exact hfreed
      case needed =>
        simp only [hlost, false_iff]
        exact fun hall => hall i (Nat.lt_add_right _ hi) hrefused
      case made =>
        simp only [hlost, false_iff]
        exact fun hall => hall i hmade hrefused

/-- Clearing ends. -/
theorem smpRbtClean_cleaned (hs : Sound answers) (hrep : Rep rbt t)
    (hsize : rbt.size = t.toList.length) (mem : Nat → QNode) :
    ∃ fuel st rbt' heap' gone lost es,
      smpRbtClean answers freeKey fuel rbt ⟨mem, 0, []⟩ = .ok (st, rbt', heap') ∧
      Cleaned answers freeKey rbt t rbt' heap' gone lost es := by
  by_cases hne : t = .leaf
  · -- nothing is requested for an empty tree
    subst hne
    have hroot : rbt.root = .nil := hrep.root
    have hrun : smpRbtClean answers freeKey 0 rbt ⟨mem, 0, []⟩ = .ok (.ok, rbt, ⟨mem, 0, []⟩) := by
      rw [smpRbtClean, if_pos hroot]
      rfl
    refine ⟨0, .ok, rbt, ⟨mem, 0, []⟩, [], [], [], hrun, .refl _, rfl, hsize, .refl _, ?_, ?_⟩
    · simp [teardownRequests]
    · simp
  have hroot : rbt.root ≠ .nil := root_ne_nil hrep hne
  cases hb : answers 0 with
  | none =>
      have hcreate := @smpQueueCreate_refused answers ⟨mem, 0, []⟩ hb (some smpQnodeDestory)
      have hrun : smpRbtClean answers freeKey 0 rbt ⟨mem, 0, []⟩ =
          .ok (.failure, rbt, ⟨mem, 1, []⟩) := by
        rw [smpRbtClean, if_neg hroot, hcreate]
        rfl
      have hfreed : QueuesFreed answers 1 [] := by
        simp [QueuesFreed, queuesOf, cellsOf, hb]
      exact ⟨_, _, _, _, _, _, _, hrun,
        Cleaned.refused hrep hsize hne rfl hfreed (by omega) Nat.one_pos hb⟩
  | some b =>
      cases hi : answers 1 with
      | none =>
          rcases @smpQueueCreate_granted answers b ⟨mem, 0, []⟩ hs hb (some smpQnodeDestory) with
            ⟨busy, hcreate, hbusy, -, hquotes, rfl⟩
          have hcreate' := @smpQueueCreate_refused answers ⟨mem, 1, []⟩ hi (some smpQnodeDestory)
          have hfifo : Fifo ⟨mem, 2, []⟩ busy [] := hbusy.congr fun n hn => ⟨rfl, rfl⟩
          have hrun : smpRbtClean answers freeKey 0 rbt ⟨mem, 0, []⟩ =
              .ok (.failure, rbt, ⟨mem, 2, [.free .queue busy.addr]⟩) := by
            rw [smpRbtClean, if_neg hroot, hcreate]
            dsimp only
            rw [hcreate']
            dsimp only
            rw [smpQdestory_nil hfifo hquotes]
            rfl
          have hfreed : QueuesFreed answers 2 [.free .queue busy.addr] := by
            simp [QueuesFreed, queuesOf, cellsOf, List.range_succ, hb, hi]
          exact ⟨_, _, _, _, _, _, _, hrun,
            Cleaned.refused hrep hsize hne rfl hfreed (by omega) Nat.one_lt_two hi⟩
      | some i => exact smpRbtClean_walk hs hrep hsize hne mem hb hi

/-! ## The tree -/

/-- What the teardown of the tree {lit}`t` of {lit}`rbt` leads to. -/
structure Finished (answers : Answers) (addr : Nat) (freeKey : KeyFree) (rbt : Rbt) (t : Tree Ptr)
    (rbt' : Rbt) (heap' : Heap) (gone lost : List Ptr) (es : List Event) : Prop where
  nodes : (gone ++ lost).Perm t.toList
  log : heap'.log = gone.flatMap (released rbt freeKey) ++ es ++
    if lost = [] then [.free .rbt addr] else []
  size : rbt'.size = lost.length
  freed : QueuesFreed answers heap'.requests es
  needed : lost = [] ↔ ∀ i < teardownRequests t, answers i ≠ none
  made : lost = [] ↔ ∀ i < heap'.requests, answers i ≠ none

/-- Every teardown ends, and its status is `SMP_OK`. -/
theorem smpRbtDestory_finished (hs : Sound answers) (hrep : Rep rbt t)
    (hsize : rbt.size = t.toList.length) (addr : Nat) (freeKey : KeyFree) (mem : Nat → QNode) :
    ∃ rbt' heap' gone lost es,
      (∃ enough, ∀ fuel, enough ≤ fuel →
        smpRbtDestory answers addr freeKey fuel rbt ⟨mem, 0, []⟩ = .ok (.ok, rbt', heap')) ∧
      Finished answers addr freeKey rbt t rbt' heap' gone lost es := by
  rcases @smpRbtClean_cleaned answers rbt freeKey t hs hrep hsize mem with
    ⟨enough, st, rbt', heap', gone, lost, es, hclean, hcleaned⟩
  have hrun : smpRbtDestory answers addr freeKey enough rbt ⟨mem, 0, []⟩ =
      .ok (.ok, rbt', (smpRbtFree addr rbt' heap').2) := by
    rw [smpRbtDestory, hclean]
    rfl
  refine ⟨rbt', _, gone, lost, es, ⟨enough, fun fuel hfuel => smpRbtDestory_mono hfuel hrun⟩, ?_⟩
  have hfree : (smpRbtFree addr rbt' heap').2.requests = heap'.requests ∧
      (smpRbtFree addr rbt' heap').2.log =
        heap'.log ++ if lost = [] then [.free .rbt addr] else [] := by
    by_cases hlost : lost = []
    · have hzero : ¬ rbt'.size > 0 := by simp [hcleaned.size, hlost]
      simp [smpRbtFree, RbTree.smpRbtSize, hzero, hlost]
    · have hpos : rbt'.size > 0 := hcleaned.size ▸ List.length_pos_iff.mpr hlost
      simp [smpRbtFree, RbTree.smpRbtSize, hpos, hlost]
  constructor
  case nodes => exact hcleaned.nodes
  case log => rw [hfree.2, hcleaned.log]
  case size => exact hcleaned.size
  case freed => rw [hfree.1]; exact hcleaned.freed
  case needed => exact hcleaned.needed
  case made => rw [hfree.1]; exact hcleaned.made

end Teardown
end Smpcil
