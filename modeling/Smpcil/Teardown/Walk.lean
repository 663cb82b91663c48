import Smpcil.Teardown.Entering

/-!
# The walk of a teardown

The loop of `smp_do_rbt_clean`, for all answers of `malloc`.

Main results:

- Definition {lit}`Walk`: the trees that wait, the nodes that are gone and the nodes that are
  lost make up the whole tree.
- Theorem {lit}`Walk.pass`: one pass frees one node.
- Theorem {lit}`Walk.run`: the loop ends when no tree waits.
-/

namespace Smpcil
namespace Teardown

open RedBlack
open RbTree (Ptr Rbt RbtNode rootPtr Linked)
open Queue
open Loops (Pass loop loop_spec)

/-! ## Nodes that are freed -/

/-- What the log shows for a node that is freed: the key, if there is one, and the node. -/
def released (rbt : Rbt) (freeKey : KeyFree) (p : Ptr) : List Event :=
  (if rbt.key p ≠ NULL then [.freeData freeKey.addr (rbt.key p)] else []) ++
    [.free .rnode (toVoid p)]

variable {answers : Answers} {rbt₀ rbt : Rbt} {freeKey : KeyFree} {t : Tree Ptr} {N qnode : Nat}
  {s s' : State} {bs is : List Nat} {ts : List (Tree Ptr)} {gone lost : List Ptr} {p x : Ptr}

theorem mem_released : .free .rnode (toVoid p) ∈ released rbt freeKey x ↔ p = x := by
  unfold released
  by_cases hkey : rbt.key x = NULL <;> simp [hkey, toVoid_injective.eq_iff]

/-- The log shows which nodes are gone. -/
theorem mem_flatMap_released :
    .free .rnode (toVoid p) ∈ gone.flatMap (released rbt freeKey) ↔ p ∈ gone := by
  simp only [List.mem_flatMap, mem_released, exists_eq_right']

@[simp]
theorem clearNode_key : (clearNode rbt x).key p = rbt.key p := by
  by_cases h : p = x <;> simp [clearNode, Rbt.store, Rbt.key, h]

theorem clearNode_mem (h : p ≠ x) : (clearNode rbt x).mem p = rbt.mem p := by
  simp [clearNode, Rbt.store, h]

/-- A node is freed with its key. -/
theorem smpRnodeDestory_eq {heap : Heap} (hne : x ≠ .null)
    (htouch : .free .rnode (toVoid x) ∉ heap.log) :
    smpRnodeDestory rbt freeKey heap x =
      .ok { heap with log := heap.log ++ released rbt freeKey x } := by
  by_cases hkey : rbt.key x = NULL
  · simp [smpRnodeDestory, hne, touchNode, htouch, hkey, released, Heap.record]
  · simp [smpRnodeDestory, hne, touchNode, htouch, hkey, released, Heap.record]

/-! ## The invariant -/

/-- The hand of the walk. -/
def handOf (qnode : Nat) : List Nat := if qnode = 0 then [] else [qnode]

/-- What holds before a pass over the tree {lit}`t` of {lit}`rbt₀`.  The walk has freed the
nodes {lit}`gone`, the trees {lit}`ts` wait for it, and the nodes {lit}`lost` have got no cell.
{lit}`N` requests are made if none is refused. -/
structure Walk (answers : Answers) (rbt₀ : Rbt) (freeKey : KeyFree) (t : Tree Ptr) (N : Nat)
    (qnode : Nat) (s : State) (bs is : List Nat) (ts : List (Tree Ptr)) (gone lost : List Ptr) :
    Prop where
  forest : Forest answers s (handOf qnode) bs is ts
  ending : qnode = 0 → ts = []
  linked : ∀ u ∈ ts, u ≠ .leaf ∧ ∃ par, Linked rbt₀ par u
  mem : ∀ p, p ∉ gone → s.rbt.mem p = rbt₀.mem p
  key : ∀ p, s.rbt.key p = rbt₀.key p
  root : s.rbt.root = rbt₀.root
  nodes : (gone ++ nodesOf ts ++ lost).Perm t.toList
  log : s.heap.log = gone.flatMap (released rbt₀ freeKey)
  size : s.rbt.size + gone.length = t.toList.length
  budget : (lost = [] ∧ (∀ i < s.heap.requests, answers i ≠ none) ∧
      s.heap.requests + newCells ts is.length = N) ∨
    lost ≠ [] ∧ ∃ i < N, i < s.heap.requests ∧ answers i = none

namespace Walk

/-- A node that waits is not gone. -/
theorem notMem_gone (h : Walk answers rbt₀ freeKey t N qnode s bs is ts gone lost)
    (hnodup : t.toList.Nodup) (hp : p ∈ nodesOf ts) : p ∉ gone := by
  have hsplit := h.nodes.nodup_iff.mpr hnodup
  rw [List.append_assoc, List.nodup_append] at hsplit
  exact fun hmem => hsplit.2.2 p hmem p (List.mem_append_left _ hp) rfl

/-- A node that waits is not freed. -/
theorem notMem_log (h : Walk answers rbt₀ freeKey t N qnode s bs is ts gone lost)
    (hnodup : t.toList.Nodup) (hp : p ∈ nodesOf ts) : .free .rnode (toVoid p) ∉ s.heap.log := by
  rw [h.log, mem_flatMap_released]
  exact h.notMem_gone hnodup hp

/-- The nodes of a tree that waits are linked as at the start. -/
theorem linked_now (h : Walk answers rbt₀ freeKey t N qnode s bs is ts gone lost)
    (hnodup : t.toList.Nodup) {u : Tree Ptr} (hu : u ∈ ts) {par : Ptr}
    (hlinked : Linked rbt₀ par u) :
    Linked s.rbt par u := by
  refine hlinked.congr fun q hq => ?_
  have hout := h.notMem_gone hnodup (List.mem_flatMap.mpr ⟨u, hu, hq⟩)
  simp [RbTree.SameLinks, Rbt.color, Rbt.parent, Rbt.child, h.mem q hout]

/-- The last step of the budget: what is requested for the children of a node. -/
theorem budget_step {c : Color} {l r : Tree Ptr} {es lostTrees : List (Tree Ptr)} {is' : List Nat}
    {s₂ : State}
    (hbudget : (lost = [] ∧ (∀ i < s.heap.requests, answers i ≠ none) ∧
        s.heap.requests + newCells (.node c l x r :: ts) is.length = N) ∨
      lost ≠ [] ∧ ∃ i < N, i < s.heap.requests ∧ answers i = none)
    (hentered : Entered answers s s₂ is is' (Tree.node c l x r).children es lostTrees)
    (hlost : lostTrees = [] ↔ nodesOf lostTrees = []) :
    (lost ++ nodesOf lostTrees = [] ∧ (∀ i < s₂.heap.requests, answers i ≠ none) ∧
        s₂.heap.requests + newCells (ts ++ es) (is'.length + 1) = N) ∨
      lost ++ nodesOf lostTrees ≠ [] ∧ ∃ i < N, i < s₂.heap.requests ∧ answers i = none := by
  have hreq := hentered.requests
  rcases hbudget with ⟨rfl, hgranted, hcount⟩ | ⟨hne, i, hi, hmade, hrefused⟩
  · rw [newCells_cons] at hcount
    by_cases hnone : lostTrees = []
    · left
      have hnew := hentered.granted.mp hnone
      refine ⟨by simp [hnone], fun i hi => ?_, ?_⟩
      · by_cases hold : i < s.heap.requests
        · exact hgranted i hold
        · exact hnew i (Nat.le_of_not_lt hold) hi
      · rw [hentered.all hnone, hentered.idle, hreq]
        omega
    · right
      refine ⟨by simpa [hlost] using hnone, ?_⟩
      have hexists := mt hentered.granted.mpr hnone
      simp only [not_forall, not_not] at hexists
      rcases hexists with ⟨i, hlo, hhi, hi⟩
      exact ⟨i, by omega, hhi, hi⟩
  · exact Or.inr ⟨by simp [hne], i, hi, by omega, hrefused⟩

/-- The trees that wait, if there is a cell in the hand of the walk. -/
theorem exists_cons (h : Walk answers rbt₀ freeKey t N qnode s bs is ts gone lost)
    (hne : qnode ≠ 0) : ∃ c l x r ts' par, ts = Tree.node c l x r :: ts' ∧
      (s.heap.qnode qnode).data = toVoid x ∧ Linked rbt₀ par (.node c l x r) := by
  have hdata := h.forest.data
  rw [handOf, if_neg hne] at hdata
  cases ts with
  | nil => simp at hdata
  | cons u ts' =>
      rcases h.linked u List.mem_cons_self with ⟨hleaf, par, hlinked⟩
      cases u with
      | leaf => exact absurd rfl hleaf
      | node c l x r =>
          simp only [List.singleton_append, List.map_cons, List.cons.injEq] at hdata
          exact ⟨c, l, x, r, ts', par, rfl, hdata.1, hlinked⟩

/-- The children of a linked tree are linked. -/
theorem linked_children {c : Color} {l r : Tree Ptr} {par : Ptr}
    (hlinked : Linked rbt₀ par (.node c l x r)) {u : Tree Ptr}
    (hu : u ∈ (Tree.node c l x r).children) : u ≠ .leaf ∧ ∃ par, Linked rbt₀ par u := by
  rcases hlinked with ⟨-, -, -, -, -, hl, hr⟩
  rcases List.mem_append.mp hu with hu | hu
  · rcases ne_leaf_of_mem_kids hu with ⟨hne, rfl⟩
    exact ⟨hne, x, hl⟩
  · rcases ne_leaf_of_mem_kids hu with ⟨hne, rfl⟩
    exact ⟨hne, x, hr⟩

/-- One node is gone, its children wait or are lost. -/
theorem nodes_step {c : Color} {l r : Tree Ptr} {es lostTrees : List (Tree Ptr)}
    (hperm : (es ++ lostTrees).Perm (Tree.node c l x r).children)
    (hnodes : (gone ++ nodesOf (.node c l x r :: ts) ++ lost).Perm t.toList) :
    (gone ++ [x] ++ nodesOf (ts ++ es) ++ (lost ++ nodesOf lostTrees)).Perm t.toList := by
  refine List.Perm.trans ?_ hnodes
  rw [List.perm_iff_count]
  intro p
  have hstep := (nodesOf_step c l r x ts).count_eq p
  have hchildren := (nodesOf_perm hperm).count_eq p
  simp only [nodesOf_append, List.count_append, List.count_cons, List.count_nil]
    at hstep hchildren ⊢
  omega

/-- The trees that wait once the cell of the first one has done its work. -/
theorem forest_step {u : Tree Ptr} {heap : Heap} {busy idle : SmpQueue} {qnode' : Nat}
    (h : Forest answers s [qnode] bs is (u :: ts))
    (hplace : bs = [] ∧ qnode' = 0 ∧ Cells answers ⟨rbt, heap, busy, idle⟩ [] [] (is ++ [qnode]) ∨
      ∃ bs', bs = qnode' :: bs' ∧ qnode' ≠ 0 ∧
        Cells answers ⟨rbt, heap, busy, idle⟩ [qnode'] bs' (is ++ [qnode]))
    (hkept : ∀ b ∈ bs, (heap.qnode b).data = (s.heap.qnode b).data) :
    ∃ bs', Forest answers ⟨rbt, heap, busy, idle⟩ (handOf qnode') bs' (is ++ [qnode]) ts ∧
      (qnode' = 0 → ts = []) := by
  have hdata := h.data
  simp only [List.singleton_append, List.map_cons, List.cons.injEq] at hdata
  have hmap : bs.map (fun b => (heap.qnode b).data) = ts.map fun u => toVoid (rootPtr u) :=
    (List.map_congr_left hkept).trans hdata.2
  rcases hplace with ⟨rfl, rfl, hcells⟩ | ⟨bs', rfl, hne, hcells⟩
  · have hts : ts = [] := List.map_eq_nil_iff.mp hmap.symm
    exact ⟨[], ⟨hcells, hmap⟩, fun _ => hts⟩
  · refine ⟨bs', ⟨?_, ?_⟩, fun hzero => absurd hzero hne⟩
    · rwa [handOf, if_neg hne]
    · rw [handOf, if_neg hne]
      exact hmap

/-- One pass frees the node in the hand of the walk. -/
theorem pass (h : Walk answers rbt₀ freeKey t N qnode s bs is ts gone lost) (hs : Sound answers)
    (hnodup : t.toList.Nodup) (hne : qnode ≠ 0) :
    ∃ qnode' s' bs' is' ts' lost',
      doRbtCleanPass answers freeKey (qnode, s) = .ok (.again (qnode', s')) ∧
      Walk answers rbt₀ freeKey t N qnode' s' bs' is' ts'
        (gone ++ [ofVoid (s.heap.qnode qnode).data]) lost' ∧
      SameQueue s.busy s'.busy ∧ SameQueue s.idle s'.idle := by
  rcases h.exists_cons hne with ⟨c, l, x, r, ts', par, rfl, hdata, hlinked⟩
  rw [hdata, ofVoid_toVoid]
  have hnow := h.linked_now hnodup List.mem_cons_self hlinked
  have htouch := h.notMem_log hnodup (show x ∈ nodesOf _ by simp [Tree.toList])
  -- the children of the node enter
  have hforest : Forest answers { s with rbt := decSize s.rbt } [qnode] bs is
      (.node c l x r :: ts') := by
    have hold := h.forest
    rw [handOf, if_neg hne] at hold
    exact ⟨⟨hold.cells.busy, hold.cells.idle, hold.cells.requests, hold.cells.freeQdata⟩, hold.data⟩
  have hsame : ∀ q ∈ (Tree.node c l x r).toList, RbTree.SameLinks s.rbt (decSize s.rbt) q :=
    fun q _ => ⟨rfl, rfl, fun d => rfl⟩
  rcases hforest.children_entered hs htouch (hnow.congr hsame) with
    ⟨s₁, s₂, bs₂, is₂, es, lostTrees, hrun₁, hrun₂, hentered, hforest₂⟩
  have hlog₂ : s₂.heap.log = s.heap.log := hentered.same.log
  have hrbt₂ : s₂.rbt = decSize s.rbt := hentered.same.rbt
  -- the node is freed
  have htouch₂ : .free .rnode (toVoid x) ∉ s₂.heap.log := hlog₂ ▸ htouch
  have hdestory := @smpRnodeDestory_eq (clearNode s₂.rbt x) freeKey x s₂.heap hnow.1.ne_null htouch₂
  -- its cell is kept, and the next one is taken
  rcases hforest₂.cells.finish hs (clearNode s₂.rbt x)
    (s₂.heap.log ++ released (clearNode s₂.rbt x) freeKey x) with
    ⟨heap₁, idle, heap₂, busy, qnode', henter, hremove, hplace, hlog, hreq, hbusy, hidle, hkept⟩
  have hrun : doRbtCleanPass answers freeKey (qnode, s) =
      .ok (.again (qnode', ⟨clearNode s₂.rbt x, heap₂, busy, idle⟩)) := by
    simp only [doRbtCleanPass, if_pos hne, hdata, ofVoid_toVoid, hrun₁, hrun₂, Exec.ok_bind,
      touchNode, if_neg htouch₂, hdestory, henter, hremove, Exec.pure_eq]
  rcases forest_step hforest₂ hplace hkept with ⟨bs', hforest', hending⟩
  have hnodes := nodes_step hentered.perm h.nodes
  refine ⟨qnode', _, bs', is₂ ++ [qnode], ts' ++ es, lost ++ nodesOf lostTrees, hrun, ?_,
    hentered.same.busy.trans hbusy, hentered.same.idle.trans hidle⟩
  constructor
  case forest => exact hforest'
  case ending => exact hending
  case linked =>
    intro u hu
    rcases List.mem_append.mp hu with hu | hu
    · exact h.linked u (List.mem_cons_of_mem _ hu)
    · exact linked_children hlinked (hentered.perm.mem_iff.mp (List.mem_append_left _ hu))
  case mem =>
    intro p hp
    simp only [List.mem_append, List.mem_singleton, not_or] at hp
    rw [clearNode_mem hp.2, hrbt₂]
    exact h.mem p hp.1
  case key =>
    intro p
    rw [clearNode_key, hrbt₂]
    exact h.key p
  case root =>
    show s₂.rbt.root = rbt₀.root
    rw [hrbt₂]
    exact h.root
  case nodes => exact hnodes
  case log =>
    have hkey : released (clearNode s₂.rbt x) freeKey x = released rbt₀ freeKey x := by
      have hk : (decSize s.rbt).key x = rbt₀.key x := h.key x
      simp only [released, clearNode_key, hrbt₂, hk]
    rw [hlog, hlog₂, h.log, hkey, List.flatMap_append, List.flatMap_singleton]
  case size =>
    have hpos : s.rbt.size ≠ 0 := by
      have hlen := h.nodes.length_eq
      have hsize := h.size
      simp [Tree.toList] at hlen
      omega
    have hsize : (clearNode s₂.rbt x).size = s.rbt.size - 1 := by
      show s₂.rbt.size = s.rbt.size - 1
      rw [hrbt₂, decSize]
      simp [hpos]
    have hold := h.size
    rw [hsize, List.length_append, List.length_singleton]
    omega
  case budget =>
    have hlost : ∀ u ∈ lostTrees, u ≠ .leaf := fun u hu =>
      (linked_children hlinked (hentered.perm.mem_iff.mp (List.mem_append_right _ hu))).1
    have hbudget := budget_step (s := { s with rbt := decSize s.rbt }) h.budget hentered
      (nodesOf_eq_nil hlost).symm
    rw [List.length_append, List.length_singleton, hreq]
    exact hbudget

/-- The loop ends when no tree waits. -/
theorem run (h : Walk answers rbt₀ freeKey t N qnode s bs is ts gone lost) (hs : Sound answers)
    (hnodup : t.toList.Nodup) {fuel : Nat} (hfuel : t.toList.length < fuel) :
    ∃ s' is' gone' lost', loop .diverged (doRbtCleanPass answers freeKey) fuel (qnode, s) = .ok s' ∧
      Walk answers rbt₀ freeKey t N 0 s' [] is' [] gone' lost' ∧ SameQueue s.busy s'.busy ∧
      SameQueue s.idle s'.idle := by
  have hloop : ∃ s', loop .diverged (doRbtCleanPass answers freeKey) fuel (qnode, s) = .ok s' ∧
      ∃ bs' is' ts' gone' lost', Walk answers rbt₀ freeKey t N 0 s' bs' is' ts' gone' lost' ∧
        SameQueue s.busy s'.busy ∧ SameQueue s.idle s'.idle := by
    apply loop_spec (fun n (st : Nat × State) => ∃ bs' is' ts' gone' lost',
      Walk answers rbt₀ freeKey t N st.1 st.2 bs' is' ts' gone' lost' ∧
        gone'.length + n = t.toList.length ∧ SameQueue s.busy st.2.busy ∧
        SameQueue s.idle st.2.idle)
    · rintro n ⟨q, s₁⟩ ⟨bs₁, is₁, ts₁, gone₁, lost₁, hwalk, hn, hbusy, hidle⟩
      by_cases hq : q = 0
      · left
        subst hq
        exact ⟨s₁, by simp [doRbtCleanPass], _, _, _, _, _, hwalk, hbusy, hidle⟩
      · right
        rcases hwalk.pass hs hnodup hq with
          ⟨q₂, s₂, bs₂, is₂, ts₂, lost₂, hrun, hwalk₂, hbusy₂, hidle₂⟩
        have hlen := hwalk₂.nodes.length_eq
        simp only [List.length_append, List.length_singleton] at hlen hn
        refine ⟨(q₂, s₂), n - 1, hrun, ⟨_, _, _, _, _, hwalk₂, ?_, hbusy.trans hbusy₂,
          hidle.trans hidle₂⟩, ?_⟩
        · rw [List.length_append, List.length_singleton]
          omega
        · omega
    · have hlen := h.nodes.length_eq
      simp only [List.length_append] at hlen
      exact ⟨bs, is, ts, gone, lost, h, Nat.add_sub_cancel' (by omega), .refl _, .refl _⟩
    · omega
  rcases hloop with ⟨s', hrun, bs', is', ts', gone', lost', hwalk, hbusy, hidle⟩
  have hts : ts' = [] := hwalk.ending rfl
  subst hts
  have hbs : bs' = [] := List.map_eq_nil_iff.mp hwalk.forest.data
  subst hbs
  exact ⟨s', is', gone', lost', hrun, hwalk, hbusy, hidle⟩

end Walk

/-! ## The start -/

section Start

variable {heap : Heap} {busy idle : SmpQueue}

/-- Before the loop no node is gone. -/
theorem Walk.start (hforest : Forest answers s (handOf qnode) bs is ts)
    (hending : qnode = 0 → ts = [])
    (hlinked : ∀ u ∈ ts, u ≠ .leaf ∧ ∃ par, Linked s.rbt par u)
    (hnodes : (nodesOf ts ++ lost).Perm t.toList) (hlog : s.heap.log = [])
    (hsize : s.rbt.size = t.toList.length)
    (hbudget : (lost = [] ∧ (∀ i < s.heap.requests, answers i ≠ none) ∧
        s.heap.requests + newCells ts is.length = N) ∨
      lost ≠ [] ∧ ∃ i < N, i < s.heap.requests ∧ answers i = none) :
    Walk answers s.rbt freeKey t N qnode s bs is ts [] lost where
  forest := hforest
  ending := hending
  linked := hlinked
  mem := fun _ _ => rfl
  key := fun _ => rfl
  root := rfl
  nodes := hnodes
  log := hlog
  size := hsize
  budget := hbudget

/-- The cell of the root is refused. -/
theorem doRbtCleanStart_refused (hbusy : Fifo heap busy []) (hidle : Fifo heap idle [])
    (hreq : heap.requests = 2) (hanswer : answers 2 = none) :
    ∃ s, doRbtCleanStart answers ⟨rbt, heap, busy, idle⟩ = (0, s) ∧
      Forest answers s [] [] [] [] ∧ s.rbt = rbt ∧ s.heap.log = heap.log ∧
      s.heap.requests = 3 ∧ SameQueue busy s.busy ∧ SameQueue idle s.idle := by
  have hlinks : SameLinks heap { heap with requests := heap.requests + 1 } [] := by simp [SameLinks]
  have hcreate := smpQnodeCreate_refused NULL (toVoid rbt.root) (hreq ▸ hanswer)
  have hremove := (hbusy.congr hlinks).remove_nil
  have hrun : doRbtCleanStart answers ⟨rbt, heap, busy, idle⟩ =
      (0, ⟨rbt, { heap with requests := heap.requests + 1 }, busy, idle⟩) := by
    simp only [doRbtCleanStart, hcreate, smpQenter, if_true, hremove]
  have hcells : cellsOf answers 1 = [] := by simp [cellsOf, hanswer]
  refine ⟨_, hrun, ⟨⟨hbusy.congr hlinks, hidle.congr hlinks, ⟨1, ?_, ?_⟩, ?_⟩, rfl⟩, rfl, rfl,
    by simp [hreq], .refl _, .refl _⟩
  · simp [hreq]
  · simp [hcells]
  · simp

/-- The cell of the root goes through the first queue into the hand of the walk. -/
theorem doRbtCleanStart_granted (hs : Sound answers) (hbusy : Fifo heap busy [])
    (hidle : Fifo heap idle []) (hreq : heap.requests = 2) (hroot : rbt.root = rootPtr t) {c : Nat}
    (hanswer : answers 2 = some c) :
    ∃ s, doRbtCleanStart answers ⟨rbt, heap, busy, idle⟩ = (c, s) ∧
      Forest answers s [c] [] [] [t] ∧ s.rbt = rbt ∧ s.heap.log = heap.log ∧
      s.heap.requests = 3 ∧ SameQueue busy s.busy ∧ SameQueue idle s.idle := by
  have hcreate := smpQnodeCreate_granted NULL (toVoid rbt.root) (hreq ▸ hanswer)
    (hs.nonzero hanswer)
  have hcellsOf : cellsOf answers 1 = [c] := by simp [cellsOf, hanswer]
  have hlinks : SameLinks heap { heap with
      requests := heap.requests + 1
      qnode := Function.update heap.qnode c ⟨0, 0, toVoid rbt.root, NULL⟩ } [] := by
    simp [SameLinks]
  have hrequests : ∃ n, heap.requests + 1 = n + 2 ∧
      ([] ++ ([] ++ [c]) ++ []).Perm (cellsOf answers n) := ⟨1, by rw [hreq], by simp [hcellsOf]⟩
  rcases Cells.enterCell hs (hbusy.congr hlinks) (hidle.congr hlinks) hrequests (by simp) rbt with
    ⟨heap₁, busy₁, henter, hcells, hmoved₁⟩
  rcases hcells.busy.remove with ⟨heap₂, busy₂, hremove, hbusy₂, hmoved₂⟩
  have hrun : doRbtCleanStart answers ⟨rbt, heap, busy, idle⟩ = (c, ⟨rbt, heap₂, busy₂, idle⟩) := by
    simp only [doRbtCleanStart, hcreate, henter, hremove]
  have hidle₂ : Fifo heap₂ idle [] := hcells.idle.congr (hmoved₂.sameLinks (by simp))
  refine ⟨_, hrun, ⟨⟨hbusy₂, hidle₂, ⟨1, ?_, ?_⟩, ?_⟩, ?_⟩, rfl, ?_, ?_,
    hmoved₁.sameQueue.trans hmoved₂.sameQueue, .refl _⟩
  · rw [hmoved₂.requests, hmoved₁.requests, hreq]
  · simp [hcellsOf]
  · intro x hx
    rw [hmoved₂.freeQdata]
    exact hcells.freeQdata x hx
  · have hdata : (heap₂.qnode c).data = toVoid (rootPtr t) := by
      rw [hmoved₂.data, hmoved₁.data]
      simp [hroot]
    simpa using hdata
  · rw [hmoved₂.log, hmoved₁.log]
  · rw [hmoved₂.requests, hmoved₁.requests, hreq]

/-- Before the loop the root waits, or it has got no cell. -/
theorem walk_start (hs : Sound answers) (hrep : RbTree.Rep rbt t)
    (hsize : rbt.size = t.toList.length) (hne : t ≠ .leaf) (hbusy : Fifo heap busy [])
    (hidle : Fifo heap idle []) (hreq : heap.requests = 2) (hlog : heap.log = [])
    (hqueues : answers 0 ≠ none ∧ answers 1 ≠ none) :
    ∃ qnode s bs is ts lost, doRbtCleanStart answers ⟨rbt, heap, busy, idle⟩ = (qnode, s) ∧
      Walk answers rbt freeKey t (3 + newCells [t] 0) qnode s bs is ts [] lost ∧
      SameQueue busy s.busy ∧ SameQueue idle s.idle := by
  cases hanswer : answers 2 with
  | none =>
      rcases @doRbtCleanStart_refused answers rbt heap busy idle hbusy hidle hreq hanswer with
        ⟨s, hrun, hforest, rfl, hlog', hreq', hbusy', hidle'⟩
      have hlost : t.toList ≠ [] := by simpa using mt (@nodesOf_eq_nil _ [t] (by simpa)).mp
      have hbudget : t.toList ≠ [] ∧
          ∃ i < 3 + newCells [t] 0, i < s.heap.requests ∧ answers i = none :=
        ⟨hlost, 2, by omega, by omega, hanswer⟩
      refine ⟨0, s, [], [], [], t.toList, hrun, ?_, hbusy', hidle'⟩
      exact Walk.start hforest (fun _ => rfl) (by simp) (by simp) (hlog'.trans hlog) hsize
        (Or.inr hbudget)
  | some c =>
      rcases doRbtCleanStart_granted hs hbusy hidle hreq hrep.root hanswer with
        ⟨s, hrun, hforest, rfl, hlog', hreq', hbusy', hidle'⟩
      have hc : c ≠ 0 := hs.nonzero hanswer
      have hgranted : ∀ i < s.heap.requests, answers i ≠ none := by
        intro i hi
        rw [hreq'] at hi
        have hcases : i = 0 ∨ i = 1 ∨ i = 2 := by omega
        rcases hcases with rfl | rfl | rfl
        · exact hqueues.1
        · exact hqueues.2
        · simp [hanswer]
      refine ⟨c, s, [], [], [t], [], hrun, ?_, hbusy', hidle'⟩
      refine Walk.start ?_ (fun hzero => absurd hzero hc) ?_ (by simp) (hlog'.trans hlog) hsize
        (Or.inl ⟨rfl, hgranted, by rw [hreq', List.length_nil]⟩)
      · rwa [handOf, if_neg hc]
      · intro u hu
        rw [List.mem_singleton.mp hu]
        exact ⟨hne, _, hrep.linked⟩

end Start

end Teardown
end Smpcil
