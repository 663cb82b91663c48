import Smpcil.Teardown.Model
import Smpcil.Queue.Refinement
import Smpcil.Foundations.BreadthFirst

/-!
# The cells of a teardown

Where the cells of the two queues are while the walk goes on, and what entering a subtree
does to them when the request of a new cell is granted or refused.

Main results:

- Definition {lit}`Cells`: every cell is in the hand of the walk or in one queue.
- Theorems {lit}`Cells.enterKept`, {lit}`Cells.enterNew` and {lit}`Cells.enterLost`: a subtree
  enters with a kept cell, with a new one, or not at all.
- Theorem {lit}`Cells.finish`: a cell that has done its work goes to the second queue, and the
  next one is taken from the first.
-/

namespace Smpcil
namespace Teardown

open RbTree (Ptr Rbt)
open Queue

/-! ## Requests -/

/-- The contract of `malloc` over the requests of a teardown, all of which are made before any
of the memory they were granted is freed: different addresses in the address space. -/
structure Sound (answers : Answers) : Prop where
  nonzero : ∀ {i a}, answers i = some a → a ≠ 0
  bounded : ∀ {i a}, answers i = some a → a < 2 ^ 64
  fresh : ∀ {i j a}, answers i = some a → answers j = some a → i = j

/-- The cells granted to {lit}`n` requests behind the two of the queues. -/
def cellsOf (answers : Answers) (n : Nat) : List Nat :=
  (List.range n).filterMap fun i => answers (i + 2)

variable {answers : Answers} {s s' : State} {hand bs is : List Nat} {n c qnode : Nat}

theorem cellsOf_succ (answers : Answers) (n : Nat) :
    cellsOf answers (n + 1) = cellsOf answers n ++ (answers (n + 2)).toList := by
  rw [cellsOf, List.range_succ, List.filterMap_append]
  cases h : answers (n + 2) <;> simp [cellsOf, h]

namespace Sound

theorem mem_cellsOf (hs : Sound answers) (hc : c ∈ cellsOf answers n) : c ≠ 0 ∧ c < 2 ^ 64 := by
  rcases List.mem_filterMap.mp hc with ⟨i, -, hi⟩
  exact ⟨hs.nonzero hi, hs.bounded hi⟩

/-- A new cell is none of the cells so far. -/
theorem notMem_cellsOf (hs : Sound answers) (hc : answers (n + 2) = some c) :
    c ∉ cellsOf answers n := by
  intro hmem
  rcases List.mem_filterMap.mp hmem with ⟨i, hi, hic⟩
  have heq := hs.fresh hic hc
  rw [List.mem_range] at hi
  omega

/-- All cells are different. -/
theorem cellsOf_nodup (hs : Sound answers) (n : Nat) : (cellsOf answers n).Nodup := by
  refine List.Nodup.filterMap ?_ List.nodup_range
  intro i j a hi hj
  have heq := hs.fresh hi hj
  omega

end Sound

/-! ## The invariant -/

/-- The cells requested so far are those in the hand of the walk, those of the first queue
and those of the second one. -/
structure Cells (answers : Answers) (s : State) (hand bs is : List Nat) : Prop where
  busy : Fifo s.heap s.busy bs
  idle : Fifo s.heap s.idle is
  requests : ∃ n, s.heap.requests = n + 2 ∧ (hand ++ bs ++ is).Perm (cellsOf answers n)
  freeQdata : ∀ c ∈ hand ++ bs ++ is, (s.heap.qnode c).freeQdata = NULL

namespace Cells

theorem nodup (h : Cells answers s hand bs is) (hs : Sound answers) :
    (hand ++ bs ++ is).Nodup := by
  rcases h.requests with ⟨n, -, hperm⟩
  exact hperm.nodup_iff.mpr (hs.cellsOf_nodup n)

theorem cell (h : Cells answers s hand bs is) (hs : Sound answers) (hc : c ∈ hand ++ bs ++ is) :
    c ≠ 0 ∧ c < 2 ^ 64 := by
  rcases h.requests with ⟨n, -, hperm⟩
  exact hs.mem_cellsOf (hperm.mem_iff.mp hc)

/-- The three places of a cell exclude each other. -/
theorem disjoint (h : Cells answers s hand bs is) (hs : Sound answers) :
    (∀ c ∈ hand, c ∉ bs) ∧ (∀ c ∈ hand, c ∉ is) ∧ ∀ c ∈ bs, c ∉ is := by
  have hnodup := h.nodup hs
  rw [List.nodup_append, List.nodup_append] at hnodup
  rcases hnodup with ⟨⟨-, -, hhb⟩, -, hrest⟩
  refine ⟨?_, ?_, ?_⟩
  · exact fun c hc hmem => hhb c hc c hmem rfl
  · exact fun c hc hmem => hrest c (List.mem_append_left _ hc) c hmem rfl
  · exact fun c hc hmem => hrest c (List.mem_append_right _ hc) c hmem rfl

end Cells

/-! ## Entering -/

/-- What entering a subtree leaves alone. -/
structure SameWork (s s' : State) : Prop where
  rbt : s'.rbt = s.rbt
  log : s'.heap.log = s.heap.log
  busy : SameQueue s.busy s'.busy
  idle : SameQueue s.idle s'.idle

/-- A cell that waits for {lit}`rnode` behind the others. -/
structure Waits (s s' : State) (hand bs : List Nat) (rnode : Ptr) (c : Nat) : Prop where
  data : (s'.heap.qnode c).data = toVoid rnode
  others : ∀ b ∈ hand ++ bs, (s'.heap.qnode b).data = (s.heap.qnode b).data

/-- The end of entering: the cell {lit}`c`, which is in no queue, becomes the last one that
waits. -/
theorem Cells.enterCell (hs : Sound answers) {heap : Heap} {busy idle : SmpQueue}
    (hbusy : Fifo heap busy bs) (hidle : Fifo heap idle is)
    (hrequests : ∃ n, heap.requests = n + 2 ∧ (hand ++ (bs ++ [c]) ++ is).Perm (cellsOf answers n))
    (hfree : ∀ x ∈ hand ++ (bs ++ [c]) ++ is, (heap.qnode x).freeQdata = NULL) (rbt : Rbt) :
    ∃ heap' busy', smpQenter heap busy c = (.ok, heap', busy') ∧
      Cells answers ⟨rbt, heap', busy', idle⟩ hand (bs ++ [c]) is ∧
      Moved heap heap' busy busy' (bs ++ [c]) := by
  rcases hrequests with ⟨n, hn, hperm⟩
  have hnodup := hperm.nodup_iff.mpr (hs.cellsOf_nodup n)
  rw [List.nodup_append, List.nodup_append, List.nodup_append] at hnodup
  rcases hnodup with ⟨⟨-, ⟨-, -, hbc⟩, -⟩, -, hrest⟩
  have hcell := hs.mem_cellsOf (hperm.mem_iff.mp (show c ∈ hand ++ (bs ++ [c]) ++ is by simp))
  have hout : c ∉ bs := fun hmem => hbc c hmem c (List.mem_singleton_self c) rfl
  rcases hbusy.enter hcell.1 hcell.2 hout with ⟨heap', busy', hrun, hbusy', hmoved⟩
  refine ⟨heap', busy', hrun, ⟨hbusy', ?_, ⟨n, ?_, hperm⟩, ?_⟩, hmoved⟩
  · refine hidle.congr (hmoved.sameLinks fun x hx hmem => ?_)
    exact hrest x (List.mem_append_right _ hmem) x hx rfl
  · exact hmoved.requests.trans hn
  · intro x hx
    exact (hmoved.freeQdata x).trans (hfree x hx)

/-- A subtree enters with a kept cell. -/
theorem Cells.enterKept (h : Cells answers s hand bs (c :: is)) (hs : Sound answers)
    (rnode : Ptr) : ∃ st s', smpRnodeEnterQueue answers s rnode = (st, s') ∧ SameWork s s' ∧
      Cells answers s' hand (bs ++ [c]) is ∧ Waits s s' hand bs rnode c ∧
      s'.heap.requests = s.heap.requests := by
  rcases h.idle.remove with ⟨heap₁, idle₁, hremove, hidle₁, hmoved₁⟩
  rcases h.disjoint hs with ⟨-, hhi, hbi⟩
  have hnodup := List.nodup_cons.mp h.idle.nodup
  have hc : c ≠ 0 := h.idle.ne_zero List.mem_cons_self
  have hlinks : ∀ ns, SameLinks heap₁ (heap₁.setData c (toVoid rnode)) ns := fun ns n _ => by simp
  have hbusy : Fifo (heap₁.setData c (toVoid rnode)) s.busy bs :=
    (h.busy.congr (hmoved₁.sameLinks hbi)).congr (hlinks bs)
  rcases h.requests with ⟨n, hn, hperm⟩
  have hfree : ∀ x ∈ hand ++ (bs ++ [c]) ++ is,
      ((heap₁.setData c (toVoid rnode)).qnode x).freeQdata = NULL := by
    intro x hx
    rw [Heap.setData_freeQdata, hmoved₁.freeQdata x]
    exact h.freeQdata x (by simpa using hx)
  have hrequests : ∃ n, (heap₁.setData c (toVoid rnode)).requests = n + 2 ∧
      (hand ++ (bs ++ [c]) ++ is).Perm (cellsOf answers n) :=
    ⟨n, by simpa [hmoved₁.requests] using hn, by simpa using hperm⟩
  rcases Cells.enterCell hs hbusy (hidle₁.congr (hlinks is)) hrequests hfree s.rbt with
    ⟨heap', busy', henter, hcells, hmoved⟩
  have hrun : smpRnodeEnterQueue answers s rnode = (.ok, ⟨s.rbt, heap', busy', idle₁⟩) := by
    simp only [smpRnodeEnterQueue, hremove, if_neg hc, henter]
  refine ⟨_, _, hrun, ⟨rfl, ?_, hmoved.sameQueue, hmoved₁.sameQueue⟩, hcells, ⟨?_, ?_⟩, ?_⟩
  · exact hmoved.log.trans hmoved₁.log
  · rw [hmoved.data c]
    simp
  · intro b hb
    have hbc : b ≠ c := by
      rintro rfl
      rcases List.mem_append.mp hb with hb | hb
      · exact hhi b hb List.mem_cons_self
      · exact hbi b hb List.mem_cons_self
    rw [hmoved.data b, Heap.setData_data, if_neg hbc, hmoved₁.data b]
  · exact hmoved.requests.trans hmoved₁.requests

/-- A subtree enters with a new cell. -/
theorem Cells.enterNew (h : Cells answers s hand bs []) (hs : Sound answers)
    (hc : answers s.heap.requests = some c) (rnode : Ptr) :
    ∃ st s', smpRnodeEnterQueue answers s rnode = (st, s') ∧ SameWork s s' ∧
      Cells answers s' hand (bs ++ [c]) [] ∧ Waits s s' hand bs rnode c ∧
      s'.heap.requests = s.heap.requests + 1 := by
  rcases h.requests with ⟨n, hn, hperm⟩
  rw [List.append_nil] at hperm
  have hnew : c ∉ cellsOf answers n := hs.notMem_cellsOf (hn ▸ hc)
  have hne : ∀ x ∈ hand ++ bs, x ≠ c := fun x hx heq => hnew (heq ▸ hperm.mem_iff.mp hx)
  have hbusy : Fifo { s.heap with
      requests := s.heap.requests + 1
      qnode := Function.update s.heap.qnode c ⟨0, 0, toVoid rnode, NULL⟩ } s.busy bs := by
    refine h.busy.congr fun x hx => ?_
    simp [hne x (List.mem_append_right _ hx)]
  have hidle : Fifo { s.heap with
      requests := s.heap.requests + 1
      qnode := Function.update s.heap.qnode c ⟨0, 0, toVoid rnode, NULL⟩ } s.idle [] :=
    h.idle.congr fun x hx => by simp at hx
  have hcellsOf : cellsOf answers (n + 1) = cellsOf answers n ++ [c] := by
    rw [cellsOf_succ, ← hn, hc]
    rfl
  have hrequests : ∃ m, s.heap.requests + 1 = m + 2 ∧
      (hand ++ (bs ++ [c]) ++ []).Perm (cellsOf answers m) := by
    refine ⟨n + 1, by rw [hn], ?_⟩
    rw [hcellsOf, List.append_nil, ← List.append_assoc]
    exact List.Perm.append_right _ hperm
  have hfree : ∀ x ∈ hand ++ (bs ++ [c]) ++ [],
      (Function.update s.heap.qnode c ⟨0, 0, toVoid rnode, NULL⟩ x).freeQdata = NULL := by
    intro x hx
    by_cases heq : x = c
    · simp [heq]
    · have hx' : x ∈ hand ++ bs ++ [] := by simpa [heq] using hx
      simpa [heq] using h.freeQdata x hx'
  rcases Cells.enterCell hs hbusy hidle hrequests hfree s.rbt with
    ⟨heap', busy', henter, hcells, hmoved⟩
  have hremove := h.idle.remove_nil
  have hrun : smpRnodeEnterQueue answers s rnode = (.ok, ⟨s.rbt, heap', busy', s.idle⟩) := by
    simp only [smpRnodeEnterQueue, hremove, if_true,
      smpQnodeCreate_granted _ _ hc (hs.nonzero hc), henter]
  refine ⟨_, _, hrun, ⟨rfl, hmoved.log, hmoved.sameQueue, .refl _⟩, hcells, ⟨?_, ?_⟩, ?_⟩
  · rw [hmoved.data c]
    simp
  · intro b hb
    rw [hmoved.data b]
    simp [hne b hb]
  · exact hmoved.requests

/-- Without a kept cell and a new one a subtree is lost. -/
theorem Cells.enterLost (h : Cells answers s hand bs [])
    (hc : answers s.heap.requests = none) (rnode : Ptr) :
    ∃ st s', smpRnodeEnterQueue answers s rnode = (st, s') ∧ SameWork s s' ∧
      Cells answers s' hand bs [] ∧ s'.heap.qnode = s.heap.qnode ∧
      s'.heap.requests = s.heap.requests + 1 := by
  rcases h.requests with ⟨n, hn, hperm⟩
  have hremove := h.idle.remove_nil
  have hrun : smpRnodeEnterQueue answers s rnode =
      (.failure, { s with heap := { s.heap with requests := s.heap.requests + 1 } }) := by
    simp only [smpRnodeEnterQueue, hremove, if_true, smpQnodeCreate_refused _ _ hc, smpQenter]
  have hcells : cellsOf answers (n + 1) = cellsOf answers n := by
    rw [cellsOf_succ, ← hn, hc]
    simp
  refine ⟨_, _, hrun, ⟨rfl, rfl, .refl _, .refl _⟩, ⟨?_, ?_, ⟨n + 1, by simp [hn], ?_⟩, ?_⟩,
    rfl, rfl⟩
  · exact h.busy.congr fun x hx => ⟨rfl, rfl⟩
  · exact h.idle.congr fun x hx => ⟨rfl, rfl⟩
  · rw [hcells]
    exact hperm
  · exact h.freeQdata

/-! ## The end of a pass -/

/-- A cell that has done its work is kept, and the next one is taken from the first queue, if
there is one. -/
theorem Cells.finish (h : Cells answers s [qnode] bs is) (hs : Sound answers) (rbt : Rbt)
    (log : List Event) : ∃ heap₁ idle heap₂ busy qnode',
      smpQenter ({ s.heap with log := log }.setData qnode NULL) s.idle qnode =
        (.ok, heap₁, idle) ∧
      smpQnodeRemove heap₁ s.busy = (qnode', heap₂, busy) ∧
      (bs = [] ∧ qnode' = 0 ∧ Cells answers ⟨rbt, heap₂, busy, idle⟩ [] [] (is ++ [qnode]) ∨
        ∃ bs', bs = qnode' :: bs' ∧ qnode' ≠ 0 ∧
          Cells answers ⟨rbt, heap₂, busy, idle⟩ [qnode'] bs' (is ++ [qnode])) ∧
      heap₂.log = log ∧ heap₂.requests = s.heap.requests ∧ SameQueue s.busy busy ∧
      SameQueue s.idle idle ∧ ∀ b ∈ bs, (heap₂.qnode b).data = (s.heap.qnode b).data := by
  rcases h.disjoint hs with ⟨hhb, hhi, hbi⟩
  have hq := h.cell hs (show qnode ∈ [qnode] ++ bs ++ is by simp)
  have hlinks : ∀ ns, SameLinks s.heap ({ s.heap with log := log }.setData qnode NULL) ns :=
    fun ns n _ => by simp
  have hqi : qnode ∉ is := hhi qnode (List.mem_singleton_self _)
  have hqb : qnode ∉ bs := hhb qnode (List.mem_singleton_self _)
  rcases (h.idle.congr (hlinks is)).enter hq.1 hq.2 hqi with ⟨heap₁, idle, henter, hidle₁, hmoved₁⟩
  have hbusy₁ : Fifo heap₁ s.busy bs := by
    refine (h.busy.congr (hlinks bs)).congr (hmoved₁.sameLinks fun x hx hmem => ?_)
    rcases List.mem_append.mp hmem with hmem | hmem
    · exact hbi x hx hmem
    · exact hqb (List.mem_singleton.mp hmem ▸ hx)
  have hdata₁ : ∀ b ∈ bs, (heap₁.qnode b).data = (s.heap.qnode b).data := by
    intro b hb
    have hne : b ≠ qnode := fun heq => hqb (heq ▸ hb)
    rw [hmoved₁.data b]
    simp [hne]
  have hfree₁ : ∀ x, (heap₁.qnode x).freeQdata = (s.heap.qnode x).freeQdata := by
    intro x
    rw [hmoved₁.freeQdata x]
    simp
  have hlog₁ : heap₁.log = log := hmoved₁.log
  have hreq₁ : heap₁.requests = s.heap.requests := hmoved₁.requests
  rcases h.requests with ⟨n, hn, hperm⟩
  cases bs with
  | nil =>
      have hperm' : ([] ++ [] ++ (is ++ [qnode])).Perm (cellsOf answers n) :=
        (List.perm_append_singleton qnode is).trans hperm
      refine ⟨heap₁, idle, heap₁, s.busy, 0, henter, hbusy₁.remove_nil, Or.inl ⟨rfl, rfl, ?_⟩,
        hlog₁, hreq₁, .refl _, hmoved₁.sameQueue, hdata₁⟩
      refine ⟨hbusy₁, hidle₁, ⟨n, hreq₁.trans hn, hperm'⟩, ?_⟩
      intro x hx
      rw [hfree₁]
      exact h.freeQdata x ((List.perm_append_singleton qnode is).mem_iff.mp hx)
  | cons b bs =>
      rcases hbusy₁.remove with ⟨heap₂, busy, hremove, hbusy₂, hmoved₂⟩
      have hperm' : ([b] ++ bs ++ (is ++ [qnode])).Perm ([qnode] ++ (b :: bs) ++ is) := by
        rw [← List.append_assoc]
        exact List.perm_append_singleton qnode _
      refine ⟨heap₁, idle, heap₂, busy, b, henter, hremove, Or.inr ⟨bs, rfl, ?_, ?_⟩,
        hmoved₂.log.trans hlog₁, hmoved₂.requests.trans hreq₁, hmoved₂.sameQueue,
        hmoved₁.sameQueue, fun x hx => (hmoved₂.data x).trans (hdata₁ x hx)⟩
      · exact h.busy.ne_zero List.mem_cons_self
      · refine ⟨hbusy₂, ?_, ⟨n, (hmoved₂.requests.trans hreq₁).trans hn, hperm'.trans hperm⟩, ?_⟩
        · refine hidle₁.congr (hmoved₂.sameLinks fun x hx hmem => ?_)
          rcases List.mem_append.mp hx with hx | hx
          · exact hbi x hmem hx
          · exact hqb (List.mem_singleton.mp hx ▸ hmem)
        · intro x hx
          rw [hmoved₂.freeQdata x, hfree₁]
          exact h.freeQdata x (hperm'.mem_iff.mp hx)

end Teardown
end Smpcil
