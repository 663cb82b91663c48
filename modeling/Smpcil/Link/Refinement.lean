import Smpcil.Link.Layout

/-!
# The link as a list

What the operations of a link do to the list of its elements, over all runs.

Main results:

- Definition {lit}`Op.Effect`: the operations on lists.
- Theorem {lit}`Op.run_spec`: every operation of a link returns and has its effect.
- Theorem {lit}`reachable_refines_list`: the refinement, in every reachable state.
-/

namespace Smpcil
namespace Link

open Allocator Chains PoolCalls
open Loops (Pass loop loop_spec)

variable {π : Type} {calls : PoolCalls π} {Good : π → Prop} {blocks : π → List Block}
variable {link link' : SmpLink π} {ns fs s t : List Nat} {node fuel : Nat}

/-! ## Operations -/

/-- The operations on a link. -/
inductive Op where
  | insert (data : VoidPtr)
  | rmAthead
  | rmAttail
  | rm (data : VoidPtr) (cmpFunc : VoidPtr → VoidPtr → Int)

namespace Op

/-- Run an operation; an insertion returns the new node, a removal the element. -/
def run (calls : PoolCalls π) (fuel : Nat) (link : SmpLink π) : Op → Exec (VoidPtr × SmpLink π)
  | insert data => smpLinkInsert calls link data
  | rmAthead => .ok (smpLinkNodeRmAthead link)
  | rmAttail => .ok (smpLinkNodeRmAttail link)
  | rm data cmpFunc => smpLinkNodeRm fuel link data cmpFunc

/-- What an operation that returns {lit}`r` does to a list of elements. -/
def Effect : Op → List VoidPtr → VoidPtr → List VoidPtr → Prop
  | insert data, xs, r, xs' =>
      (r = NULL ∧ xs' = xs) ∨ (r ≠ NULL ∧ data ≠ NULL ∧ xs' = xs ++ [data])
  | rmAthead, xs, r, xs' => r = xs.headD NULL ∧ xs' = xs.tail
  | rmAttail, xs, r, xs' => r = xs.getLastD NULL ∧ xs' = xs.dropLast
  | rm data cmpFunc, xs, r, xs' =>
      if data = NULL then r = NULL ∧ xs' = xs
      else r = (xs.find? fun x => cmpFunc x data = 0).getD NULL ∧
        xs' = xs.eraseP fun x => cmpFunc x data = 0

end Op

/-- The elements of live nodes. -/
def elements (link : SmpLink π) (ns : List Nat) : List VoidPtr :=
  ns.map fun n => (link.mem n).data

/-- The outcome of an operation on a link with elements {lit}`xs`: its effect on the list,
and the nodes it takes from the pool. -/
structure Outcome (Good : π → Prop) (blocks : π → List Block) (link : SmpLink π)
    (xs : List VoidPtr) (op : Op) (r : VoidPtr) (link' : SmpLink π) : Prop where
  effect : ∃ ns fs, Linked Good blocks link' ns fs [] ∧ NULL ∉ elements link' ns ∧
    op.Effect xs r (elements link' ns)
  taken : link'.taken = max link.taken link'.size
  reuse : link.recover ≠ 0 → link'.taken = link.taken
  null : r = NULL → link' = { link with pool := link'.pool }

theorem Linked.size_le_taken (h : Linked Good blocks link ns fs []) :
    link.size ≤ link.taken := by
  rw [h.size, h.taken]
  simp

/-- An operation that returns null and changes nothing. -/
theorem Outcome.unchanged (h : Linked Good blocks link ns fs []) (hne : NULL ∉ elements link ns)
    {op : Op} (heffect : op.Effect (elements link ns) NULL (elements link ns)) :
    Outcome Good blocks link (elements link ns) op NULL link := by
  constructor
  case effect => exact ⟨ns, fs, h, hne, heffect⟩
  case taken => exact (Nat.max_eq_left h.size_le_taken).symm
  case reuse => exact fun _ => rfl
  case null => exact fun _ => rfl

/-! ## Insertion -/

/-- A node for a new element: recycled if there is a recycled one, else from the pool. -/
theorem smpLnodeCreate_spec (hserves : calls.Serves Good blocks)
    (h : Linked Good blocks link ns fs []) :
    ∃ node link', smpLnodeCreate calls link = .ok (node, link') ∧
      ((node = 0 ∧ link' = { link with pool := link'.pool } ∧
        Linked Good blocks link' ns fs []) ∨
      (node ≠ 0 ∧ ∃ fs', Linked Good blocks link' ns fs' [node] ∧
        (link'.mem node).next = 0 ∧ elements link' ns = elements link ns ∧
        link'.taken = max link.taken (link.size + 1) ∧
        (link.recover ≠ 0 → link'.taken = link.taken))) := by
  cases fs with
  | cons node fs =>
      have hhead : link.recover = node := h.recover.1
      have hne : node ≠ 0 := h.recover.2.1
      have hrun : smpLnodeCreate calls link =
          .ok (node, SmpLink.setNext { link with recover := (link.mem node).next } node 0) := by
        simp [smpLnodeCreate, hhead, hne]
      refine ⟨_, _, hrun, Or.inr ⟨hne, fs, h.reuse, by simp, ?_, ?_, fun _ => rfl⟩⟩
      · simp [elements]
      · have htaken := h.taken
        rw [SmpLink.setNext_taken, Nat.max_eq_left]
        rw [htaken, h.size]
        simp
  | nil =>
      have hnull : link.recover = 0 := h.recover
      rcases hserves.mpalloc sizeofLinkNode h.good with
        ⟨node, pool, hcall, hgood, ⟨hnode, hsame⟩ | ⟨hnode, -, -, hfresh, hnew⟩⟩
      · have hrun : smpLnodeCreate calls link = .ok (0, { link with pool := pool }) := by
          simp [smpLnodeCreate, hnull, hcall, hnode]
        refine ⟨_, _, hrun, Or.inl ⟨rfl, rfl, { h with good := hgood, block := ?_ }⟩⟩
        intro n hn
        rw [hsame]
        exact h.block n hn
      · have hrun : smpLnodeCreate calls link = .ok (node,
            ((SmpLink.setData { link with pool := pool, taken := link.taken + 1 } node
              NULL).setPrev node 0).setNext node 0) := by
          simp [smpLnodeCreate, hnull, hcall, hnode]
        have hout : ∀ n ∈ ns, n ≠ node := by
          rintro n hn rfl
          have happ := hfresh _ (h.block n (by simp [hn]))
          unfold Apart sizeofLinkNode at happ
          simp only at happ
          omega
        refine ⟨_, _, hrun, Or.inr ⟨hnode, [], h.take hgood hfresh hnew, by simp, ?_, ?_,
          fun hne => absurd hnull hne⟩⟩
        · refine List.map_congr_left fun n hn => ?_
          simp [hout n hn]
        · have htaken := h.taken
          simp only [List.append_nil] at htaken
          simp [htaken, h.size]

/-- An insertion appends the element, or returns null and changes nothing. -/
theorem smpLinkInsert_spec (hserves : calls.Serves Good blocks)
    (h : Linked Good blocks link ns fs []) (hne : NULL ∉ elements link ns) (data : VoidPtr) :
    ∃ r link', smpLinkInsert calls link data = .ok (r, link') ∧
      Outcome Good blocks link (elements link ns) (.insert data) r link' := by
  by_cases hdata : data = NULL
  · have hrun : smpLinkInsert calls link data = .ok (0, link) := by simp [smpLinkInsert, hdata]
    exact ⟨_, _, hrun, .unchanged h hne (Or.inl ⟨rfl, rfl⟩)⟩
  · rcases smpLnodeCreate_spec hserves h with
      ⟨node, link₁, hcreate, ⟨rfl, hpool, h₁⟩ | ⟨hnode, fs', h₁, hnull, hsame, htaken, hreuse⟩⟩
    · have hrun : smpLinkInsert calls link data = .ok (0, link₁) := by
        simp [smpLinkInsert, hdata, hcreate]
      have helements : elements link₁ ns = elements link ns := by
        rw [hpool]
        rfl
      refine ⟨_, _, hrun, ⟨ns, fs, h₁, helements ▸ hne, Or.inl ⟨rfl, helements⟩⟩, ?_, ?_, ?_⟩
      · rw [hpool]
        exact (Nat.max_eq_left h.size_le_taken).symm
      · intro _
        rw [hpool]
      · exact fun _ => hpool
    · have hrun : smpLinkInsert calls link data =
          .ok (node, (linkInsert link₁ node).setData node data) := by
        simp [smpLinkInsert, hdata, hcreate, hnode]
      have hfields : ∀ n, ((linkInsert link₁ node).mem n).data = (link₁.mem n).data := by
        intro n
        unfold linkInsert
        split_ifs <;> simp
      have htaken₂ : (linkInsert link₁ node).taken = link₁.taken := by
        unfold linkInsert
        split_ifs <;> simp
      have h₂ := (h₁.append hserves hnull).setData node data
      have hout : ∀ n ∈ ns, n ≠ node := fun n hn => h₁.ne_of_mem hn (by simp)
      have helements : elements ((linkInsert link₁ node).setData node data) (ns ++ [node]) =
          elements link ns ++ [data] := by
        rw [← hsame]
        unfold elements
        rw [List.map_append, List.map_singleton]
        congr 1
        · refine List.map_congr_left fun n hn => ?_
          rw [SmpLink.setData_data, if_neg (hout n hn), hfields]
        · rw [SmpLink.setData_data, if_pos rfl]
      have hsize : ((linkInsert link₁ node).setData node data).size = link.size + 1 := by
        rw [h₂.size, h.size, List.length_append, List.length_singleton]
      refine ⟨_, _, hrun, ⟨ns ++ [node], fs', h₂, ?_, Or.inr ⟨hnode, hdata, helements⟩⟩, ?_, ?_, ?_⟩
      · rw [helements, List.mem_append, List.mem_singleton]
        exact fun hmem => hmem.elim hne fun heq => hdata heq.symm
      · rw [hsize, SmpLink.setData_taken, htaken₂, htaken]
      · intro hrec
        rw [SmpLink.setData_taken, htaken₂, hreuse hrec]
      · exact fun hzero => absurd hzero hnode

/-! ## Removal -/

/-- A live node is removed: its element is returned and all others stay. -/
theorem removeNode_spec (hserves : calls.Serves Good blocks)
    (h : Linked Good blocks link (s ++ node :: t) fs []) :
    (removeNode link node).1 = (link.mem node).data ∧
      Linked Good blocks (removeNode link node).2 (s ++ t) (node :: fs) [] ∧
      elements (removeNode link node).2 (s ++ t) = elements link (s ++ t) ∧
      (removeNode link node).2.taken = link.taken := by
  have hremoved := h.remove.recycle hserves
  have htaken := hremoved.taken
  have hperm : (s ++ t ++ (node :: fs ++ [])).Perm (s ++ node :: t ++ (fs ++ [])) := by
    rw [List.append_nil, List.append_nil, List.append_assoc, List.append_assoc]
    refine List.Perm.append_left s ?_
    rw [List.cons_append]
    exact List.perm_middle
  refine ⟨Linked.remove_data link node node, hremoved, ?_, ?_⟩
  · refine List.map_congr_left fun n hn => ?_
    have hlive := (List.nodup_cons.mp (List.perm_middle.nodup_iff.mp h.nodup_live)).1
    have hne : n ≠ node := fun heq => hlive (heq ▸ hn)
    simp only [removeNode, Linked.recycle_data, if_neg hne, Linked.remove_data]
  · exact htaken.trans (hperm.length_eq.trans h.taken.symm)

/-- The outcome of a removal at a place of the list. -/
theorem Outcome.removed (hserves : calls.Serves Good blocks)
    (h : Linked Good blocks link (s ++ node :: t) fs [])
    (hne : NULL ∉ elements link (s ++ node :: t))
    {op : Op} (heffect : op.Effect (elements link (s ++ node :: t)) (link.mem node).data
      (elements link (s ++ t))) :
    Outcome Good blocks link (elements link (s ++ node :: t)) op (removeNode link node).1
      (removeNode link node).2 := by
  rcases removeNode_spec hserves h with ⟨hdata, hlinked, helements, htaken⟩
  have hle := h.size_le_taken
  have hsize := hlinked.size
  have hold := h.size
  constructor
  case effect =>
    refine ⟨s ++ t, node :: fs, hlinked, ?_, ?_⟩
    · rw [helements]
      intro hmem
      apply hne
      simp only [elements, List.mem_map] at hmem ⊢
      rcases hmem with ⟨n, hn, heq⟩
      refine ⟨n, ?_, heq⟩
      simp only [List.mem_append, List.mem_cons] at hn ⊢
      tauto
    · rw [hdata, helements]
      exact heffect
  case taken =>
    rw [htaken, Nat.max_eq_left]
    rw [hsize]
    simp only [List.length_append, List.length_cons] at hold ⊢
    omega
  case reuse => exact fun _ => htaken
  case null =>
    intro hnull
    refine absurd ?_ hne
    rw [← hnull, hdata]
    exact List.mem_map_of_mem (by simp)

/-- The first element is removed, if there is one. -/
theorem smpLinkNodeRmAthead_spec (hserves : calls.Serves Good blocks)
    (h : Linked Good blocks link ns fs []) (hne : NULL ∉ elements link ns) :
    Outcome Good blocks link (elements link ns) .rmAthead (smpLinkNodeRmAthead link).1
      (smpLinkNodeRmAthead link).2 := by
  cases ns with
  | nil =>
      have hnull : link.node = 0 := h.next
      simp only [smpLinkNodeRmAthead, hnull, if_true]
      exact .unchanged h hne ⟨rfl, rfl⟩
  | cons node t =>
      have hhead : link.node = node := h.next.1
      have hnode : node ≠ 0 := h.next.2.1
      simp only [smpLinkNodeRmAthead, hhead, if_neg hnode]
      exact Outcome.removed (s := []) hserves h hne ⟨rfl, rfl⟩

/-- The last element is removed, if there is one. -/
theorem smpLinkNodeRmAttail_spec (hserves : calls.Serves Good blocks)
    (h : Linked Good blocks link ns fs []) (hne : NULL ∉ elements link ns) :
    Outcome Good blocks link (elements link ns) .rmAttail (smpLinkNodeRmAttail link).1
      (smpLinkNodeRmAttail link).2 := by
  rcases List.eq_nil_or_concat ns with rfl | ⟨s, node, hs⟩
  · have hnull : link.tail = 0 := h.prev
    simp only [smpLinkNodeRmAttail, hnull, if_true]
    exact .unchanged h hne ⟨rfl, rfl⟩
  · rw [List.concat_eq_append] at hs
    subst hs
    have hlast := h.prev
    rw [List.reverse_append, List.reverse_singleton, List.singleton_append] at hlast
    have htail : link.tail = node := hlast.1
    have hnode : node ≠ 0 := hlast.2.1
    simp only [smpLinkNodeRmAttail, htail, if_neg hnode]
    refine Outcome.removed (t := []) hserves h hne ⟨?_, ?_⟩
    · simp [elements]
    · simp [elements]

/-- Where the search of `smp_link_node_rm` ends: at the first live node whose element
compares equal, or at null if there is none. -/
def FoundNode (link : SmpLink π) (ns : List Nat) (data : VoidPtr)
    (cmpFunc : VoidPtr → VoidPtr → Int) (node : Nat) : Prop :=
  (node = 0 ∧ ∀ n ∈ ns, cmpFunc (link.mem n).data data ≠ 0) ∨
    ∃ s t, ns = s ++ node :: t ∧ node ≠ 0 ∧ (∀ n ∈ s, cmpFunc (link.mem n).data data ≠ 0) ∧
      cmpFunc (link.mem node).data data = 0

/-- The search along the live chain. -/
theorem rmPass_spec (h : Linked Good blocks link ns fs []) (data : VoidPtr)
    (cmpFunc : VoidPtr → VoidPtr → Int) (hfuel : ns.length < fuel) :
    ∃ node, loop .diverged (rmPass link data cmpFunc) fuel link.node = .ok node ∧
      FoundNode link ns data cmpFunc node := by
  refine loop_spec (fun k n => ∃ s t, ns = s ++ t ∧ n = t.headD 0 ∧ t.length = k ∧
    ∀ m ∈ s, cmpFunc (link.mem m).data data ≠ 0) (FoundNode link ns data cmpFunc) ?_
    ⟨[], ns, rfl, h.next.head_eq, rfl, by simp⟩ hfuel
  rintro k n ⟨s, t, hsplit, rfl, rfl, hbefore⟩
  have hchain := (hsplit ▸ h.next).drop
  cases t with
  | nil =>
      refine Or.inl ⟨0, by simp [rmPass], Or.inl ⟨rfl, ?_⟩⟩
      rw [hsplit, List.append_nil]
      exact hbefore
  | cons n t =>
      have hn : n ≠ 0 := hchain.2.1
      by_cases heq : cmpFunc (link.mem n).data data = 0
      · exact Or.inl ⟨n, by simp [rmPass, hn, heq], Or.inr ⟨s, t, hsplit, hn, hbefore, heq⟩⟩
      · refine Or.inr ⟨(link.mem n).next, t.length, by simp [rmPass, hn, heq],
          ⟨s ++ [n], t, by simp [hsplit], hchain.2.2.head_eq, rfl, ?_⟩, by simp⟩
        intro m hm
        rcases List.mem_append.mp hm with hm | hm
        · exact hbefore m hm
        · exact List.mem_singleton.mp hm ▸ heq

/-- The first element that compares equal is removed, if there is one and a key was
given. -/
theorem smpLinkNodeRm_spec (hserves : calls.Serves Good blocks)
    (h : Linked Good blocks link ns fs []) (hne : NULL ∉ elements link ns) (data : VoidPtr)
    (cmpFunc : VoidPtr → VoidPtr → Int) (hfuel : ns.length < fuel) :
    ∃ r link', smpLinkNodeRm fuel link data cmpFunc = .ok (r, link') ∧
      Outcome Good blocks link (elements link ns) (.rm data cmpFunc) r link' := by
  by_cases hdata : data = NULL
  · have hrun : smpLinkNodeRm fuel link data cmpFunc = .ok (NULL, link) := by
      simp [smpLinkNodeRm, hdata]
    refine ⟨_, _, hrun, .unchanged h hne ?_⟩
    rw [Op.Effect, if_pos hdata]
    exact ⟨rfl, rfl⟩
  · rcases rmPass_spec h data cmpFunc hfuel with ⟨node, hloop, hfound⟩
    rcases hfound with ⟨rfl, hnone⟩ | ⟨s, t, rfl, hnode, hbefore, heq⟩
    · have hrun : smpLinkNodeRm fuel link data cmpFunc = .ok (NULL, link) := by
        simp [smpLinkNodeRm, hdata, hloop]
      refine ⟨_, _, hrun, .unchanged h hne ?_⟩
      have hall : ∀ x ∈ elements link ns, ¬ decide (cmpFunc x data = 0) = true := by
        intro x hx
        rcases List.mem_map.mp hx with ⟨n, hn, rfl⟩
        simpa using hnone n hn
      rw [Op.Effect, if_neg hdata, List.find?_eq_none.mpr hall, List.eraseP_of_forall_not hall]
      exact ⟨rfl, rfl⟩
    · have hrun : smpLinkNodeRm fuel link data cmpFunc = .ok (removeNode link node) := by
        simp [smpLinkNodeRm, hdata, hloop, hnode]
      refine ⟨_, _, hrun, .removed hserves h hne ?_⟩
      have hall : ∀ x ∈ elements link s, ¬ decide (cmpFunc x data = 0) = true := by
        intro x hx
        rcases List.mem_map.mp hx with ⟨n, hn, rfl⟩
        simpa using hbefore n hn
      have hsplit : elements link (s ++ node :: t) =
          elements link s ++ (link.mem node).data :: elements link t := by simp [elements]
      rw [Op.Effect, if_neg hdata, hsplit, List.find?_append, List.find?_eq_none.mpr hall,
        List.eraseP_append_right _ hall]
      constructor
      · simp [heq]
      · simp [heq, elements]

/-- Every operation of a link returns, with its outcome, when the fuel of its search is
above the length of the link. -/
theorem Op.run_spec (hserves : calls.Serves Good blocks) (h : Linked Good blocks link ns fs [])
    (hne : NULL ∉ elements link ns) (op : Op) (hfuel : ns.length < fuel) :
    ∃ r link', op.run calls fuel link = .ok (r, link') ∧
      Outcome Good blocks link (elements link ns) op r link' := by
  cases op with
  | insert data => exact smpLinkInsert_spec hserves h hne data
  | rmAthead => exact ⟨_, _, rfl, smpLinkNodeRmAthead_spec hserves h hne⟩
  | rmAttail => exact ⟨_, _, rfl, smpLinkNodeRmAttail_spec hserves h hne⟩
  | rm data cmpFunc => exact smpLinkNodeRm_spec hserves h hne data cmpFunc hfuel

/-! ## Runs -/

/-- An operation that returns gives the same result under any larger fuel. -/
theorem Op.run_mono {op : Op} {fuel' : Nat} {res : VoidPtr × SmpLink π} (hle : fuel ≤ fuel')
    (hrun : op.run calls fuel link = .ok res) : op.run calls fuel' link = .ok res := by
  cases op with
  | insert data => exact hrun
  | rmAthead => exact hrun
  | rmAttail => exact hrun
  | rm data cmpFunc =>
      simp only [Op.run, smpLinkNodeRm] at hrun ⊢
      by_cases hdata : data = NULL
      · rwa [if_pos hdata] at hrun ⊢
      · rw [if_neg hdata] at hrun ⊢
        rcases Exec.bind_eq_ok.mp hrun with ⟨node, hloop, hrest⟩
        rw [Loops.loop_mono hle hloop]
        exact hrest

/-- The links of all runs that start on memory whose field {lit}`recover` reads as null,
with the greatest length reached. -/
inductive Reachable (calls : PoolCalls π) (Good : π → Prop) : SmpLink π → Nat → Prop where
  | init {w w' : π} {raw : Contents} {freeFunc : VoidPtr} {link : SmpLink π} : Good w →
      raw.recover = 0 → smpLinkInit calls w raw freeFunc = .ok (some link, w') →
      Reachable calls Good link 0
  | step {link link' : SmpLink π} {peak fuel : Nat} {op : Op} {r : VoidPtr} :
      Reachable calls Good link peak → op.run calls fuel link = .ok (r, link') →
      Reachable calls Good link' (max peak link'.size)

/-- A new link is empty. -/
theorem smpLinkInit_linked (hserves : calls.Serves Good blocks) {w w' : π} {raw : Contents}
    {freeFunc : VoidPtr} (hw : Good w) (hraw : raw.recover = 0)
    (hinit : smpLinkInit calls w raw freeFunc = .ok (some link, w')) :
    Linked Good blocks link [] [] [] := by
  rcases Exec.bind_eq_ok.mp hinit with ⟨⟨created, w₁⟩, hcreate, hinit⟩
  cases created with
  | false => simp at hinit
  | true =>
      have hgood₁ := hserves.create hw hcreate
      rcases hserves.mpalloc sizeofLink hgood₁ with ⟨m, w₂, hcall, hgood₂, -⟩
      simp only [not_true_eq_false, if_false, hcall, Exec.ok_bind] at hinit
      by_cases hm : m = NULL
      · rw [if_pos hm] at hinit
        rcases Exec.bind_eq_ok.mp hinit with ⟨w₃, -, hnone⟩
        simp at hnone
      · simp only [if_neg hm, Exec.pure_eq, Except.ok.injEq, Prod.mk.injEq,
          Option.some.injEq] at hinit
        rcases hinit with ⟨rfl, rfl⟩
        constructor
        case good => exact hgood₂
        case next => simp
        case prev => simp
        case size => rfl
        case recover => exact hraw
        case clean => simp
        case nodup => simp
        case taken => rfl
        case block => simp

/-- The layout of a reachable link; the nodes taken from the pool are as many as the
greatest length reached. -/
theorem Reachable.linked (hserves : calls.Serves Good blocks) {peak : Nat}
    (h : Reachable calls Good link peak) :
    ∃ ns fs, Linked Good blocks link ns fs [] ∧ NULL ∉ elements link ns ∧ link.taken = peak := by
  induction h with
  | init hw hraw hinit =>
      have hlinked := smpLinkInit_linked hserves hw hraw hinit
      exact ⟨[], [], hlinked, by simp [elements], hlinked.taken⟩
  | @step link link' peak fuel op r _ hrun ih =>
      rcases ih with ⟨ns, fs, hlinked, hne, htaken⟩
      rcases op.run_spec hserves hlinked hne
        (show ns.length < max fuel (ns.length + 1) from Nat.le_max_right _ _) with
        ⟨r', link₂, hrun', hout⟩
      rw [Op.run_mono (Nat.le_max_left _ _) hrun, Except.ok.injEq, Prod.mk.injEq] at hrun'
      rcases hrun' with ⟨rfl, rfl⟩
      rcases hout.effect with ⟨ns', fs', hlinked', hne', -⟩
      exact ⟨ns', fs', hlinked', hne', by rw [hout.taken, htaken]⟩

/-- What a link with live nodes {lit}`ns` and recycled nodes {lit}`fs` is as a list. -/
structure Refines (calls : PoolCalls π) (link : SmpLink π) (peak : Nat) (ns fs : List Nat) :
    Prop where
  next : Chain (fun n => (link.mem n).next) link.node ns
  prev : Chain (fun n => (link.mem n).prev) link.tail ns.reverse
  size : link.size = ns.length
  recover : Chain (fun n => (link.mem n).next) link.recover fs
  disjoint : (ns ++ fs).Nodup
  taken : link.taken = peak
  step : ∀ (op : Op) fuel, ns.length < fuel →
    ∃ r link' ns', op.run calls fuel link = .ok (r, link') ∧
      Chain (fun n => (link'.mem n).next) link'.node ns' ∧
      op.Effect (elements link ns) r (elements link' ns') ∧
      (r = NULL → link' = { link with pool := link'.pool }) ∧
      (link.recover ≠ 0 → link'.taken = link.taken)

/-- The link refines a list with removal at both ends: in every reachable state the live
chain is linked both ways and disjoint from the recycled nodes, the nodes taken from the
pool are as many as the greatest length reached, and every operation returns with its
effect on the list. -/
theorem reachable_refines_list (hserves : calls.Serves Good blocks) {peak : Nat}
    (h : Reachable calls Good link peak) : ∃ ns fs, Refines calls link peak ns fs := by
  rcases h.linked hserves with ⟨ns, fs, hlinked, hne, htaken⟩
  have hdisjoint := hlinked.nodup
  rw [List.append_nil] at hdisjoint
  refine ⟨ns, fs, hlinked.next, hlinked.prev, hlinked.size, hlinked.recover, hdisjoint, htaken, ?_⟩
  intro op fuel hfuel
  rcases op.run_spec hserves hlinked hne hfuel with ⟨r, link', hrun, hout⟩
  rcases hout.effect with ⟨ns', fs', hlinked', -, heffect⟩
  exact ⟨r, link', ns', hrun, hlinked'.next, heffect, hout.null, hout.reuse⟩

/-! ## A sample -/

/-- A link with one element. -/
theorem reachable_sample : ∃ link : SmpLink History, Reachable bumpPool BumpTrace link 1 ∧
    link.node = 160 ∧ elements link [160] = [7] ∧
    smpLinkNodeRm 2 link NULL (fun _ _ => 0) = .ok (NULL, link) := by
  have h₀ : Reachable bumpPool BumpTrace _ 0 :=
    @Reachable.init _ _ _ _ _ ⟨0, fun _ => ⟨0, 0, 0⟩⟩ 0 _ Trace.nil rfl rfl
  have h₁ := @Reachable.step _ _ _ _ _ _ 1 (.insert 7) 160 h₀ rfl
  exact ⟨_, h₁, rfl, rfl, rfl⟩

/-- A link after three insertions, a removal at either end, and an insertion that takes a recycled
node. -/
theorem recycled_sample : ∃ link : SmpLink History, Reachable bumpPool BumpTrace link 3 ∧
    elements link [192, 224] = [8, 5] ∧ link.recover = 160 ∧ link.size = 2 := by
  have h₀ : Reachable bumpPool BumpTrace _ 0 :=
    @Reachable.init _ _ _ _ _ ⟨0, fun _ => ⟨0, 0, 0⟩⟩ 0 _ Trace.nil rfl rfl
  have h₁ := @Reachable.step _ _ _ _ _ _ 1 (.insert 7) 160 h₀ rfl
  have h₂ := @Reachable.step _ _ _ _ _ _ 1 (.insert 8) 192 h₁ rfl
  have h₃ := @Reachable.step _ _ _ _ _ _ 1 (.insert 9) 224 h₂ rfl
  have h₄ := @Reachable.step _ _ _ _ _ _ 1 .rmAthead 7 h₃ rfl
  have h₅ := @Reachable.step _ _ _ _ _ _ 1 .rmAttail 9 h₄ rfl
  have h₆ := @Reachable.step _ _ _ _ _ _ 1 (.insert 5) 224 h₅ rfl
  exact ⟨_, h₆, rfl, rfl, rfl⟩

/-- The next insertion takes the other recycled node, and none from the pool. -/
theorem reachable_refines_list_sample : ∃ link : SmpLink History,
    Reachable bumpPool BumpTrace link 3 ∧ elements link [192, 224] = [8, 5] ∧
      ∃ r link', Op.run bumpPool 3 link (.insert 6) = .ok (r, link') ∧ link'.taken = 3 := by
  rcases recycled_sample with ⟨link, hreach, helements, hrecover, hsize⟩
  rcases reachable_refines_list bumpPool_serves hreach with ⟨ns, fs, hrefines⟩
  have hlen : ns.length < 3 := by
    rw [← hrefines.size, hsize]
    decide
  have hrecycled : link.recover ≠ 0 := by
    rw [hrecover]
    decide
  rcases hrefines.step (.insert 6) 3 hlen with ⟨r, link', -, hrun, -, -, -, hreuse⟩
  exact ⟨link, hreach, helements, r, link', hrun, (hreuse hrecycled).trans hrefines.taken⟩

/-- With a null key nothing is compared: an element that would compare equal stays. -/
theorem smpLinkNodeRm_null_key : ∃ link : SmpLink History,
    Reachable bumpPool BumpTrace link 1 ∧ link.node = 160 ∧
      (elements link [160]).find? (fun x => (fun _ _ => 0 : VoidPtr → VoidPtr → Int) x NULL = 0) =
        some 7 ∧
      smpLinkNodeRm 2 link NULL (fun _ _ => 0) = .ok (NULL, link) := by
  rcases reachable_sample with ⟨link, hreach, hnode, helements, hrun⟩
  refine ⟨link, hreach, hnode, ?_, hrun⟩
  rw [helements]
  rfl

end Link
end Smpcil
