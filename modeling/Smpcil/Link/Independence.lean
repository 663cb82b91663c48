import Smpcil.Link.Refinement

/-!
# What a link depends on

Two runs of the same calls on links whose memory held different contents before
`smp_link_init`.  An operation that follows only pointers stored before commutes with any
change of the memory elsewhere.

Main results:

- Definition {lit}`Confined`: the operations on a link follow only stored pointers.
- Theorem {lit}`Traced.confined`: the operations on a well-formed link are confined to its nodes.
- Theorem {lit}`independent_iff`: when a link does not depend on the initial contents.
-/

namespace Smpcil
namespace Link

open Allocator Chains PoolCalls
open Loops (Pass loop loop_spec loop_mono loop_congr)

variable {π : Type} {calls : PoolCalls π} {Good : π → Prop} {blocks : π → List Block}
variable {link link' : SmpLink π} {ns fs s t S S' : List Nat} {node fuel : Nat}
variable {m : Nat → LinkNode}

/-! ## Other contents -/

/-- The link with the contents {lit}`m` everywhere but at the nodes {lit}`S`. -/
def graft (S : List Nat) (m : Nat → LinkNode) (link : SmpLink π) : SmpLink π :=
  { link with mem := fun n => if n ∈ S then link.mem n else m n }

/-- The pointers an operation that returns {lit}`r` leaves stored: those stored before and the
node of an insertion. -/
def Op.stored (op : Op) (r : VoidPtr) (S : List Nat) : List Nat :=
  match op with
  | insert _ => if r = NULL then S else r :: S
  | _ => S

/-- The operations on a link follow only the pointers {lit}`S` and that of a new node: other
contents elsewhere change neither what they return nor what they do, and stay as they are. -/
def Confined (calls : PoolCalls π) (link : SmpLink π) (S : List Nat) : Prop :=
  ∀ (op : Op) (fuel : Nat) (m : Nat → LinkNode),
    op.run calls fuel (graft S m link) =
      (op.run calls fuel link).map fun (r, link') => (r, graft (op.stored r S) m link')

/-- The link of a new node from the pool, before the node is stored in it. -/
def takeNode (link : SmpLink π) (node : Nat) (pool : π) : SmpLink π :=
  ((SmpLink.setData { link with pool := pool, taken := link.taken + 1 } node NULL).setPrev
    node 0).setNext node 0

/-- The link after its first recycled node is taken. -/
def reuseNode (link : SmpLink π) : SmpLink π :=
  SmpLink.setNext { link with recover := (link.mem link.recover).next } link.recover 0

/-- The second link is the first one with the contents {lit}`m` away from the nodes {lit}`S`. -/
structure Grafted (S : List Nat) (m : Nat → LinkNode) (link link₂ : SmpLink π) : Prop where
  size : link₂.size = link.size
  node : link₂.node = link.node
  tail : link₂.tail = link.tail
  dataFree : link₂.dataFree = link.dataFree
  recover : link₂.recover = link.recover
  quotes : link₂.quotes = link.quotes
  pool : link₂.pool = link.pool
  taken : link₂.taken = link.taken
  mem : ∀ n, link₂.mem n = if n ∈ S then link.mem n else m n

variable {link₂ : SmpLink π}

theorem grafted_graft (S : List Nat) (m : Nat → LinkNode) (link : SmpLink π) :
    Grafted S m link (graft S m link) :=
  ⟨rfl, rfl, rfl, rfl, rfl, rfl, rfl, rfl, fun _ => rfl⟩

namespace Grafted

theorem eq_graft (h : Grafted S m link link₂) : link₂ = graft S m link := by
  rcases link₂ with ⟨size, node, tail, dataFree, recover, quotes, pool, mem, taken⟩
  rcases h with ⟨rfl, rfl, rfl, rfl, rfl, rfl, rfl, rfl, hmem⟩
  have heq : mem = fun n => if n ∈ S then link.mem n else m n := funext hmem
  rw [heq]
  rfl

theorem mem_eq (h : Grafted S m link link₂) {n : Nat} (hn : n ∈ S) : link₂.mem n = link.mem n := by
  rw [h.mem, if_pos hn]

/-- Only the set of nodes matters. -/
theorem congr (h : Grafted S m link link₂) (hS : ∀ n, n ∈ S ↔ n ∈ S') :
    Grafted S' m link link₂ :=
  { h with mem := fun n => by simp only [h.mem n, hS n] }

/-- A store to one of the nodes. -/
theorem store (h : Grafted S m link link₂) {n : Nat} (hn : n ∈ S) (cell : LinkNode) :
    Grafted S m { link with mem := Function.update link.mem n cell }
      { link₂ with mem := Function.update link₂.mem n cell } := by
  refine { h with mem := fun k => ?_ }
  by_cases hk : k = n
  · simp [hk, hn]
  · simp [hk, h.mem k]

theorem setNext (h : Grafted S m link link₂) {n n₂ v v₂ : Nat} (hn : n ∈ S) (hn₂ : n₂ = n)
    (hv : v₂ = v) : Grafted S m (link.setNext n v) (link₂.setNext n₂ v₂) := by
  subst hn₂ hv
  unfold SmpLink.setNext
  rw [h.mem_eq hn]
  exact h.store hn _

theorem setPrev (h : Grafted S m link link₂) {n n₂ v v₂ : Nat} (hn : n ∈ S) (hn₂ : n₂ = n)
    (hv : v₂ = v) : Grafted S m (link.setPrev n v) (link₂.setPrev n₂ v₂) := by
  subst hn₂ hv
  unfold SmpLink.setPrev
  rw [h.mem_eq hn]
  exact h.store hn _

theorem setData (h : Grafted S m link link₂) {n : Nat} {v : VoidPtr} (hn : n ∈ S) :
    Grafted S m (link.setData n v) (link₂.setData n v) := by
  unfold SmpLink.setData
  rw [h.mem_eq hn]
  exact h.store hn _

/-- The ends of the live chain. -/
theorem setEnds (h : Grafted S m link link₂) {v v₂ w w₂ : Nat} (hv : v₂ = v) (hw : w₂ = w) :
    Grafted S m { link with node := v, tail := w } { link₂ with node := v₂, tail := w₂ } :=
  { h with node := hv, tail := hw }

theorem setRecover (h : Grafted S m link link₂) {v v₂ : Nat} (hv : v₂ = v) :
    Grafted S m { link with recover := v } { link₂ with recover := v₂ } :=
  { h with recover := hv }

theorem decSize (h : Grafted S m link link₂) : Grafted S m (decSize link) (decSize link₂) := by
  refine { h with size := ?_ }
  unfold Link.decSize
  simp only [h.size]

/-- A node from the pool. -/
theorem takeNode (h : Grafted S m link link₂) (n : Nat) (pool : π) :
    Grafted (n :: S) m (takeNode link n pool) (takeNode link₂ n pool) := by
  refine { h with pool := rfl, taken := ?_, mem := fun k => ?_ }
  · simp [Link.takeNode, h.taken]
  · by_cases hk : k = n
    · simp [hk, Link.takeNode, SmpLink.setNext, SmpLink.setPrev, SmpLink.setData]
    · simp [hk, Link.takeNode, SmpLink.setNext, SmpLink.setPrev, SmpLink.setData, h.mem k]

/-- The first recycled node. -/
theorem reuseNode (h : Grafted S m link link₂) (hrec : link.recover ∈ S) :
    Grafted S m (reuseNode link) (reuseNode link₂) := by
  have hhead : (link₂.mem link₂.recover).next = (link.mem link.recover).next := by
    rw [h.recover, h.mem_eq hrec]
  exact (h.setRecover hhead).setNext hrec h.recover rfl

/-- Recycling a node. -/
theorem nodeRecover (h : Grafted S m link link₂) (hnode : node ∈ S) :
    Grafted S m (smpLinkNodeRecover link node) (smpLinkNodeRecover link₂ node) := by
  have hclear : Grafted S m (((link.setNext node 0).setPrev node 0).setData node NULL)
      (((link₂.setNext node 0).setPrev node 0).setData node NULL) :=
    ((h.setNext hnode rfl rfl).setPrev hnode rfl rfl).setData hnode
  unfold smpLinkNodeRecover
  generalize ((link.setNext node 0).setPrev node 0).setData node NULL = c at hclear ⊢
  generalize ((link₂.setNext node 0).setPrev node 0).setData node NULL = c₂ at hclear ⊢
  simp only
  by_cases hnull : c.recover = 0
  · have hnull₂ : c₂.recover = 0 := hclear.recover.trans hnull
    rw [if_pos hnull, if_pos hnull₂]
    exact hclear.setRecover rfl
  · have hnull₂ : c₂.recover ≠ 0 := hclear.recover ▸ hnull
    rw [if_neg hnull, if_neg hnull₂]
    exact (hclear.setNext hnode rfl hclear.recover).setRecover rfl

end Grafted

/-! ## Single operations -/

/-- The link is well formed, and its nodes are among the stored pointers {lit}`S`. -/
structure Traced (Good : π → Prop) (blocks : π → List Block) (link : SmpLink π)
    (ns fs S : List Nat) : Prop where
  linked : Linked Good blocks link ns fs []
  nonnull : NULL ∉ elements link ns
  stored : ∀ n ∈ ns ++ fs, n ∈ S

/-- An insertion that the pool refuses. -/
theorem smpLinkInsert_refused {data : VoidPtr} {pool : π} (hdata : data ≠ NULL)
    (hrec : link.recover = 0) (hcall : calls.mpalloc link.pool sizeofLinkNode = .ok (NULL, pool)) :
    smpLinkInsert calls link data = .ok (0, { link with pool := pool }) := by
  have hcreate : smpLnodeCreate calls link = .ok (0, { link with pool := pool }) := by
    simp [smpLnodeCreate, hrec, hcall]
  simp [smpLinkInsert, hdata, hcreate]

/-- An insertion that takes a node from the pool. -/
theorem smpLinkInsert_take {data : VoidPtr} {pool : π} (hdata : data ≠ NULL)
    (hrec : link.recover = 0) (hcall : calls.mpalloc link.pool sizeofLinkNode = .ok (node, pool))
    (hnode : node ≠ NULL) : smpLinkInsert calls link data =
      .ok (node, (linkInsert (takeNode link node pool) node).setData node data) := by
  have hcreate : smpLnodeCreate calls link = .ok (node, takeNode link node pool) := by
    simp [smpLnodeCreate, takeNode, hrec, hcall, hnode]
  have hzero : node ≠ 0 := hnode
  simp [smpLinkInsert, hdata, hcreate, hzero]

/-- An insertion that takes a recycled node. -/
theorem smpLinkInsert_reuse {data : VoidPtr} (hdata : data ≠ NULL) (hrec : link.recover ≠ 0) :
    smpLinkInsert calls link data =
      .ok (link.recover, (linkInsert (reuseNode link) link.recover).setData link.recover data) := by
  simp [smpLinkInsert, smpLnodeCreate, reuseNode, hdata, hrec]

namespace Traced

theorem mem_live (h : Traced Good blocks link ns fs S) {n : Nat} (hn : n ∈ ns) : n ∈ S :=
  h.stored n (List.mem_append_left _ hn)

theorem mem_free (h : Traced Good blocks link ns fs S) {n : Nat} (hn : n ∈ fs) : n ∈ S :=
  h.stored n (List.mem_append_right _ hn)

/-- The nodes that `smp_link_rm_node` reads and writes. -/
theorem neighbours_mem (h : Traced Good blocks link (s ++ node :: t) fs S) :
    node ∈ S ∧ ((link.mem node).next ≠ 0 → (link.mem node).next ∈ S) ∧
      (node ≠ link.node → (link.mem node).prev ∈ S) ∧
      (node ≠ link.tail → (link.mem node).next ∈ S) := by
  rcases h.linked.neighbours with ⟨hnext, hprev, hfirst, hlast⟩
  have hnextMem : t ≠ [] → (link.mem node).next ∈ S := by
    intro hne
    rw [hnext]
    cases t with
    | nil => exact absurd rfl hne
    | cons b t => exact h.mem_live (by simp)
  have hprevMem : s ≠ [] → (link.mem node).prev ∈ S := by
    intro hne
    rw [hprev]
    cases hrev : s.reverse with
    | nil => exact absurd (List.reverse_eq_nil_iff.mp hrev) hne
    | cons b u =>
        have hb : b ∈ s := by
          rw [← List.mem_reverse, hrev]
          exact List.mem_cons_self
        exact h.mem_live (List.mem_append_left _ hb)
  refine ⟨h.mem_live (by simp), fun hne => hnextMem ?_, fun hne => hprevMem ?_,
    fun hne => hnextMem ?_⟩
  · rintro rfl
    exact hne hnext
  · rintro rfl
    exact hne hfirst.symm
  · rintro rfl
    exact hne hlast.symm

/-- `smp_link_rm_node` follows only stored pointers; each of its cases has its own stores. -/
theorem rmNode_grafted (h : Traced Good blocks link (s ++ node :: t) fs S)
    (hg : Grafted S m link link₂) :
    Grafted S m (smpLinkRmNode link node) (smpLinkRmNode link₂ node) := by
  rcases h.neighbours_mem with ⟨hnode, hnext, hprev, htail⟩
  have hcell := hg.mem_eq hnode
  unfold smpLinkRmNode
  by_cases hfirst : node = link.node
  · have hfirst₂ : node = link₂.node := hfirst.trans hg.node.symm
    rw [if_pos hfirst, if_pos hfirst₂, ← hfirst, ← hfirst₂, hcell]
    apply Grafted.decSize
    refine Grafted.setPrev (Grafted.setNext ?_ hnode rfl rfl) hnode rfl rfl
    by_cases hend : (link.mem node).next = 0
    · rw [if_pos hend, if_pos hend]
      exact hg.setEnds rfl rfl
    · rw [if_neg hend, if_neg hend]
      exact (hg.setEnds rfl hg.tail).setPrev (hnext hend) rfl rfl
  · have hfirst₂ : node ≠ link₂.node := hg.node ▸ hfirst
    rw [if_neg hfirst, if_neg hfirst₂]
    by_cases hlast : node = link.tail
    · have hlast₂ : node = link₂.tail := hlast.trans hg.tail.symm
      rw [if_pos hlast, if_pos hlast₂, ← hlast, ← hlast₂, if_neg hfirst, if_neg hfirst₂, hcell]
      apply Grafted.decSize
      refine Grafted.setPrev (Grafted.setNext ?_ hnode rfl rfl) hnode rfl rfl
      exact (hg.setEnds hg.node rfl).setNext (hprev hfirst) rfl rfl
    · have hlast₂ : node ≠ link₂.tail := hg.tail ▸ hlast
      rw [if_neg hlast, if_neg hlast₂]
      apply Grafted.decSize
      refine Grafted.setNext (Grafted.setPrev ?_ hnode rfl rfl) hnode rfl rfl
      have hfirstStore := hg.setNext (hprev hfirst) (congrArg LinkNode.prev hcell)
        (congrArg LinkNode.next hcell)
      have hcell₂ := hfirstStore.mem_eq hnode
      refine hfirstStore.setPrev ?_ (congrArg LinkNode.next hcell₂) (congrArg LinkNode.prev hcell₂)
      rw [SmpLink.setNext_next]
      split_ifs <;> exact htail hlast

/-- Removing a node follows only stored pointers. -/
theorem removeNode_grafted (h : Traced Good blocks link (s ++ node :: t) fs S)
    (hg : Grafted S m link link₂) : (removeNode link₂ node).1 = (removeNode link node).1 ∧
      Grafted S m (removeNode link node).2 (removeNode link₂ node).2 := by
  have hnode := h.neighbours_mem.1
  have hrm := h.rmNode_grafted hg
  exact ⟨congrArg LinkNode.data (hrm.mem_eq hnode), hrm.nodeRecover hnode⟩

/-- The search of a removal follows only stored pointers. -/
theorem rmPass_grafted (h : Traced Good blocks link ns fs S) (hg : Grafted S m link link₂)
    (data : VoidPtr) (cmpFunc : VoidPtr → VoidPtr → Int) :
    loop .diverged (rmPass link₂ data cmpFunc) fuel link.node =
      loop .diverged (rmPass link data cmpFunc) fuel link.node := by
  apply loop_congr (fun n => n = 0 ∨ n ∈ ns)
  · rintro n (rfl | hn)
    · rfl
    · simp only [rmPass, hg.mem_eq (h.mem_live hn)]
  · rintro n n' (rfl | hn) hpass
    · simp [rmPass] at hpass
    · have hne : n ≠ 0 := h.linked.next.ne_zero hn
      by_cases heq : cmpFunc (link.mem n).data data = 0
      · simp [rmPass, hne, heq] at hpass
      · simp only [rmPass, ne_eq, hne, not_false_eq_true, if_true, heq, if_false,
          Except.ok.injEq, Pass.again.injEq] at hpass
        exact hpass ▸ h.linked.next.next_mem hn
  · rcases ns with _ | ⟨a, ns⟩
    · exact Or.inl h.linked.next
    · exact Or.inr (by rw [h.linked.next.1]; exact List.mem_cons_self)

/-- The end of an insertion, once there is a node. -/
theorem linkInsert_grafted (hg : Grafted S m link link₂) (hnode : node ∈ S)
    (htail : link.node ≠ 0 → link.tail ∈ S) (data : VoidPtr) :
    Grafted S m ((linkInsert link node).setData node data)
      ((linkInsert link₂ node).setData node data) := by
  refine Grafted.setData ?_ hnode
  have hsize : (link₂.size + 1) % 2 ^ 64 = (link.size + 1) % 2 ^ 64 := by rw [hg.size]
  unfold linkInsert
  by_cases hempty : link.node = 0
  · have hempty₂ : link₂.node = 0 := hg.node.trans hempty
    rw [if_pos hempty, if_pos hempty₂]
    exact { hg with size := hsize, node := rfl, tail := rfl }
  · have hempty₂ : link₂.node ≠ 0 := hg.node ▸ hempty
    rw [if_neg hempty, if_neg hempty₂]
    have hstores := (hg.setNext (v := node) (htail hempty) hg.tail rfl).setPrev hnode rfl hg.tail
    exact { hstores with size := hsize, tail := rfl }

/-- The first recycled node is stored. -/
theorem recover_mem (h : Traced Good blocks link ns fs S) (hne : link.recover ≠ 0) :
    link.recover ∈ S := by
  rcases fs with _ | ⟨a, fs⟩
  · exact absurd h.linked.recover hne
  · rw [h.linked.recover.1]
    exact h.mem_free List.mem_cons_self

/-- The last live node is stored. -/
theorem tail_mem (h : Traced Good blocks link ns fs S) (hne : link.node ≠ 0) : link.tail ∈ S := by
  rcases List.eq_nil_or_concat ns with rfl | ⟨s, a, hs⟩
  · exact absurd h.linked.next hne
  · rw [List.concat_eq_append] at hs
    have hlast : link.tail = a := by
      have hhead := h.linked.prev.head_eq
      rw [hs] at hhead
      simpa using hhead
    exact hlast ▸ h.mem_live (by simp [hs])

/-- An insertion follows only stored pointers and that of its new node. -/
theorem insert_grafted (hserves : calls.Serves Good blocks) (h : Traced Good blocks link ns fs S)
    (hg : Grafted S m link link₂) (data : VoidPtr) :
    ∃ r link' link₂', smpLinkInsert calls link data = .ok (r, link') ∧
      smpLinkInsert calls link₂ data = .ok (r, link₂') ∧
      Grafted ((Op.insert data).stored r S) m link' link₂' := by
  by_cases hdata : data = NULL
  · have hrun : ∀ l : SmpLink π, smpLinkInsert calls l data = .ok (0, l) := fun l => by
      simp [smpLinkInsert, hdata]
    exact ⟨_, _, _, hrun link, hrun link₂, hg⟩
  · by_cases hrec : link.recover = 0
    · have hrec₂ : link₂.recover = 0 := hg.recover.trans hrec
      rcases hserves.mpalloc sizeofLinkNode h.linked.good with ⟨node, pool, hcall, -⟩
      have hcall₂ : calls.mpalloc link₂.pool sizeofLinkNode = .ok (node, pool) := hg.pool ▸ hcall
      by_cases hnode : node = NULL
      · subst hnode
        exact ⟨_, _, _, smpLinkInsert_refused hdata hrec hcall,
          smpLinkInsert_refused hdata hrec₂ hcall₂, { hg with pool := rfl }⟩
      · refine ⟨_, _, _, smpLinkInsert_take hdata hrec hcall hnode,
          smpLinkInsert_take hdata hrec₂ hcall₂ hnode, ?_⟩
        rw [Op.stored, if_neg hnode]
        exact linkInsert_grafted (hg.takeNode node pool) List.mem_cons_self
          (fun hne => List.mem_cons_of_mem _ (h.tail_mem hne)) data
    · have hfree := h.recover_mem hrec
      have hrun₂ : smpLinkInsert calls link₂ data = _ :=
        smpLinkInsert_reuse hdata (hg.recover ▸ hrec)
      rw [hg.recover] at hrun₂
      refine ⟨_, _, _, smpLinkInsert_reuse hdata hrec, hrun₂, ?_⟩
      have hstored : ∀ n, n ∈ S ↔ n ∈ (Op.insert data).stored link.recover S := by
        intro n
        rw [Op.stored, if_neg (show link.recover ≠ NULL from hrec), List.mem_cons]
        exact ⟨Or.inr, fun hn => hn.elim (fun heq => heq ▸ hfree) id⟩
      exact (linkInsert_grafted (hg.reuseNode hfree) hfree h.tail_mem data).congr hstored

/-- The operations on a well-formed link are confined to its nodes. -/
theorem confined (hserves : calls.Serves Good blocks) (h : Traced Good blocks link ns fs S) :
    Confined calls link S := by
  intro op fuel m
  have hg := grafted_graft S m link
  cases op with
  | insert data =>
      rcases h.insert_grafted hserves hg data with ⟨r, link', link₂', hrun, hrun₂, hg'⟩
      rw [Op.run, hrun₂, Op.run, hrun, hg'.eq_graft]
      rfl
  | rmAthead =>
      rcases ns with _ | ⟨a, ns⟩
      · have hnull : link.node = 0 := h.linked.next
        have hnull₂ : (graft S m link).node = 0 := hnull
        simp only [Op.run, smpLinkNodeRmAthead, if_pos hnull, if_pos hnull₂]
        rfl
      · have hhead : link.node = a := h.linked.next.1
        have hne : a ≠ 0 := h.linked.next.2.1
        rcases Traced.removeNode_grafted (s := []) h hg with ⟨hdata, hg'⟩
        have hrun : ∀ l : SmpLink π, l.node = a → smpLinkNodeRmAthead l = removeNode l a := by
          intro l hl
          simp only [smpLinkNodeRmAthead, hl, if_neg hne]
        rw [Op.run, Op.run, hrun (graft S m link) hhead, hrun link hhead]
        exact congrArg Except.ok (Prod.ext hdata hg'.eq_graft)
  | rmAttail =>
      rcases List.eq_nil_or_concat ns with rfl | ⟨s, a, hs⟩
      · have hnull : link.tail = 0 := h.linked.prev
        have hnull₂ : (graft S m link).tail = 0 := hnull
        simp only [Op.run, smpLinkNodeRmAttail, if_pos hnull, if_pos hnull₂]
        rfl
      · rw [List.concat_eq_append] at hs
        subst hs
        have hlast := h.linked.prev
        rw [List.reverse_append, List.reverse_singleton, List.singleton_append] at hlast
        have htail : link.tail = a := hlast.1
        have hne : a ≠ 0 := hlast.2.1
        rcases Traced.removeNode_grafted (t := []) h hg with ⟨hdata, hg'⟩
        have hrun : ∀ l : SmpLink π, l.tail = a → smpLinkNodeRmAttail l = removeNode l a := by
          intro l hl
          simp only [smpLinkNodeRmAttail, hl, if_neg hne]
        rw [Op.run, Op.run, hrun (graft S m link) htail, hrun link htail]
        exact congrArg Except.ok (Prod.ext hdata hg'.eq_graft)
  | rm data cmpFunc =>
      by_cases hdata : data = NULL
      · simp only [Op.run, smpLinkNodeRm, if_pos hdata]
        rfl
      · have hnode₂ : (graft S m link).node = link.node := rfl
        simp only [Op.run, smpLinkNodeRm, if_neg hdata, hnode₂, h.rmPass_grafted hg]
        cases hloop : loop .diverged (rmPass link data cmpFunc) fuel link.node with
        | error e => rfl
        | ok node =>
            simp only [Exec.ok_bind]
            by_cases hnode : node = 0
            · simp only [if_pos hnode]
              rfl
            · rcases rmPass_spec h.linked data cmpFunc
                (show ns.length < max fuel (ns.length + 1) from Nat.le_max_right _ _) with
                ⟨node', hloop', hfound⟩
              rw [loop_mono (Nat.le_max_left _ _) hloop, Except.ok.injEq] at hloop'
              subst hloop'
              rcases hfound with ⟨hzero, -⟩ | ⟨s, t, rfl, -⟩
              · exact absurd hzero hnode
              · simp only [if_neg hnode]
                rcases h.removeNode_grafted hg with ⟨hsame, hg'⟩
                exact congrArg Except.ok (Prod.ext hsame hg'.eq_graft)

/-- A removed node stays stored. -/
theorem removed (hserves : calls.Serves Good blocks)
    (h : Traced Good blocks link (s ++ node :: t) fs S) :
    Traced Good blocks (removeNode link node).2 (s ++ t) (node :: fs) S := by
  rcases removeNode_spec hserves h.linked with ⟨-, hlinked, helements, -⟩
  refine ⟨hlinked, ?_, ?_⟩
  · rw [helements]
    intro hmem
    apply h.nonnull
    simp only [elements, List.map_append, List.mem_append, List.map_cons, List.mem_cons] at hmem ⊢
    exact hmem.imp id Or.inr
  · intro n hn
    apply h.stored
    simp only [List.mem_append, List.mem_cons] at hn ⊢
    tauto

/-- What a removal that returns does. -/
theorem removal_cases (h : Linked Good blocks link ns fs []) {op : Op} {r : VoidPtr}
    (hop : ∀ data, op ≠ .insert data) (hrun : op.run calls fuel link = .ok (r, link')) :
    link' = link ∨ ∃ s node t, ns = s ++ node :: t ∧ link' = (removeNode link node).2 := by
  cases op with
  | insert data => exact absurd rfl (hop data)
  | rmAthead =>
      rcases ns with _ | ⟨a, ns⟩
      · have hnull : link.node = 0 := h.next
        simp only [Op.run, smpLinkNodeRmAthead, if_pos hnull, Except.ok.injEq,
          Prod.mk.injEq] at hrun
        exact Or.inl hrun.2.symm
      · simp only [Op.run, smpLinkNodeRmAthead, h.next.1, if_neg h.next.2.1,
          Except.ok.injEq] at hrun
        exact Or.inr ⟨[], a, ns, rfl, by rw [hrun]⟩
  | rmAttail =>
      rcases List.eq_nil_or_concat ns with rfl | ⟨s, a, hs⟩
      · have hnull : link.tail = 0 := h.prev
        simp only [Op.run, smpLinkNodeRmAttail, if_pos hnull, Except.ok.injEq,
          Prod.mk.injEq] at hrun
        exact Or.inl hrun.2.symm
      · rw [List.concat_eq_append] at hs
        subst hs
        have hlast := h.prev
        rw [List.reverse_append, List.reverse_singleton, List.singleton_append] at hlast
        simp only [Op.run, smpLinkNodeRmAttail, hlast.1, if_neg hlast.2.1, Except.ok.injEq] at hrun
        exact Or.inr ⟨s, a, [], rfl, by rw [hrun]⟩
  | rm data cmpFunc =>
      have hfuel : ns.length < max fuel (ns.length + 1) := Nat.le_max_right _ _
      have hmono := Op.run_mono (Nat.le_max_left fuel (ns.length + 1)) hrun
      rcases rmPass_spec h data cmpFunc hfuel with ⟨node, hloop, hfound⟩
      simp only [Op.run, smpLinkNodeRm, hloop] at hmono
      by_cases hdata : data = NULL
      · simp only [if_pos hdata, Exec.pure_eq, Except.ok.injEq, Prod.mk.injEq] at hmono
        exact Or.inl hmono.2.symm
      · rcases hfound with ⟨rfl, -⟩ | ⟨s, t, rfl, hnode, -⟩
        · simp only [if_neg hdata, Exec.ok_bind, if_true, Exec.pure_eq, Except.ok.injEq,
            Prod.mk.injEq] at hmono
          exact Or.inl hmono.2.symm
        · simp only [if_neg hdata, Exec.ok_bind, if_neg hnode, Exec.pure_eq,
            Except.ok.injEq] at hmono
          exact Or.inr ⟨s, node, t, rfl, by rw [hmono]⟩

/-- The end of an insertion stores the new node. -/
theorem inserted (hserves : calls.Serves Good blocks) {S' : List Nat}
    (hlinked : Linked Good blocks link ns fs [node]) (hnull : (link.mem node).next = 0)
    (hne : NULL ∉ elements link ns) (hstored : ∀ n ∈ ns ++ node :: fs, n ∈ S') {data : VoidPtr}
    (hdata : data ≠ NULL) :
    Traced Good blocks ((linkInsert link node).setData node data) (ns ++ [node]) fs S' := by
  refine ⟨(hlinked.append hserves hnull).setData node data, ?_, ?_⟩
  · have hout : ∀ n ∈ ns, n ≠ node := fun n hn => hlinked.ne_of_mem hn (by simp)
    have hdataEq : ∀ n, ((linkInsert link node).mem n).data = (link.mem n).data := by
      intro n
      unfold linkInsert
      split_ifs <;> simp
    simp only [elements, List.mem_map, SmpLink.setData_data, hdataEq] at hne ⊢
    rintro ⟨n, hn, heq⟩
    split_ifs at heq with hnode
    · exact hdata heq
    · refine hne ⟨n, ?_, heq⟩
      simpa [hnode] using hn
  · intro n hn
    apply hstored
    simpa [or_assoc] using hn

/-- An insertion stores its node. -/
theorem insert_traced (hserves : calls.Serves Good blocks) (h : Traced Good blocks link ns fs S)
    {data : VoidPtr} {r : VoidPtr} (hrun : smpLinkInsert calls link data = .ok (r, link')) :
    ∃ ns' fs', Traced Good blocks link' ns' fs' ((Op.insert data).stored r S) := by
  by_cases hdata : data = NULL
  · simp only [smpLinkInsert, hdata, if_true, Exec.pure_eq, Except.ok.injEq, Prod.mk.injEq] at hrun
    rcases hrun with ⟨rfl, rfl⟩
    exact ⟨ns, fs, h⟩
  · by_cases hrec : link.recover = 0
    · rcases hserves.mpalloc sizeofLinkNode h.linked.good with
        ⟨node, pool, hcall, hgood, ⟨rfl, hsame⟩ | ⟨hnode, -, -, hfresh, hnew⟩⟩
      · rw [smpLinkInsert_refused hdata hrec hcall, Except.ok.injEq, Prod.mk.injEq] at hrun
        rcases hrun with ⟨rfl, rfl⟩
        exact ⟨ns, fs, { h.linked with good := hgood, block := hsame ▸ h.linked.block }, h.nonnull,
          h.stored⟩
      · rw [smpLinkInsert_take hdata hrec hcall hnode, Except.ok.injEq, Prod.mk.injEq] at hrun
        rcases hrun with ⟨rfl, rfl⟩
        rcases fs with _ | ⟨a, fs⟩
        · have htake := h.linked.take hgood hfresh hnew
          have hout : ∀ n ∈ ns, n ≠ node := fun n hn => htake.ne_of_mem hn (by simp)
          refine ⟨_, _, inserted hserves htake (by simp) ?_ ?_ hdata⟩
          · have hkeep : elements (takeNode link node pool) ns = elements link ns := by
              refine List.map_congr_left fun n hn => ?_
              simp [takeNode, hout n hn]
            exact hkeep ▸ h.nonnull
          · intro n hn
            rw [Op.stored, if_neg hnode]
            rcases List.mem_append.mp hn with hn | hn
            · exact List.mem_cons_of_mem _ (h.mem_live hn)
            · rw [List.mem_singleton.mp hn]
              exact List.mem_cons_self
        · exact absurd (h.linked.recover.1.symm.trans hrec) h.linked.recover.2.1
    · rw [smpLinkInsert_reuse hdata hrec, Except.ok.injEq, Prod.mk.injEq] at hrun
      rcases hrun with ⟨rfl, rfl⟩
      rcases fs with _ | ⟨a, fs⟩
      · exact absurd h.linked.recover hrec
      · have hhead : link.recover = a := h.linked.recover.1
        have hreuse : Linked Good blocks (reuseNode link) ns fs [a] := by
          rw [reuseNode, hhead]
          exact h.linked.reuse
        rw [hhead]
        refine ⟨_, _, inserted hserves hreuse (by simp [reuseNode, hhead]) ?_ ?_ hdata⟩
        · have hkeep : elements (reuseNode link) ns = elements link ns := by
            simp [elements, reuseNode]
          exact hkeep ▸ h.nonnull
        · intro n hn
          rw [Op.stored, if_neg (show a ≠ NULL from hhead ▸ hrec)]
          exact List.mem_cons_of_mem _ (h.stored n hn)

/-- Every operation keeps the stored pointers. -/
theorem step (hserves : calls.Serves Good blocks) (h : Traced Good blocks link ns fs S) {op : Op}
    {r : VoidPtr} (hrun : op.run calls fuel link = .ok (r, link')) :
    ∃ ns' fs', Traced Good blocks link' ns' fs' (op.stored r S) := by
  by_cases hop : ∃ data, op = .insert data
  · rcases hop with ⟨data, rfl⟩
    exact h.insert_traced hserves hrun
  · have hstored : op.stored r S = S := by
      cases op with
      | insert data => exact absurd ⟨data, rfl⟩ hop
      | _ => rfl
    rw [hstored]
    rcases removal_cases h.linked (fun data heq => hop ⟨data, heq⟩) hrun with
      rfl | ⟨s, node, t, rfl, rfl⟩
    · exact ⟨ns, fs, h⟩
    · exact ⟨_, _, h.removed hserves⟩

end Traced

/-! ## Runs -/

/-- Run a sequence of operations: what each returns, with the size after it. -/
def runOps (calls : PoolCalls π) (fuel : Nat) :
    List Op → SmpLink π → Exec (List (VoidPtr × Nat) × SmpLink π)
  | [], link => .ok ([], link)
  | op :: ops, link => do
      let (r, link) ← op.run calls fuel link
      let (rest, last) ← runOps calls fuel ops link
      return ((r, smpLinkSize link) :: rest, last)

/-- What a sequence of operations returns on a new link whose memory held {lit}`raw`. -/
def outcomes (calls : PoolCalls π) (w : π) (raw : Contents) (freeFunc : VoidPtr) (fuel : Nat)
    (ops : List Op) : Exec (Option (List (VoidPtr × Nat))) := do
  let (link, _) ← smpLinkInit calls w raw freeFunc
  match link with
  | none => return none
  | some link => do
      let (returned, _) ← runOps calls fuel ops link
      return some returned

/-- The links of all runs on memory that held {lit}`raw`, with the pointers to nodes that the
operations have stored so far. -/
inductive Stored (calls : PoolCalls π) (w : π) (raw : Contents) (freeFunc : VoidPtr) :
    SmpLink π → List Nat → Prop where
  | init {link : SmpLink π} {w' : π} : smpLinkInit calls w raw freeFunc = .ok (some link, w') →
      Stored calls w raw freeFunc link []
  | step {link link' : SmpLink π} {S : List Nat} {op : Op} {fuel : Nat} {r : VoidPtr} :
      Stored calls w raw freeFunc link S → op.run calls fuel link = .ok (r, link') →
      Stored calls w raw freeFunc link' (op.stored r S)

/-- In every run on memory that held {lit}`raw` the operations follow only stored pointers. -/
def FollowsStored (calls : PoolCalls π) (w : π) (raw : Contents) (freeFunc : VoidPtr) : Prop :=
  ∀ link S, Stored calls w raw freeFunc link S → Confined calls link S

/-- The behaviour of a link does not depend on which of two contents its memory held: all
sequences of operations return the same, and follow only stored pointers. -/
def Independent (calls : PoolCalls π) (w : π) (raw₁ raw₂ : Contents) (freeFunc : VoidPtr) : Prop :=
  (∀ fuel ops, outcomes calls w raw₁ freeFunc fuel ops = outcomes calls w raw₂ freeFunc fuel ops) ∧
    FollowsStored calls w raw₁ freeFunc ∧ FollowsStored calls w raw₂ freeFunc

/-- Other contents away from the nodes do not change what a sequence of operations returns. -/
theorem Traced.runOps_graft (hserves : calls.Serves Good blocks)
    (h : Traced Good blocks link ns fs S) (ops : List Op) :
    (runOps calls fuel ops (graft S m link)).map Prod.fst =
      (runOps calls fuel ops link).map Prod.fst := by
  induction ops generalizing link ns fs S with
  | nil => rfl
  | cons op ops ih =>
      have hconfined := h.confined hserves op fuel m
      simp only [runOps, hconfined]
      cases hrun : op.run calls fuel link with
      | error e => rfl
      | ok res =>
          rcases res with ⟨r, link'⟩
          rcases h.step hserves hrun with ⟨ns', fs', h'⟩
          have hrest := ih h'
          simp only [Except.map, Exec.ok_bind] at hrest ⊢
          cases hleft : runOps calls fuel ops (graft (op.stored r S) m link') <;>
            cases hright : runOps calls fuel ops link' <;>
            simp_all [smpLinkSize, graft, pure, Except.pure]

/-- What `smp_link_init` finds in memory stays there. -/
theorem smpLinkInit_contents {w w' : π} {raw : Contents} {freeFunc : VoidPtr}
    (hinit : smpLinkInit calls w raw freeFunc = .ok (some link, w')) (raw' : Contents) :
    link.recover = raw.recover ∧ smpLinkInit calls w raw' freeFunc =
      .ok (some { link with recover := raw'.recover, mem := raw'.mem }, w') := by
  unfold smpLinkInit at hinit ⊢
  rcases Exec.bind_eq_ok.mp hinit with ⟨⟨created, w₁⟩, hcreate, hinit⟩
  rw [hcreate]
  cases created with
  | false => simp at hinit
  | true =>
      simp only [not_true_eq_false, if_false, Exec.ok_bind] at hinit ⊢
      rcases Exec.bind_eq_ok.mp hinit with ⟨⟨node, w₂⟩, hcall, hinit⟩
      rw [hcall]
      by_cases hnull : node = NULL
      · simp only [if_pos hnull] at hinit
        rcases Exec.bind_eq_ok.mp hinit with ⟨w₃, -, hnone⟩
        simp at hnone
      · simp only [if_neg hnull, Exec.pure_eq, Except.ok.injEq, Prod.mk.injEq,
          Option.some.injEq] at hinit
        rcases hinit with ⟨rfl, rfl⟩
        simp [hnull]

/-- A link that finds a null {lit}`recover` follows only stored pointers. -/
theorem followsStored_of_null (hserves : calls.Serves Good blocks) {w : π} (hw : Good w)
    {raw : Contents} {freeFunc : VoidPtr} (hraw : raw.recover = 0) :
    FollowsStored calls w raw freeFunc := by
  intro link S h
  have htraced : ∃ ns fs, Traced Good blocks link ns fs S := by
    induction h with
    | init hinit =>
        exact ⟨[], [], smpLinkInit_linked hserves hw hraw hinit, by simp [elements], by simp⟩
    | step _ hrun ih =>
        rcases ih with ⟨ns, fs, htraced⟩
        exact htraced.step hserves hrun
  rcases htraced with ⟨ns, fs, htraced⟩
  exact htraced.confined hserves

/-- A link that finds a non-null {lit}`recover` hands it to the first insertion, which reads
the next recycled node from there. -/
theorem null_of_followsStored {w w' : π} {raw : Contents} {freeFunc : VoidPtr}
    (hinit : smpLinkInit calls w raw freeFunc = .ok (some link, w'))
    (h : FollowsStored calls w raw freeFunc) : raw.recover = 0 := by
  by_contra hraw
  have hrec : link.recover ≠ 0 := by
    rw [(smpLinkInit_contents hinit raw).1]
    exact hraw
  -- the insertion stores as new `recover` what it reads at the old one
  have hread : ∀ l : SmpLink π, l.recover ≠ 0 → ((Op.insert 1).run calls 0 l).map
      (fun p => p.2.recover) = .ok (l.mem l.recover).next := by
    intro l hl
    have hdata : (1 : VoidPtr) ≠ NULL := by decide
    have hnext : ((linkInsert (reuseNode l) l.recover).setData l.recover 1).recover =
        (l.mem l.recover).next := by
      unfold linkInsert
      split_ifs <;> simp [reuseNode]
    rw [Op.run, smpLinkInsert_reuse hdata hl, Except.map, hnext]
  let m : Nat → LinkNode := fun _ => ⟨(link.mem link.recover).next + 1, 0, 0⟩
  have hconfined := h link [] (.init hinit) (.insert 1) 0 m
  have hgraft : (graft [] m link).recover ≠ 0 := hrec
  have hleft := hread _ hgraft
  have hright := hread _ hrec
  rw [hconfined] at hleft
  cases hrun : (Op.insert 1).run calls 0 link with
  | error e => simp [hrun, Except.map] at hright
  | ok res =>
      simp only [hrun, Except.map, Except.ok.injEq] at hleft hright
      have hsame : (graft ((Op.insert 1).stored res.1 []) m res.2).recover = res.2.recover := rfl
      rw [hsame, hright] at hleft
      simp [graft, m] at hleft

/-- The behaviour of a link is independent of two contents of its memory exactly when both
have a null {lit}`recover`, the one field that `smp_link_init` does not store. -/
theorem independent_iff (hserves : calls.Serves Good blocks) {w w₁ : π} (hw : Good w)
    {raw₁ raw₂ : Contents} {freeFunc : VoidPtr}
    (hinit : smpLinkInit calls w raw₁ freeFunc = .ok (some link, w₁)) :
    Independent calls w raw₁ raw₂ freeFunc ↔ raw₁.recover = 0 ∧ raw₂.recover = 0 := by
  rcases smpLinkInit_contents hinit raw₂ with ⟨hrec, hinit₂⟩
  constructor
  · rintro ⟨-, h₁, h₂⟩
    exact ⟨null_of_followsStored hinit h₁, null_of_followsStored hinit₂ h₂⟩
  · rintro ⟨hraw₁, hraw₂⟩
    refine ⟨fun fuel ops => ?_, followsStored_of_null hserves hw hraw₁,
      followsStored_of_null hserves hw hraw₂⟩
    have htraced : Traced Good blocks link [] [] [] :=
      ⟨smpLinkInit_linked hserves hw hraw₁ hinit, by simp [elements], by simp⟩
    have hgraft : ({ link with recover := raw₂.recover, mem := raw₂.mem } : SmpLink π) =
        graft [] raw₂.mem link := by
      simp [graft, hrec, hraw₁, hraw₂]
    have hrest : (runOps calls fuel ops (graft [] raw₂.mem link)).map Prod.fst = _ :=
      htraced.runOps_graft hserves ops
    rw [← hgraft] at hrest
    simp only [outcomes, hinit, hinit₂, Exec.ok_bind]
    cases hleft : runOps calls fuel ops link <;>
      cases hright : runOps calls fuel ops
        { link with recover := raw₂.recover, mem := raw₂.mem } <;>
      simp_all [Except.map]

/-- Two links whose memory held different contents, both with a null {lit}`recover`. -/
theorem independent_iff_sample : Independent bumpPool [] ⟨0, fun _ => ⟨0, 0, 0⟩⟩
    ⟨0, fun _ => ⟨5, 6, 7⟩⟩ NULL :=
  (independent_iff bumpPool_serves Trace.nil rfl).mpr ⟨rfl, rfl⟩

/-- On memory whose {lit}`recover` reads 5 the first node of a link is not one of the pool. -/
theorem not_independent_dirty : ¬ Independent bumpPool [] ⟨0, fun _ => ⟨0, 0, 0⟩⟩
    ⟨5, fun _ => ⟨0, 0, 0⟩⟩ NULL := by
  intro h
  have hsame := h.1 0 [.insert 9]
  have hclean : outcomes bumpPool [] ⟨0, fun _ => ⟨0, 0, 0⟩⟩ NULL 0 [.insert 9] =
      .ok (some [(160, 1)]) := rfl
  have hdirty : outcomes bumpPool [] ⟨5, fun _ => ⟨0, 0, 0⟩⟩ NULL 0 [.insert 9] =
      .ok (some [(5, 1)]) := rfl
  rw [hclean, hdirty] at hsame
  simp at hsame

end Link
end Smpcil
