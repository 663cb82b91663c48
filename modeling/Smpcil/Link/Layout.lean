import Smpcil.Link.Model
import Smpcil.Foundations.Chain
import Mathlib.Data.List.Perm.Subperm

/-!
# The chains of a link

The invariant of a link: the live chain, linked both ways, the chain of recycled nodes,
and the nodes that an operation holds while it moves them from one to the other.

Main results:

- Definition {lit}`Linked`: the invariant.
- Theorems {lit}`Linked.create`, {lit}`Linked.append`, {lit}`Linked.remove` and
  {lit}`Linked.recycle`: the four moves of a node.
-/

namespace Smpcil
namespace Link

open Allocator Chains

variable {π : Type}

/-! ## Stores -/

namespace SmpLink

variable (link : SmpLink π) (n v m : Nat)

@[simp] theorem setNext_next :
    ((link.setNext n v).mem m).next = if m = n then v else (link.mem m).next := by
  by_cases h : m = n <;> simp [setNext, h]

@[simp] theorem setNext_prev : ((link.setNext n v).mem m).prev = (link.mem m).prev := by
  by_cases h : m = n <;> simp [setNext, h]

@[simp] theorem setNext_data : ((link.setNext n v).mem m).data = (link.mem m).data := by
  by_cases h : m = n <;> simp [setNext, h]

@[simp] theorem setPrev_next : ((link.setPrev n v).mem m).next = (link.mem m).next := by
  by_cases h : m = n <;> simp [setPrev, h]

@[simp] theorem setPrev_prev :
    ((link.setPrev n v).mem m).prev = if m = n then v else (link.mem m).prev := by
  by_cases h : m = n <;> simp [setPrev, h]

@[simp] theorem setPrev_data : ((link.setPrev n v).mem m).data = (link.mem m).data := by
  by_cases h : m = n <;> simp [setPrev, h]

@[simp] theorem setData_next : ((link.setData n v).mem m).next = (link.mem m).next := by
  by_cases h : m = n <;> simp [setData, h]

@[simp] theorem setData_prev : ((link.setData n v).mem m).prev = (link.mem m).prev := by
  by_cases h : m = n <;> simp [setData, h]

@[simp] theorem setData_data :
    ((link.setData n v).mem m).data = if m = n then v else (link.mem m).data := by
  by_cases h : m = n <;> simp [setData, h]

end SmpLink

/-! ## The invariant -/

/-- The link has the live nodes {lit}`ns` in order and the recycled nodes {lit}`fs`, and an
operation holds the nodes {lit}`hs`. -/
structure Linked (Good : π → Prop) (blocks : π → List Block) (link : SmpLink π)
    (ns fs hs : List Nat) : Prop where
  good : Good link.pool
  next : Chain (fun n => (link.mem n).next) link.node ns
  prev : Chain (fun n => (link.mem n).prev) link.tail ns.reverse
  size : link.size = ns.length
  recover : Chain (fun n => (link.mem n).next) link.recover fs
  clean : ∀ n ∈ fs ++ hs, (link.mem n).prev = 0
  nodup : (ns ++ (fs ++ hs)).Nodup
  taken : link.taken = (ns ++ (fs ++ hs)).length
  block : ∀ n ∈ ns ++ (fs ++ hs), ⟨n, sizeofLinkNode⟩ ∈ blocks link.pool

variable {calls : PoolCalls π} {Good : π → Prop} {blocks : π → List Block}
variable {link : SmpLink π} {ns fs hs s t : List Nat} {node : Nat}

namespace Linked

/-- Stores that move nodes between the chains. -/
theorem move (h : Linked Good blocks link ns fs hs) {link' : SmpLink π} {ns' fs' hs' : List Nat}
    (hperm : (ns' ++ (fs' ++ hs')).Perm (ns ++ (fs ++ hs))) (hpool : link'.pool = link.pool)
    (htaken : link'.taken = link.taken)
    (hnext : Chain (fun n => (link'.mem n).next) link'.node ns')
    (hprev : Chain (fun n => (link'.mem n).prev) link'.tail ns'.reverse)
    (hsize : link'.size = ns'.length)
    (hrecover : Chain (fun n => (link'.mem n).next) link'.recover fs')
    (hclean : ∀ n ∈ fs' ++ hs', (link'.mem n).prev = 0) : Linked Good blocks link' ns' fs' hs' := by
  constructor
  case good => exact hpool ▸ h.good
  case next => exact hnext
  case prev => exact hprev
  case size => exact hsize
  case recover => exact hrecover
  case clean => exact hclean
  case nodup => exact hperm.nodup_iff.mpr h.nodup
  case taken => rw [htaken, h.taken, hperm.length_eq]
  case block =>
    intro n hn
    rw [hpool]
    exact h.block n (hperm.mem_iff.mp hn)

/-- The live nodes and the others are different. -/
theorem ne_of_mem (h : Linked Good blocks link ns fs hs) {a b : Nat} (ha : a ∈ ns)
    (hb : b ∈ fs ++ hs) : a ≠ b :=
  (List.nodup_append.mp h.nodup).2.2 a ha b hb

theorem nodup_live (h : Linked Good blocks link ns fs hs) : ns.Nodup :=
  (List.nodup_append.mp h.nodup).1

theorem nodup_free (h : Linked Good blocks link ns fs hs) : (fs ++ hs).Nodup :=
  (List.nodup_append.mp h.nodup).2.1

/-- All nodes are different addresses below the end of the address space. -/
theorem length_lt (hserves : calls.Serves Good blocks) (h : Linked Good blocks link ns fs hs) :
    (ns ++ (fs ++ hs)).length < 2 ^ 64 - 1 := by
  have hsub : ns ++ (fs ++ hs) ⊆ List.range (2 ^ 47) := by
    intro n hn
    have hbound := (hserves.bounded h.good _ (h.block n hn)).2
    unfold PoolCalls.bound sizeofLinkNode at hbound
    simp only at hbound
    rw [List.mem_range]
    omega
  have hlen := (List.subperm_of_subset h.nodup hsub).length_le
  rw [List.length_range] at hlen
  omega

/-! ## Taking a node -/

/-- The first recycled node is taken for a new element. -/
theorem reuse (h : Linked Good blocks link ns (node :: fs) []) :
    Linked Good blocks
      (SmpLink.setNext { link with recover := (link.mem node).next } node 0) ns fs [node] := by
  have hrest := h.recover.2.2
  have hfree := h.nodup_free
  rw [List.cons_append, List.nodup_cons, List.append_nil] at hfree
  have hns : ∀ n ∈ ns, n ≠ node := fun n hn => h.ne_of_mem hn (by simp)
  have hfs : ∀ n ∈ fs, n ≠ node := fun n hn heq => hfree.1 (heq ▸ hn)
  apply h.move
  case hperm =>
    refine List.Perm.append_left ns ?_
    rw [List.append_nil]
    exact List.perm_append_singleton node fs
  case hpool => rfl
  case htaken => rfl
  case hnext => exact h.next.congr fun n hn => by simp [hns n hn]
  case hprev => exact h.prev.congr fun n hn => by simp
  case hsize => exact h.size
  case hrecover => exact hrest.congr fun n hn => by simp [hfs n hn]
  case hclean =>
    intro n hn
    have hclean := h.clean n (by
      rw [List.append_nil]
      exact (List.perm_append_singleton node fs).mem_iff.mp hn)
    simpa using hclean

/-- A node from the pool is taken for a new element. -/
theorem take (h : Linked Good blocks link ns [] []) {pool : π} (hgood : Good pool)
    (hfresh : ∀ b ∈ blocks link.pool, Apart ⟨node, sizeofLinkNode⟩ b)
    (hnew : blocks pool = ⟨node, sizeofLinkNode⟩ :: blocks link.pool) :
    Linked Good blocks
      (((SmpLink.setData { link with pool := pool, taken := link.taken + 1 } node NULL).setPrev
        node 0).setNext node 0) ns [] [node] := by
  have hns : ∀ n ∈ ns, n ≠ node := by
    rintro n hn rfl
    have happ := hfresh _ (h.block n (by simp [hn]))
    unfold Apart sizeofLinkNode at happ
    simp only at happ
    omega
  have hnodup : ns.Nodup := h.nodup_live
  constructor
  case good => exact hgood
  case next => exact h.next.congr fun n hn => by simp [hns n hn]
  case prev => exact h.prev.congr fun n hn => by simp [hns n (List.mem_reverse.mp hn)]
  case size => exact h.size
  case recover =>
    have hnull : link.recover = 0 := h.recover
    exact hnull
  case clean => simp
  case nodup =>
    rw [List.nil_append, List.nodup_append]
    exact ⟨hnodup, by simp, by simpa using hns⟩
  case taken =>
    have htaken := h.taken
    simp only [List.append_nil] at htaken
    simp [SmpLink.setNext, SmpLink.setPrev, SmpLink.setData, htaken]
  case block =>
    intro n hn
    change _ ∈ blocks pool
    rw [hnew]
    rcases List.mem_append.mp hn with hn | hn
    · exact List.mem_cons_of_mem _ (h.block n (by simp [hn]))
    · simp at hn
      simp [hn]

/-! ## Appending and removing -/

/-- The node in hand becomes the last live node. -/
theorem append (hserves : calls.Serves Good blocks) (h : Linked Good blocks link ns fs [node])
    (hnull : (link.mem node).next = 0) :
    Linked Good blocks (linkInsert link node) (ns ++ [node]) fs [] := by
  have hlen := h.length_lt hserves
  have hsize : (link.size + 1) % 2 ^ 64 = (ns ++ [node]).length := by
    rw [h.size, List.length_append, List.length_singleton]
    apply Nat.mod_eq_of_lt
    simp only [List.length_append] at hlen
    omega
  have hne : node ≠ 0 :=
    (hserves.bounded h.good _ (h.block node (by simp))).1
  have hns : ∀ n ∈ ns, n ≠ node := fun n hn => h.ne_of_mem hn (by simp)
  have hfs : ∀ n ∈ fs, n ≠ node := by
    rintro n hn rfl
    exact (List.nodup_append.mp h.nodup_free).2.2 n hn n (by simp) rfl
  have hprev₀ := h.clean node (by simp)
  have hperm : (ns ++ [node] ++ (fs ++ [])).Perm (ns ++ (fs ++ [node])) := by
    rw [List.append_nil, List.append_assoc]
    exact List.Perm.append_left ns List.perm_append_comm
  rcases List.eq_nil_or_concat ns with rfl | ⟨s, a, hs⟩
  · have hempty : link.node = 0 := h.next
    apply h.move hperm
    all_goals simp only [linkInsert, hempty, if_true]
    case hnext => exact ⟨rfl, hne, hnull⟩
    case hprev => exact ⟨rfl, hne, hprev₀⟩
    case hsize => exact hsize
    case hrecover => exact h.recover
    case hclean =>
      intro n hn
      exact h.clean n (by
        rw [List.append_nil] at hn
        exact List.mem_append_left _ hn)
  · rw [List.concat_eq_append] at hs
    subst hs
    have htail : link.tail = a := by
      have hhead := h.prev.head_eq
      simpa using hhead
    have ha : a ∈ s ++ [a] := by simp
    have hfirst : link.node ≠ 0 := by
      intro h₀
      have hnext := h.next
      rw [h₀] at hnext
      simpa using hnext.eq_nil
    have hnodup := List.nodup_append.mp h.nodup_live
    apply h.move hperm
    all_goals simp only [linkInsert, hfirst, if_false, htail]
    case hpool => rfl
    case htaken => rfl
    case hnext =>
      rw [List.append_assoc]
      refine h.next.snoc hne ?_ ?_ ?_
      · intro c hc
        have hca : c ≠ a := hnodup.2.2 c hc a (by simp)
        simp [hca]
      · simp
      · simp [(hns a ha).symm, hnull]
    case hprev =>
      have hold := h.prev
      rw [htail] at hold
      rw [List.reverse_append, List.reverse_singleton, List.singleton_append]
      refine ⟨rfl, hne, ?_⟩
      simp only [SmpLink.setPrev_prev, if_true]
      exact hold.congr fun n hn => by simp [hns n (List.mem_reverse.mp hn)]
    case hsize => exact hsize
    case hrecover =>
      refine h.recover.congr fun n hn => ?_
      have hna : n ≠ a := fun heq => h.ne_of_mem ha (List.mem_append_left _ hn) heq.symm
      simp [hna]
    case hclean =>
      intro n hn
      rw [List.append_nil] at hn
      simp [hfs n hn, h.clean n (List.mem_append_left _ hn)]

/-- Storing the data of a node moves no node. -/
theorem setData (h : Linked Good blocks link ns fs hs) (n : Nat) (v : VoidPtr) :
    Linked Good blocks (link.setData n v) ns fs hs := by
  apply h.move (List.Perm.refl _)
  case hpool => rfl
  case htaken => rfl
  case hnext => exact h.next.congr fun m _ => link.setData_next n v m
  case hprev => exact h.prev.congr fun m _ => link.setData_prev n v m
  case hsize => exact h.size
  case hrecover => exact h.recover.congr fun m _ => link.setData_next n v m
  case hclean =>
    intro m hm
    rw [SmpLink.setData_prev]
    exact h.clean m hm

/-- Where a live node stands, seen from both ends. -/
theorem neighbours (h : Linked Good blocks link (s ++ node :: t) fs hs) :
    (link.mem node).next = t.headD 0 ∧ (link.mem node).prev = s.reverse.headD 0 ∧
      link.node = (s ++ node :: t).headD 0 ∧
      link.tail = (t.reverse ++ node :: s.reverse).headD 0 := by
  have hprev := h.prev
  rw [List.reverse_append, List.reverse_cons, List.append_assoc, List.singleton_append] at hprev
  exact ⟨h.next.next_eq, hprev.next_eq, h.next.head_eq, hprev.head_eq⟩

theorem decSize_eq (h : Linked Good blocks link (s ++ node :: t) fs hs) :
    (decSize link).size = (s ++ t).length := by
  rw [decSize, h.size]
  simp

/-- What `smp_link_rm_node` does to the links of the other nodes. -/
structure RmNode (link link' : SmpLink π) (node : Nat) (s t : List Nat) : Prop where
  next : ∀ n, n ≠ node → (link'.mem n).next =
    if s.getLast? = some n then (link.mem node).next else (link.mem n).next
  prev : ∀ n, n ≠ node → (link'.mem n).prev =
    if t.head? = some n then (link.mem node).prev else (link.mem n).prev
  next_node : (link'.mem node).next = 0
  prev_node : (link'.mem node).prev = 0
  node : link'.node = (s ++ t).headD 0
  tail : link'.tail = (t.reverse ++ s.reverse).headD 0

/-- Each end of the chain and its middle have a case of their own. -/
theorem rmNode_fields (h : Linked Good blocks link (s ++ node :: t) fs []) :
    RmNode link (smpLinkRmNode link node) node s t := by
  rcases h.neighbours with ⟨hnextNode, hprevNode, hfirst, hlast⟩
  have hnodup := List.nodup_append.mp h.nodup_live
  have hs : ∀ n ∈ s, n ≠ node := fun n hn => hnodup.2.2 n hn node (by simp)
  have ht : ∀ n ∈ t, n ≠ node := by
    rintro n hn rfl
    exact (List.nodup_cons.mp hnodup.2.1).1 hn
  rcases List.eq_nil_or_concat s with rfl | ⟨s', a, hs'⟩
  · have hhead : link.node = node := hfirst
    cases t with
    | nil =>
        simp only [List.headD_nil] at hnextNode
        constructor
        all_goals simp +contextual [smpLinkRmNode, hhead, hnextNode]
    | cons c t =>
        have hc : c ≠ 0 := h.next.ne_zero (by simp)
        have hcn : c ≠ node := ht c (by simp)
        simp only [List.headD_cons] at hnextNode
        simp only [List.reverse_nil, List.headD_nil] at hprevNode
        constructor
        all_goals simp +contextual [smpLinkRmNode, hhead, hnextNode, hprevNode, hc]
        case prev =>
          intro n _
          simp [eq_comm]
        case tail =>
          rw [hlast]
          cases t.reverse <;> simp
  · rw [List.concat_eq_append] at hs'
    subst hs'
    have han : a ≠ node := hs a (by simp)
    have hhead : node ≠ link.node := by
      rw [hfirst]
      cases s' with
      | nil => exact han.symm
      | cons b s' => exact (hs b (by simp)).symm
    have hprevA : (link.mem node).prev = a := by simpa using hprevNode
    cases t with
    | nil =>
        have htail : link.tail = node := by simpa using hlast
        simp only [List.headD_nil] at hnextNode
        constructor
        all_goals simp +contextual [smpLinkRmNode, hhead, htail, hprevA, hnextNode]
        case next =>
          intro n _
          simp [eq_comm]
        case node =>
          rw [hfirst]
          cases s' <;> simp
    | cons c t =>
        have htail : node ≠ link.tail := by
          rw [hlast, List.reverse_cons]
          cases hrev : t.reverse with
          | nil => exact (ht c (by simp)).symm
          | cons b u =>
              have hb : b ∈ t := by
                rw [← List.mem_reverse, hrev]
                simp
              exact (ht b (by simp [hb])).symm
        constructor
        all_goals simp +contextual [smpLinkRmNode, hhead, htail, hprevA, hnextNode]
        case next =>
          intro n _
          simp [eq_comm]
        case prev =>
          intro n _
          simp [eq_comm]
        case node =>
          rw [hfirst]
          cases s' <;> simp
        case tail =>
          rw [hlast, List.reverse_cons]
          cases hrev : t.reverse with
          | nil => simp [List.reverse_eq_nil_iff.mp hrev]
          | cons b u => simp [← List.head?_reverse, hrev]

/-- A live node is taken out. -/
theorem remove (h : Linked Good blocks link (s ++ node :: t) fs []) :
    Linked Good blocks (smpLinkRmNode link node) (s ++ t) fs [node] := by
  have hrm := h.rmNode_fields
  have hnodup := List.nodup_append.mp h.nodup_live
  have hlive : ∀ n ∈ s ++ t, n ≠ node := by
    intro n hn heq
    have hmid := (List.perm_middle.nodup_iff.mp h.nodup_live)
    exact (List.nodup_cons.mp hmid).1 (heq ▸ hn)
  have hfree : ∀ n ∈ fs, n ∉ s ++ node :: t := fun n hn hmem =>
    h.ne_of_mem hmem (List.mem_append_left _ hn) rfl
  have hprev := h.prev
  rw [List.reverse_append, List.reverse_cons, List.append_assoc, List.singleton_append] at hprev
  apply h.move
  case hperm =>
    rw [List.append_nil, ← List.append_assoc]
    refine (List.perm_append_singleton node (s ++ t ++ fs)).trans ?_
    rw [← List.cons_append]
    exact List.Perm.append_right fs List.perm_middle.symm
  case hpool =>
    unfold smpLinkRmNode
    split_ifs <;> simp
  case htaken =>
    unfold smpLinkRmNode
    split_ifs <;> simp
  case hnext =>
    rw [hrm.node]
    exact h.next.unlink fun n hn => hrm.next n (hlive n hn)
  case hprev =>
    rw [hrm.tail, List.reverse_append]
    refine hprev.unlink fun n hn => ?_
    rw [List.getLast?_reverse]
    exact hrm.prev n (hlive n (by simpa [or_comm] using hn))
  case hsize =>
    rw [← h.decSize_eq]
    unfold smpLinkRmNode
    split_ifs <;> simp [decSize]
  case hrecover =>
    have hsame : (smpLinkRmNode link node).recover = link.recover := by
      unfold smpLinkRmNode
      split_ifs <;> simp
    rw [hsame]
    refine h.recover.congr fun n hn => ?_
    have hout := hfree n hn
    have hne : n ≠ node := fun heq => hout (by simp [heq])
    rw [hrm.next n hne, if_neg]
    intro hlast
    exact hout (List.mem_append_left _ (List.mem_of_getLast? hlast))
  case hclean =>
    intro n hn
    rcases List.mem_append.mp hn with hn | hn
    · have hout := hfree n hn
      have hne : n ≠ node := fun heq => hout (by simp [heq])
      rw [hrm.prev n hne, if_neg]
      · exact h.clean n (by simp [hn])
      · intro hhead
        exact hout (by simp [List.mem_of_head? hhead])
    · rw [List.mem_singleton.mp hn]
      exact hrm.prev_node

/-- The data of the nodes stays while a node is taken out. -/
theorem remove_data (link : SmpLink π) (node n : Nat) :
    ((smpLinkRmNode link node).mem n).data = (link.mem n).data := by
  unfold smpLinkRmNode decSize
  split_ifs
  all_goals simp

/-- The node in hand becomes the first recycled node. -/
theorem recycle (hserves : calls.Serves Good blocks) (h : Linked Good blocks link ns fs [node]) :
    Linked Good blocks (smpLinkNodeRecover link node) ns (node :: fs) [] := by
  have hne : node ≠ 0 := (hserves.bounded h.good _ (h.block node (by simp))).1
  have hns : ∀ n ∈ ns, n ≠ node := fun n hn => h.ne_of_mem hn (by simp)
  have hfs : ∀ n ∈ fs, n ≠ node := by
    rintro n hn rfl
    exact (List.nodup_append.mp h.nodup_free).2.2 n hn n (by simp) rfl
  -- with an empty chain the link of the new node is null as well
  have hmem : ∀ n, ((smpLinkNodeRecover link node).mem n).next =
      if n = node then link.recover else (link.mem n).next := by
    intro n
    by_cases hnull : link.recover = 0 <;> by_cases heq : n = node <;>
      simp [smpLinkNodeRecover, hnull, heq]
  have hprev : ∀ n, ((smpLinkNodeRecover link node).mem n).prev =
      if n = node then 0 else (link.mem n).prev := by
    intro n
    by_cases hnull : link.recover = 0 <;> simp [smpLinkNodeRecover, hnull]
  have hfields : (smpLinkNodeRecover link node).node = link.node ∧
      (smpLinkNodeRecover link node).tail = link.tail ∧
      (smpLinkNodeRecover link node).size = link.size ∧
      (smpLinkNodeRecover link node).pool = link.pool ∧
      (smpLinkNodeRecover link node).taken = link.taken ∧
      (smpLinkNodeRecover link node).recover = node := by
    by_cases hnull : link.recover = 0 <;> simp [smpLinkNodeRecover, hnull]
  rcases hfields with ⟨hnode, htail, hsize, hpool, htaken, hrecover⟩
  apply h.move
  case hperm =>
    rw [List.append_nil]
    exact List.Perm.append_left ns (List.perm_append_singleton node fs).symm
  case hpool => exact hpool
  case htaken => exact htaken
  case hnext =>
    rw [hnode]
    exact h.next.congr fun n hn => by rw [hmem, if_neg (hns n hn)]
  case hprev =>
    rw [htail]
    exact h.prev.congr fun n hn => by rw [hprev, if_neg (hns n (List.mem_reverse.mp hn))]
  case hsize => exact hsize.trans h.size
  case hrecover =>
    rw [hrecover]
    refine ⟨rfl, hne, ?_⟩
    simp only [hmem, if_true]
    exact h.recover.congr fun n hn => if_neg (hfs n hn)
  case hclean =>
    intro n hn
    rw [hprev]
    split_ifs with heq
    · rfl
    · exact h.clean n (by
        rw [List.append_nil, List.mem_cons] at hn
        exact List.mem_append_left _ (hn.resolve_left heq))

/-- Recycling a node clears its data and leaves that of all others. -/
theorem recycle_data (link : SmpLink π) (node n : Nat) :
    ((smpLinkNodeRecover link node).mem n).data = if n = node then NULL else (link.mem n).data := by
  by_cases hnull : link.recover = 0 <;> simp [smpLinkNodeRecover, hnull]

end Linked

end Link
end Smpcil
