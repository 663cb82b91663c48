import Smpcil.Teardown.Correctness

/-!
# Who owns the nodes of a tree

A node is made with a key, put into the tree, handed back or freed, and the tree is torn down
at the end.  A removal may hand back another struct than the one it was asked for, with the
two keys exchanged; nodes and keys are each accounted for as a whole.

Main results:

- Definition {lit}`Owned`: the runs, with the nodes that the caller holds, all nodes made with
  their keys, and the calls of `free`.
- Theorem {lit}`Owned.balance`: every node and every key is in the tree, held or freed, once.
- Theorem {lit}`tree_whole_life`: after the teardown every node and key is held or freed, once.
-/

namespace Smpcil
namespace Teardown

open RedBlack KeyOrder
open RbTree hiding Event
open Queue (QNode Heap Answers Event)

variable {keyCmp : VoidPtr → VoidPtr → Int} {freeKey : KeyFree} {rbt rbt' : Rbt}
  {t t' : Tree Ptr} {held : List Nat} {born : List (Nat × VoidPtr)} {log : List Event}

/-! ## Runs -/

/-- What is recorded when a node at the address with this key is freed. -/
def freedBy (freeKey : KeyFree) (gone : Ptr × VoidPtr) : List Event :=
  (if gone.2 ≠ NULL then [.freeData freeKey.addr gone.2] else []) ++ [.free .rnode (toVoid gone.1)]

/-- The node that a removal hands back. -/
def handed : Ptr → List Nat
  | .node a => [a]
  | _ => []

/-- The runs of the program on a tree: the nodes that the caller holds, all nodes made, with the
keys given to them, and what was freed.  A new node is none of those in use, the caller inserts
and frees nodes that it holds, and asks only for nodes of the tree to be removed.  Every call
starts a log of its own: the address of a freed node may be used again. -/
inductive Owned (keyCmp : VoidPtr → VoidPtr → Int) (freeKey : KeyFree) :
    Rbt → List Nat → List (Nat × VoidPtr) → List Event → Prop where
  | create (mem : Ptr → RbtNode) : Owned keyCmp freeKey (smpRbtCreate mem) [] [] []
  | make {rbt : Rbt} {held : List Nat} {born : List (Nat × VoidPtr)} {log : List Event} {nd : Nat}
      {key : VoidPtr} : Owned keyCmp freeKey rbt held born log → ¬ InTree rbt (.node nd) →
      nd ∉ held → Owned keyCmp freeKey (rbt.store (.node nd) (smpRnodeCreate key)) (nd :: held)
        ((nd, key) :: born) log
  | insert {rbt rbt' : Rbt} {held : List Nat} {born : List (Nat × VoidPtr)} {log : List Event}
      {fuel nd : Nat} {st : Status} : Owned keyCmp freeKey rbt held born log → nd ∈ held →
      smpRnodeInsert keyCmp fuel rbt (.node nd) = .ok (st, rbt') →
      Owned keyCmp freeKey rbt' (held.erase nd) born log
  | remove {rbt rbt' : Rbt} {held : List Nat} {born : List (Nat × VoidPtr)} {log : List Event}
      {fuel nd : Nat} {out : Ptr} : Owned keyCmp freeKey rbt held born log →
      InTree rbt (.node nd) → smpRnodeRemove fuel rbt (.node nd) = .ok (out, rbt') →
      Owned keyCmp freeKey rbt' (handed out ++ held) born log
  | findRemove {rbt rbt' : Rbt} {held : List Nat} {born : List (Nat × VoidPtr)} {log : List Event}
      {fuel : Nat} {key : VoidPtr} {out : Ptr} : Owned keyCmp freeKey rbt held born log →
      smpRnodeFindRemove keyCmp fuel rbt key = .ok (out, rbt') →
      Owned keyCmp freeKey rbt' (handed out ++ held) born log
  | destory {rbt : Rbt} {held : List Nat} {born : List (Nat × VoidPtr)} {log : List Event}
      {nd : Nat} {cells : Nat → QNode} {heap' : Heap} :
      Owned keyCmp freeKey rbt held born log → nd ∈ held →
      smpRnodeDestory rbt freeKey ⟨cells, 0, []⟩ (.node nd) = .ok heap' →
      Owned keyCmp freeKey rbt (held.erase nd) born (log ++ heap'.log)
  | delete {rbt rbt' : Rbt} {held : List Nat} {born : List (Nat × VoidPtr)} {log : List Event}
      {fuel nd : Nat} {cells : Nat → QNode} {st : Status} {heap' : Heap} :
      Owned keyCmp freeKey rbt held born log → InTree rbt (.node nd) →
      smpRnodeDelete freeKey fuel rbt ⟨cells, 0, []⟩ (.node nd) = .ok (st, rbt', heap') →
      Owned keyCmp freeKey rbt' held born (log ++ heap'.log)
  | deleteBykey {rbt rbt' : Rbt} {held : List Nat} {born : List (Nat × VoidPtr)} {log : List Event}
      {fuel : Nat} {key : VoidPtr} {cells : Nat → QNode} {st : Status} {heap' : Heap} :
      Owned keyCmp freeKey rbt held born log →
      smpRnodeDeleteBykey keyCmp freeKey fuel rbt ⟨cells, 0, []⟩ key = .ok (st, rbt', heap') →
      Owned keyCmp freeKey rbt' held born (log ++ heap'.log)

/-- The keys of the nodes that the caller holds. -/
def heldKeys (rbt : Rbt) (held : List Nat) : List VoidPtr := held.map fun n => rbt.key (.node n)

/-- The accounts of a tree with the nodes of {lit}`t`, when the nodes and keys {lit}`gone` are
freed. -/
structure Balance (keyCmp : VoidPtr → VoidPtr → Int) (freeKey : KeyFree) (rbt : Rbt) (t : Tree Ptr)
    (held : List Nat) (born : List (Nat × VoidPtr)) (log : List Event)
    (gone : List (Ptr × VoidPtr)) : Prop where
  valid : Valid keyCmp rbt t
  nodup : (held.map Ptr.node ++ t.toList).Nodup
  log : log = gone.flatMap (freedBy freeKey)
  nodes : (held.map Ptr.node ++ t.toList ++ gone.map Prod.fst).Perm (born.map fun b => .node b.1)
  keys : (heldKeys rbt held ++ keysOf rbt t ++ gone.map Prod.snd).Perm (born.map Prod.snd)

namespace Balance

variable {gone : List (Ptr × VoidPtr)} {nd : Nat}

/-- A held node is none of the tree. -/
theorem notMem (h : Balance keyCmp freeKey rbt t held born log gone) (hnd : nd ∈ held) :
    Ptr.node nd ∉ t.toList := fun hmem =>
  (List.nodup_append.mp h.nodup).2.2 _ (List.mem_map_of_mem hnd) _ hmem rfl

/-- The keys of the held nodes stay where only nodes of the tree change. -/
theorem heldKeys_eq (h : Balance keyCmp freeKey rbt t held born log gone)
    (hkey : ∀ q, q ∉ t.toList → rbt'.key q = rbt.key q) :
    heldKeys rbt' held = heldKeys rbt held :=
  List.map_congr_left fun _ hn => hkey _ (h.notMem hn)

/-- A held node taken from the others. -/
theorem heldKeys_erase (hnd : nd ∈ held) :
    (heldKeys rbt held).Perm (rbt.key (.node nd) :: heldKeys rbt (held.erase nd)) :=
  (List.perm_cons_erase hnd).map _

/-- A new node is held. -/
theorem make (h : Balance keyCmp freeKey rbt t held born log gone) (hout : .node nd ∉ t.toList)
    (hnew : nd ∉ held) (key : VoidPtr) :
    Balance keyCmp freeKey (rbt.store (.node nd) (smpRnodeCreate key)) t (nd :: held)
      ((nd, key) :: born) log gone := by
  have hnode : (Ptr.node nd).IsNode := ⟨nd, rfl⟩
  have hkey : ∀ q, q ≠ .node nd →
      (rbt.store (.node nd) (smpRnodeCreate key)).key q = rbt.key q := by
    intro q hq
    simp [Rbt.key, Rbt.store, hq]
  have hkeys : keysOf (rbt.store (.node nd) (smpRnodeCreate key)) t = keysOf rbt t :=
    List.map_congr_left fun q hq => hkey q fun heq => hout (heq ▸ hq)
  have hheld : heldKeys (rbt.store (.node nd) (smpRnodeCreate key)) (nd :: held) =
      key :: heldKeys rbt held := by
    unfold heldKeys
    rw [List.map_cons]
    congr 1
    · simp [Rbt.key, Rbt.store, smpRnodeCreate]
    · refine List.map_congr_left fun n hn => hkey _ fun heq => ?_
      exact hnew (Ptr.node.inj heq ▸ hn)
  constructor
  case valid =>
    constructor
    case rep => exact h.valid.rep.store _ hnode hout
    case balanced => exact h.valid.balanced
    case sorted => exact hkeys ▸ h.valid.sorted
    case size => exact h.valid.size
    case emptyParent =>
      intro hleaf
      have hnil := h.valid.emptyParent hleaf
      simpa [Rbt.parent, Rbt.store] using hnil
  case nodup =>
    rw [List.map_cons, List.cons_append, List.nodup_cons]
    refine ⟨fun hmem => ?_, h.nodup⟩
    rcases List.mem_append.mp hmem with hmem | hmem
    · rcases List.mem_map.mp hmem with ⟨n, hn, heq⟩
      exact hnew (Ptr.node.inj heq ▸ hn)
    · exact hout hmem
  case log => exact h.log
  case nodes => exact h.nodes.cons (.node nd)
  case keys =>
    rw [hheld, hkeys, List.cons_append, List.cons_append]
    exact h.keys.cons key

/-- A held node is put into the tree. -/
theorem insert (hcmp : TotalPreorder keyCmp) {fuel : Nat} {st : Status}
    (h : Balance keyCmp freeKey rbt t held born log gone) (hnd : nd ∈ held)
    (hrun : smpRnodeInsert keyCmp fuel rbt (.node nd) = .ok (st, rbt')) :
    ∃ t', Balance keyCmp freeKey rbt' t' (held.erase nd) born log gone := by
  have hout := h.notMem hnd
  have hstore : rbt.store (.node nd) (rbt.mem (.node nd)) = rbt := by simp [Rbt.store]
  have hfuel : rbt.size < max fuel (rbt.size + 1) := Nat.lt_of_lt_of_le (Nat.lt_succ_self _)
    (Nat.le_max_right _ _)
  rcases valid_insert hcmp h.valid (rbt.mem (.node nd)) hout hfuel with ⟨s₁, t₁, hrun₁, hvalid, -⟩
  rcases h.valid.balanced with ⟨n, hbal⟩
  rcases smpRnodeInsert_spec hcmp h.valid.rep hbal h.valid.sorted ⟨nd, rfl⟩ hout
    (h.valid.size_tree ▸ hfuel) with ⟨s₂, t₂, hrun₂, hins⟩
  rw [smpRnodeInsert_mono (Nat.le_max_left _ _) hrun, Except.ok.injEq, Prod.mk.injEq] at hrun₂
  rcases hrun₂ with ⟨rfl, rfl⟩
  have hsame : s₁ = rbt' := by
    simp only [Op.run, hstore, smpRnodeInsert_mono (Nat.le_max_left _ _) hrun, Exec.ok_bind,
      Exec.pure_eq, Except.ok.injEq, Prod.mk.injEq] at hrun₁
    exact hrun₁.2.symm
  subst hsame
  have htree : t₁ = t₂ := hins.rep.unique hvalid.rep
  subst htree
  have hnodes : (Ptr.node nd :: t.toList).Perm t₁.toList := by
    rcases hins.place with ⟨l₁, l₂, ht, ht', -⟩
    rw [ht, ht']
    exact List.perm_middle.symm
  have hperm : (held.map Ptr.node ++ t.toList).Perm
      ((held.erase nd).map Ptr.node ++ t₁.toList) := by
    refine (((List.perm_cons_erase hnd).map Ptr.node).append_right _).trans ?_
    exact List.perm_middle.symm.trans (hnodes.append_left _)
  refine ⟨t₁, ?_⟩
  constructor
  case valid => exact hvalid
  case nodup => exact hperm.nodup_iff.mp h.nodup
  case log => exact h.log
  case nodes => exact (hperm.symm.append_right _).trans h.nodes
  case keys =>
    have hheld : heldKeys s₁ (held.erase nd) = heldKeys rbt (held.erase nd) :=
      List.map_congr_left fun n _ => hins.key _
    have hkeysOf : keysOf s₁ t₁ = t₁.toList.map rbt.key :=
      List.map_congr_left fun q _ => hins.key q
    rw [hheld, hkeysOf]
    refine List.Perm.trans (List.Perm.append_right _ ?_) h.keys
    have hkeys : (t₁.toList.map rbt.key).Perm (rbt.key (.node nd) :: keysOf rbt t) :=
      hnodes.symm.map rbt.key
    refine (hkeys.append_left _).trans ?_
    exact List.perm_middle.trans ((heldKeys_erase hnd).symm.append_right _)

/-- A node leaves the tree and is held. -/
theorem removed (h : Balance keyCmp freeKey rbt t held born log gone) {p : Ptr} {out : Nat}
    (hrem : Removed rbt rbt' p (.node out) t t') :
    Balance keyCmp freeKey rbt' t' (out :: held) born log gone := by
  have hnodes := hrem.nodes_perm
  have hp : p ∈ t.toList := by
    rcases hrem.place with ⟨l₁, l₂, ht, -⟩
    simp [ht]
  have hout : Ptr.node out ∈ t.toList := hnodes.mem_iff.mp List.mem_cons_self
  have hheld : heldKeys rbt' held = heldKeys rbt held := h.heldKeys_eq fun q hq =>
    hrem.key q (fun heq => hq (heq ▸ hp)) fun heq => hq (heq ▸ hout)
  have hperm : ((out :: held).map Ptr.node ++ t'.toList).Perm (held.map Ptr.node ++ t.toList) := by
    rw [List.map_cons, List.cons_append]
    exact List.perm_middle.symm.trans (hnodes.append_left _)
  constructor
  case valid => exact valid_removed h.valid hrem
  case nodup => exact hperm.nodup_iff.mpr h.nodup
  case log => exact h.log
  case nodes => exact (hperm.append_right _).trans h.nodes
  case keys =>
    refine List.Perm.trans (List.Perm.append_right _ ?_) h.keys
    have hcons : heldKeys rbt' (out :: held) = rbt'.key (.node out) :: heldKeys rbt' held := rfl
    rw [hcons, hheld, List.cons_append]
    exact List.perm_middle.symm.trans
      ((hrem.keys_perm h.valid.rep.nodup).append_left _)

/-- A held node is freed with its key. -/
theorem destory (h : Balance keyCmp freeKey rbt t held born log gone) (hnd : nd ∈ held)
    {cells : Nat → QNode} {heap' : Heap}
    (hrun : smpRnodeDestory rbt freeKey ⟨cells, 0, []⟩ (.node nd) = .ok heap') :
    Balance keyCmp freeKey rbt t (held.erase nd) born (log ++ heap'.log)
      (gone ++ [(.node nd, rbt.key (.node nd))]) := by
  have hlog : heap'.log = freedBy freeKey (.node nd, rbt.key (.node nd)) := by
    rw [smpRnodeDestory_eq (by simp) (by simp), Except.ok.injEq] at hrun
    subst hrun
    rfl
  have hperm := ((List.perm_cons_erase hnd).map Ptr.node).append_right t.toList
  rw [List.map_cons, List.cons_append] at hperm
  constructor
  case valid => exact h.valid
  case nodup => exact (List.nodup_cons.mp (hperm.nodup_iff.mp h.nodup)).2
  case log => rw [hlog, h.log, List.flatMap_append, List.flatMap_singleton]
  case nodes =>
    refine List.Perm.trans ?_ h.nodes
    rw [List.map_append, List.map_singleton, ← List.append_assoc]
    refine List.perm_append_comm.trans ?_
    rw [List.singleton_append, ← List.cons_append]
    exact hperm.symm.append_right _
  case keys =>
    refine List.Perm.trans ?_ h.keys
    rw [List.map_append, List.map_singleton, ← List.append_assoc]
    refine List.perm_append_comm.trans ?_
    rw [List.singleton_append, ← List.cons_append, ← List.cons_append]
    exact ((heldKeys_erase hnd).symm.append_right _).append_right _

/-- A removal that returned handed back a node. -/
theorem remove (h : Balance keyCmp freeKey rbt t held born log gone) (hnd : .node nd ∈ t.toList)
    {fuel : Nat} {out : Ptr} (hrun : smpRnodeRemove fuel rbt (.node nd) = .ok (out, rbt')) :
    ∃ o t', out = .node o ∧ Balance keyCmp freeKey rbt' t' (o :: held) born log gone := by
  rcases h.valid.balanced with ⟨n, hbal⟩
  have hfuel : t.size < max fuel (t.size + 1) := Nat.lt_of_lt_of_le (Nat.lt_succ_self _)
    (Nat.le_max_right _ _)
  rcases smpRnodeRemove_spec h.valid.rep hbal hnd hfuel with ⟨out', s', t', hrun', hrem⟩
  rw [smpRnodeRemove_mono (Nat.le_max_left _ _) hrun, Except.ok.injEq, Prod.mk.injEq] at hrun'
  rcases hrun' with ⟨rfl, rfl⟩
  have hmem : out ∈ t.toList := hrem.nodes_perm.mem_iff.mp List.mem_cons_self
  rcases h.valid.rep.isNode hmem with ⟨o, rfl⟩
  exact ⟨o, t', rfl, h.removed hrem⟩

/-- A removal by key that returned handed back a node, or nothing was done. -/
theorem findRemove (hcmp : TotalPreorder keyCmp)
    (h : Balance keyCmp freeKey rbt t held born log gone) {fuel : Nat} {key : VoidPtr} {out : Ptr}
    (hrun : smpRnodeFindRemove keyCmp fuel rbt key = .ok (out, rbt')) :
    (out = .null ∧ rbt' = rbt) ∨
      ∃ o t', out = .node o ∧ Balance keyCmp freeKey rbt' t' (o :: held) born log gone := by
  have hop : Op.run keyCmp fuel rbt (.findRemove key) = .ok (.node out, rbt') := by
    simp only [Op.run, hrun, Exec.ok_bind, Exec.pure_eq]
  rcases valid_findRemove hcmp h.valid key (Nat.lt_succ_self rbt.size) with
    ⟨hrun', -⟩ | ⟨p, out', s', t', hrun', -, -, -, hrem, -⟩
  · have hsame := Op.run_unique hop hrun'
    simp only [Prod.mk.injEq, Reply.node.injEq] at hsame
    exact Or.inl hsame
  · have hsame := Op.run_unique hop hrun'
    simp only [Prod.mk.injEq, Reply.node.injEq] at hsame
    rcases hsame with ⟨rfl, rfl⟩
    have hmem : out ∈ t.toList := hrem.nodes_perm.mem_iff.mp List.mem_cons_self
    rcases h.valid.rep.isNode hmem with ⟨o, rfl⟩
    exact Or.inr ⟨o, t', rfl, h.removed hrem⟩

/-- A node that was handed back is freed at once. -/
theorem release {o : Nat} (h : Balance keyCmp freeKey rbt t (o :: held) born log gone)
    {cells : Nat → QNode} {heap' : Heap}
    (hrun : smpRnodeDestory rbt freeKey ⟨cells, 0, []⟩ (.node o) = .ok heap') :
    ∃ gone', Balance keyCmp freeKey rbt t held born (log ++ heap'.log) gone' := by
  have hfreed := h.destory List.mem_cons_self hrun
  rw [List.erase_cons_head] at hfreed
  exact ⟨_, hfreed⟩

end Balance

/-- The accounts in every run. -/
theorem Owned.balance (hcmp : TotalPreorder keyCmp) (h : Owned keyCmp freeKey rbt held born log) :
    ∃ t gone, Balance keyCmp freeKey rbt t held born log gone := by
  induction h with
  | create mem => exact ⟨.leaf, [], valid_create mem, by simp [Tree.toList], rfl, by rfl, by rfl⟩
  | make _ hout hnew ih =>
      rcases ih with ⟨t, gone, hbalance⟩
      exact ⟨t, gone, hbalance.make (mt hbalance.valid.rep.inTree_iff.mpr hout) hnew _⟩
  | insert _ hnd hrun ih =>
      rcases ih with ⟨t, gone, hbalance⟩
      rcases hbalance.insert hcmp hnd hrun with ⟨t', hbalance'⟩
      exact ⟨t', gone, hbalance'⟩
  | remove _ hnd hrun ih =>
      rcases ih with ⟨t, gone, hbalance⟩
      rcases hbalance.remove (hbalance.valid.rep.inTree_iff.mp hnd) hrun with
        ⟨o, t', rfl, hbalance'⟩
      exact ⟨t', gone, hbalance'⟩
  | findRemove _ hrun ih =>
      rcases ih with ⟨t, gone, hbalance⟩
      rcases hbalance.findRemove hcmp hrun with ⟨rfl, rfl⟩ | ⟨o, t', rfl, hbalance'⟩
      · exact ⟨t, gone, hbalance⟩
      · exact ⟨t', gone, hbalance'⟩
  | destory _ hnd hrun ih =>
      rcases ih with ⟨t, gone, hbalance⟩
      exact ⟨t, _, hbalance.destory hnd hrun⟩
  | delete _ hnd hrun ih =>
      rcases ih with ⟨t, gone, hbalance⟩
      rcases Exec.bind_eq_ok.mp hrun with ⟨⟨out, rbt₁⟩, hremove, hrun⟩
      rcases hbalance.remove (hbalance.valid.rep.inTree_iff.mp hnd) hremove with
        ⟨o, t', rfl, hbalance'⟩
      rcases Exec.bind_eq_ok.mp hrun with ⟨heap₁, hfree, hdone⟩
      cases hdone
      rcases hbalance'.release hfree with ⟨gone', hfreed⟩
      exact ⟨t', gone', hfreed⟩
  | deleteBykey _ hrun ih =>
      rcases ih with ⟨t, gone, hbalance⟩
      rcases Exec.bind_eq_ok.mp hrun with ⟨⟨out, rbt₁⟩, hremove, hrun⟩
      rcases hbalance.findRemove hcmp hremove with ⟨rfl, hsame⟩ | ⟨o, t', rfl, hbalance'⟩
      · simp only [if_true, Exec.pure_eq, Except.ok.injEq, Prod.mk.injEq] at hrun
        rcases hrun with ⟨-, rfl, rfl⟩
        rw [hsame, List.append_nil]
        exact ⟨t, gone, hbalance⟩
      · rcases Exec.bind_eq_ok.mp hrun with ⟨heap₁, hfree, hdone⟩
        cases hdone
        rcases hbalance'.release hfree with ⟨gone', hfreed⟩
        exact ⟨t', gone', hfreed⟩

/-! ## The end of a tree -/

/-- Nodes freed by a teardown. -/
theorem flatMap_freedBy (nodes : List Ptr) :
    (nodes.map fun p => (p, rbt.key p)).flatMap (freedBy freeKey) =
      nodes.flatMap (released rbt freeKey) := by
  rw [List.flatMap_map]
  rfl

/-- In every run every node made is in the tree, with the caller, or freed, once: a freed node is
none of the others, and is freed once each time it is made.  The same holds of every key ever
given to a node.  The teardown, if none of its requests is refused, frees the nodes and keys of
the tree: then every node and key is with the caller or freed, once. -/
theorem tree_whole_life (hcmp : TotalPreorder keyCmp)
    (h : Owned keyCmp freeKey rbt held born log) (addr : Nat) (mem : Nat → QNode) :
    ∃ (t : Tree Ptr) (gone : List (Ptr × VoidPtr)), Rep rbt t ∧
      (held.map Ptr.node ++ t.toList).Nodup ∧ log = gone.flatMap (freedBy freeKey) ∧
      (held.map Ptr.node ++ t.toList ++ gone.map Prod.fst).Perm (born.map fun b => .node b.1) ∧
      (heldKeys rbt held ++ keysOf rbt t ++ gone.map Prod.snd).Perm (born.map Prod.snd) ∧
      ∀ {answers : Answers}, Sound answers → ∃ rbt' heap',
        (∃ enough, ∀ fuel, enough ≤ fuel →
          smpRbtDestory answers addr freeKey fuel rbt ⟨mem, 0, []⟩ = .ok (.ok, rbt', heap')) ∧
        ((∀ i < teardownRequests t, answers i ≠ none) → ∃ all : List (Ptr × VoidPtr),
          (log ++ heap'.log).filter ofNode = all.flatMap (freedBy freeKey) ∧
          (held.map Ptr.node ++ all.map Prod.fst).Perm (born.map fun b => .node b.1) ∧
          (heldKeys rbt held ++ all.map Prod.snd).Perm (born.map Prod.snd)) := by
  rcases h.balance hcmp with ⟨t, gone, hbalance⟩
  refine ⟨t, gone, hbalance.valid.rep, hbalance.nodup, hbalance.log, hbalance.nodes,
    hbalance.keys, ?_⟩
  intro answers hs
  rcases smpRbtDestory_finished hs hbalance.valid.rep hbalance.valid.size addr freeKey mem with
    ⟨rbt', heap', nodes, lost, es, hrun, hfinished⟩
  refine ⟨rbt', heap', hrun, fun hgranted => ?_⟩
  have hlost : lost = [] := hfinished.needed.mpr hgranted
  have hnodes := hfinished.nodes
  rw [hlost, List.append_nil] at hnodes
  refine ⟨gone ++ nodes.map fun p => (p, rbt.key p), ?_, ?_, ?_⟩
  · have hlog : log.filter ofNode = log := List.filter_eq_self.mpr fun e he => by
      rw [hbalance.log] at he
      rcases List.mem_flatMap.mp he with ⟨g, -, he⟩
      unfold freedBy at he
      split_ifs at he
      · rcases List.mem_cons.mp he with rfl | he
        · rfl
        · rw [List.mem_singleton.mp he]
          rfl
      · rw [List.mem_singleton.mp he]
        rfl
    rw [List.filter_append, hlog, hfinished.filter_log, List.flatMap_append, flatMap_freedBy,
      ← hbalance.log]
  · refine List.Perm.trans ?_ hbalance.nodes
    rw [List.map_append, List.map_map, List.append_assoc]
    refine List.Perm.append_left _ ?_
    have hsame : (nodes.map (Prod.fst ∘ fun p => (p, rbt.key p))).Perm t.toList := by
      simpa [Function.comp_def] using hnodes
    exact (hsame.append_left _).trans List.perm_append_comm
  · refine List.Perm.trans ?_ hbalance.keys
    rw [List.map_append, List.map_map, List.append_assoc]
    refine List.Perm.append_left _ ?_
    have hkeys : (nodes.map (Prod.snd ∘ fun p => (p, rbt.key p))).Perm (keysOf rbt t) :=
      hnodes.map rbt.key
    exact (hkeys.append_left _).trans List.perm_append_comm

/-- No node is in an empty tree. -/
theorem not_inTree_nil {p : Ptr} (hroot : rbt.root = .nil) : ¬ InTree rbt p := by
  rintro ⟨hnode, hreach⟩
  rw [hroot] at hreach
  rcases Relation.ReflTransGen.cases_head hreach with heq | ⟨b, hstep, -⟩
  · exact hnode.ne_nil heq.symm
  · cases hstep with
    | mk d hnil => exact hnil.ne_nil rfl

/-- Of two nodes one was put into the tree and deleted with its key, the other is held. -/
theorem tree_whole_life_sample : ∃ rbt, Owned keyDiff sampleFree rbt [1] [(1, 5), (2, 2)]
    [.freeData 9 2, .free .rnode 4] ∧ ∃ rbt' heap' fuel,
      smpRbtDestory sampleAnswers 7 sampleFree fuel rbt ⟨fun _ => ⟨0, 0, 0, 0⟩, 0, []⟩ =
        .ok (.ok, rbt', heap') := by
  have h₀ : Owned keyDiff sampleFree (smpRbtCreate fun _ => smpRnodeCreate NULL) [] [] [] :=
    .create _
  have h₁ := @Owned.make _ _ _ _ _ _ 2 2 h₀ (not_inTree_nil rfl) (by simp)
  have h₂ := @Owned.make _ _ _ _ _ _ 1 5 h₁ (not_inTree_nil rfl) (by simp)
  have h₃ := @Owned.insert _ _ _ _ _ _ _ 4 2 _ h₂ (by simp) rfl
  have h₄ := @Owned.delete _ _ _ _ _ _ _ 4 2 (fun _ => ⟨0, 0, 0, 0⟩) _ _ h₃
    ⟨⟨2, rfl⟩, Relation.ReflTransGen.refl⟩ rfl
  rcases tree_whole_life totalPreorder_keyDiff h₄ 7 fun _ => ⟨0, 0, 0, 0⟩ with
    ⟨t, gone, -, -, -, -, -, hend⟩
  rcases hend sound_sampleAnswers with ⟨rbt', heap', ⟨enough, hrun⟩, -⟩
  exact ⟨_, h₄, rbt', heap', enough, hrun enough (Nat.le_refl _)⟩

end Teardown
end Smpcil
