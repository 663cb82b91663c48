import Smpcil.Tree.Remove
import Mathlib.Logic.Relation

/-!
# Runs of the tree operations

The states that `smp_rbt_create` and any sequence of insertions and removals lead to.
A caller may fill in a node as it likes before it inserts it, and may ask only for
nodes that are in the tree to be removed.

Main results:

- Definition {lit}`Valid`: the invariant of the tree struct.
- Theorem {lit}`valid_insert`, {lit}`valid_remove`, {lit}`valid_findRemove`: what each
  operation does to the invariant and to the keys of the tree.
- Theorem {lit}`Reachable.valid`: the invariant holds in every reachable state.
-/

namespace Smpcil
namespace RbTree

open RedBlack KeyOrder
open Loops (Pass loop loop_spec loop_mono)

/-! ## Operations and reachable states -/

/-- The node struct at {lit}`p` points to {lit}`q`.  The sentinel stands for no node, and
its fields lead nowhere. -/
inductive Points (s : Rbt) : Ptr → Ptr → Prop where
  | parent {p : Ptr} : p.IsNode → Points s p (s.parent p)
  | child {p : Ptr} (d : Side) : p.IsNode → Points s p (s.child d p)

/-- The node struct at {lit}`p` has the child {lit}`q`. -/
inductive ChildOf (s : Rbt) : Ptr → Ptr → Prop where
  | mk {p : Ptr} (d : Side) : p.IsNode → ChildOf s p (s.child d p)

/-- A node that is reachable from the root of the tree. -/
def InTree (s : Rbt) (p : Ptr) : Prop :=
  p.IsNode ∧ Relation.ReflTransGen (ChildOf s) s.root p

/-- The operations of a run; an insertion comes with the contents its caller gave the
node. -/
inductive Op where
  | insert (nd : Nat) (cell : RbtNode)
  | remove (nd : Nat)
  | findRemove (key : VoidPtr)

/-- What an operation returns. -/
inductive Reply where
  | status (st : Status)
  | node (p : Ptr)
deriving DecidableEq, Repr

/-- Run one operation. -/
def Op.run (keyCmp : VoidPtr → VoidPtr → Int) (fuel : Nat) (s : Rbt) :
    Op → Exec (Reply × Rbt)
  | .insert nd cell => do
      let (st, s) ← smpRnodeInsert keyCmp fuel (s.store (.node nd) cell) (.node nd)
      return (.status st, s)
  | .remove nd => do
      let (p, s) ← smpRnodeRemove fuel s (.node nd)
      return (.node p, s)
  | .findRemove key => do
      let (p, s) ← smpRnodeFindRemove keyCmp fuel s key
      return (.node p, s)

/-- A caller inserts nodes that are not in the tree and removes nodes that are. -/
def Op.Allowed (s : Rbt) : Op → Prop
  | .insert nd _ => ¬ InTree s (.node nd)
  | .remove nd => InTree s (.node nd)
  | .findRemove _ => True

/-- The states of all runs. -/
inductive Reachable (keyCmp : VoidPtr → VoidPtr → Int) : Rbt → Prop where
  | create (mem : Ptr → RbtNode) : Reachable keyCmp (smpRbtCreate mem)
  | step {s s' : Rbt} {r : Reply} (op : Op) (fuel : Nat) : Reachable keyCmp s → op.Allowed s →
      op.run keyCmp fuel s = .ok (r, s') → Reachable keyCmp s'

/-! ## Nodes of the tree -/

section Nodes

variable {s : Rbt} {t : Tree Ptr}

/-- The nodes below a linked subtree are reachable from its root. -/
theorem Linked.childOf {u : Tree Ptr} :
    ∀ {par : Ptr}, Linked s par u → ∀ q ∈ u.toList,
      Relation.ReflTransGen (ChildOf s) (rootPtr u) q := by
  induction u with
  | leaf => intro par _ q hq; simp [Tree.toList] at hq
  | node c l x r ihl ihr =>
      intro par h q hq
      rcases h with ⟨hx, -, -, hl, hr, hll, hlr⟩
      simp only [Tree.toList, List.mem_append, List.mem_cons] at hq
      rcases hq with hq | rfl | hq
      · have hstep := ChildOf.mk (s := s) .left hx
        rw [hl] at hstep
        exact (ihl hll q hq).head hstep
      · exact Relation.ReflTransGen.refl
      · have hstep := ChildOf.mk (s := s) .right hx
        rw [hr] at hstep
        exact (ihr hlr q hq).head hstep

/-- The fields of a node in the tree lead to nodes in the tree or to the sentinel. -/
theorem Rep.points (h : Rep s t) {p q : Ptr} (hp : p ∈ t.toList) (hpoints : Points s p q) :
    q = .nil ∨ q ∈ t.toList := by
  rcases exists_plug_of_mem hp with ⟨k, c, l, r, rfl⟩
  have hlinks := Rep.links_focus (d := .left) h
  have hsub : ∀ u : Tree Ptr, (∀ y ∈ u.toList, y ∈ (plug k (.node c l p r)).toList) →
      rootPtr u = .nil ∨ rootPtr u ∈ (plug k (.node c l p r)).toList := by
    intro u hu
    rcases rootPtr_eq_nil_or_mem u with hnil | hmem
    · exact Or.inl hnil
    · exact Or.inr (hu _ hmem)
  cases hpoints with
  | parent _ =>
      rw [hlinks.2.2.1]
      rcases holeParent_eq_nil_or_mem k with hnil | hmem
      · exact Or.inl hnil
      · exact Or.inr (mem_toList_plug.mpr (Or.inr hmem))
  | child d _ =>
      cases d with
      | left =>
          rw [hlinks.2.2.2.1]
          exact hsub l fun y hy => mem_toList_plug.mpr (Or.inl (by simp [Tree.toList, hy]))
      | right =>
          have hchild : s.child .right p = rootPtr r := hlinks.2.2.2.2
          rw [hchild]
          exact hsub r fun y hy => mem_toList_plug.mpr (Or.inl (by simp [Tree.toList, hy]))

/-- Whatever a node of the tree leads to is in the tree. -/
theorem Rep.pointsTo (h : Rep s t) {p q : Ptr} (hp : p ∈ t.toList)
    (hreach : Relation.ReflTransGen (Points s) p q) : q = .nil ∨ q ∈ t.toList := by
  induction hreach with
  | refl => exact Or.inr hp
  | tail _ hstep ih =>
      rcases ih with rfl | hmem
      · cases hstep with
        | parent hnode => exact absurd rfl hnode.ne_nil
        | child d hnode => exact absurd rfl hnode.ne_nil
      · exact h.points hmem hstep

/-- The nodes reachable from the root are those of the represented tree. -/
theorem Rep.inTree_iff (h : Rep s t) {p : Ptr} : InTree s p ↔ p ∈ t.toList := by
  constructor
  · rintro ⟨hnode, hreach⟩
    have hpoints : Relation.ReflTransGen (Points s) s.root p := by
      have hle : ChildOf s ≤ Points s := by
        intro a b hab
        cases hab with
        | mk d hnode => exact Points.child d hnode
      exact Relation.ReflTransGen.mono hle _ _ hreach
    rw [h.root] at hpoints
    rcases rootPtr_eq_nil_or_mem t with hnil | hmem
    · rw [hnil] at hpoints
      rcases Relation.ReflTransGen.cases_head hpoints with heq | ⟨b, hstep, -⟩
      · exact absurd heq.symm hnode.ne_nil
      · cases hstep with
        | parent hx => exact absurd rfl hx.ne_nil
        | child d hx => exact absurd rfl hx.ne_nil
    · rcases h.pointsTo hmem hpoints with heq | hmem'
      · exact absurd heq hnode.ne_nil
      · exact hmem'
  · intro hp
    refine ⟨h.isNode hp, ?_⟩
    rw [h.root]
    exact h.linked.childOf p hp

/-- The links of a struct determine the tree it represents. -/
theorem Linked.unique {u : Tree Ptr} : ∀ {v : Tree Ptr} {par par' : Ptr},
    Linked s par u → Linked s par' v → rootPtr u = rootPtr v → u = v := by
  induction u with
  | leaf =>
      intro v par par' _ hv heq
      exact ((rootPtr_eq_nil hv).mp heq.symm).symm
  | node c l x r ihl ihr =>
      intro v par par' hu hv heq
      rcases hu with ⟨hx, hc, -, hl, hr, hll, hlr⟩
      cases v with
      | leaf => exact absurd heq hx.ne_nil
      | node c' l' x' r' =>
          rw [rootPtr_node, rootPtr_node] at heq
          subst heq
          rcases hv with ⟨-, hc', -, hl', hr', hll', hlr'⟩
          have hleft := ihl hll hll' (hl.symm.trans hl')
          have hright := ihr hlr hlr' (hr.symm.trans hr')
          rw [← hc, ← hc', hleft, hright]

theorem Rep.unique {u : Tree Ptr} (h : Rep s t) (hu : Rep s u) : u = t :=
  hu.linked.unique h.linked (hu.root.symm.trans h.root)

end Nodes

/-! ## The invariant -/

/-- The invariant of the tree struct: {lit}`t` is the tree of the nodes reachable from
the root, balanced and sorted, and the struct counts its nodes. -/
structure Valid (keyCmp : VoidPtr → VoidPtr → Int) (s : Rbt) (t : Tree Ptr) : Prop where
  rep : Rep s t
  balanced : ∃ n, Balanced t .black n
  sorted : Sorted keyCmp (keysOf s t)
  size : s.size = t.toList.length
  emptyParent : t = .leaf → s.parent .nil = .nil

variable {keyCmp : VoidPtr → VoidPtr → Int} {s : Rbt} {t : Tree Ptr} {fuel : Nat}

theorem Valid.size_tree (h : Valid keyCmp s t) : s.size = t.size :=
  h.size.trans t.length_toList

theorem Valid.rootParent (h : Valid keyCmp s t) : s.parent s.root = .nil := by
  rw [h.rep.root]
  cases t with
  | leaf => exact h.emptyParent rfl
  | node c l x r => exact h.rep.linked.2.2.1

theorem Valid.rootBlack (h : Valid keyCmp s t) : s.color s.root = .black := by
  rcases h.balanced with ⟨n, hbal⟩
  have hfocus : Rep s (plug [] t) := h.rep
  rw [h.rep.root, hfocus.color_focus, hbal.rootColor_eq]

/-- An empty tree is valid. -/
theorem valid_create (mem : Ptr → RbtNode) : Valid keyCmp (smpRbtCreate mem) .leaf := by
  constructor
  · constructor
    · rfl
    · trivial
    · simp [Tree.toList]
    · simp [smpRbtCreate, Rbt.color]
    · simp [smpRbtCreate]
  · exact ⟨0, .leaf⟩
  · simp [Sorted, keysOf, Tree.toList]
  · rfl
  · simp [smpRbtCreate, Rbt.parent]

/-- An insertion puts the key of the node behind all keys that do not rank above it. -/
theorem valid_insert (hcmp : TotalPreorder keyCmp) (h : Valid keyCmp s t) {nd : Nat}
    (cell : RbtNode) (hout : .node nd ∉ t.toList) (hfuel : s.size < fuel) :
    ∃ s' t', Op.run keyCmp fuel s (.insert nd cell) = .ok (.status .ok, s') ∧
      Valid keyCmp s' t' ∧ (∀ x, x ∈ t'.toList ↔ x ∈ t.toList ∨ x = .node nd) ∧
      s'.carrier (.node nd) = cell.carrier ∧
      ∃ l₁ l₂, keysOf s t = l₁ ++ l₂ ∧ keysOf s' t' = l₁ ++ cell.key :: l₂ ∧
        (∀ a ∈ l₁, keyCmp a cell.key ≤ 0) ∧ ∀ b ∈ l₂, 0 < keyCmp b cell.key := by
  have hnode : (Ptr.node nd).IsNode := ⟨nd, rfl⟩
  have hrep := h.rep.store cell hnode hout
  have hkeys : ∀ q ∈ t.toList, (s.store (.node nd) cell).key q = s.key q := by
    intro q hq
    have hne : q ≠ .node nd := fun heq => hout (heq ▸ hq)
    simp [Rbt.key, Rbt.store, hne]
  have hkeysOf : keysOf (s.store (.node nd) cell) t = keysOf s t := List.map_congr_left hkeys
  have hkeyNd : (s.store (.node nd) cell).key (.node nd) = cell.key := by
    simp [Rbt.key, Rbt.store]
  rcases h.balanced with ⟨n, hbal⟩
  have hsize := h.size_tree
  rcases smpRnodeInsert_spec hcmp hrep hbal (by rw [hkeysOf]; exact h.sorted) hnode hout
    (show t.size < fuel by omega) with ⟨s', t', hrun, hins⟩
  rcases hins.place with ⟨l₁, l₂, ht, ht', hle, hlt⟩
  have hsplit : keysOf s t = l₁.map s.key ++ l₂.map s.key := by
    rw [keysOf, ht, List.map_append]
  have hmap₁ : l₁.map s'.key = l₁.map s.key := by
    refine List.map_congr_left fun q hq => ?_
    rw [hins.key, hkeys q (by simp [ht, hq])]
  have hmap₂ : l₂.map s'.key = l₂.map s.key := by
    refine List.map_congr_left fun q hq => ?_
    rw [hins.key, hkeys q (by simp [ht, hq])]
  have hkeys' : keysOf s' t' = l₁.map s.key ++ cell.key :: l₂.map s.key := by
    rw [keysOf, ht', List.map_append, List.map_cons, hmap₁, hmap₂, hins.key, hkeyNd]
  have hle' : ∀ a ∈ l₁.map s.key, keyCmp a cell.key ≤ 0 := by
    intro a ha
    rcases List.mem_map.mp ha with ⟨q, hq, rfl⟩
    rw [← hkeys q (by simp [ht, hq]), ← hkeyNd]
    exact hle q hq
  have hlt' : ∀ b ∈ l₂.map s.key, 0 < keyCmp b cell.key := by
    intro b hb
    rcases List.mem_map.mp hb with ⟨q, hq, rfl⟩
    rw [← hkeys q (by simp [ht, hq]), ← hkeyNd]
    exact hlt q hq
  refine ⟨s', t', ?_, ?_, ?_, ?_, _, _, hsplit, hkeys', hle', hlt'⟩
  · simp [Op.run, hrun, bind, Except.bind, pure, Except.pure]
  · constructor
    · exact hins.rep
    · exact hins.balanced
    · rw [hkeys']
      exact Sorted.insertStable hcmp (hsplit ▸ h.sorted) hle' hlt'
    · have hstore : (s.store (.node nd) cell).size = s.size := rfl
      rw [hins.size, hstore, h.size, ht', ht]
      simp [Nat.add_assoc]
    · rintro rfl
      simp [Tree.toList] at ht'
  · intro x
    simp only [ht, ht', List.mem_append, List.mem_cons]
    tauto
  · rw [hins.carrier]
    simp [Rbt.carrier, Rbt.store]

/-- A removal keeps the invariant. -/
theorem valid_removed (h : Valid keyCmp s t) {nd out : Ptr} {s' : Rbt} {t' : Tree Ptr}
    (hrem : Removed s s' nd out t t') : Valid keyCmp s' t' := by
  constructor
  · exact hrem.rep
  · exact hrem.balanced
  · rw [hrem.eraseKey h.rep.nodup]
    exact h.sorted.erase
  · rw [hrem.size, h.size]
    rcases hrem.place with ⟨l₁, l₂, ht, ⟨-, ht'⟩ | ⟨l₃, rfl, ht'⟩⟩
    · simp [ht, ht']
    · simp [ht, ht']
  · exact hrem.nilParent

/-- A removal of a node of the tree. -/
theorem valid_remove (h : Valid keyCmp s t) {nd : Nat} (hnd : .node nd ∈ t.toList)
    (hfuel : s.size < fuel) :
    ∃ out s' t', Op.run keyCmp fuel s (.remove nd) = .ok (.node out, s') ∧
      Removed s s' (.node nd) out t t' ∧ Valid keyCmp s' t' := by
  rcases h.balanced with ⟨n, hbal⟩
  have hsize := h.size_tree
  rcases smpRnodeRemove_spec h.rep hbal hnd (show t.size < fuel by omega) with
    ⟨out, s', t', hrun, hrem⟩
  refine ⟨out, s', t', ?_, hrem, valid_removed h hrem⟩
  simp [Op.run, hrun, bind, Except.bind, pure, Except.pure]

/-- A removal by key removes a node of the rank of the key, or nothing if there is none. -/
theorem valid_findRemove (hcmp : TotalPreorder keyCmp) (h : Valid keyCmp s t) (key : VoidPtr)
    (hfuel : s.size < fuel) :
    (Op.run keyCmp fuel s (.findRemove key) = .ok (.node .null, s) ∧
        (key = NULL ∨ ∀ q ∈ t.toList, keyCmp (s.key q) key ≠ 0)) ∨
      ∃ nd out s' t', Op.run keyCmp fuel s (.findRemove key) = .ok (.node out, s') ∧
        key ≠ NULL ∧ nd ∈ t.toList ∧ keyCmp (s.key nd) key = 0 ∧ Removed s s' nd out t t' ∧
        Valid keyCmp s' t' := by
  by_cases hkey : key = NULL
  · refine Or.inl ⟨?_, Or.inl hkey⟩
    simp [Op.run, smpRnodeFindRemove, hkey, bind, Except.bind, pure, Except.pure]
  · have hsize := h.size_tree
    rcases smpRnodeFind_spec key hcmp h.rep h.sorted (show t.size < fuel by omega) with
      ⟨p, hfind, ⟨rfl, hnone⟩ | ⟨hp, heq⟩⟩
    · refine Or.inl ⟨?_, Or.inr hnone⟩
      simp [Op.run, smpRnodeFindRemove, hkey, hfind, bind, Except.bind, pure, Except.pure]
    · rcases h.balanced with ⟨n, hbal⟩
      rcases smpRnodeRemove_spec h.rep hbal hp (show t.size < fuel by omega) with
        ⟨out, s', t', hrun, hrem⟩
      refine Or.inr ⟨p, out, s', t', ?_, hkey, hp, heq, hrem, valid_removed h hrem⟩
      simp [Op.run, smpRnodeFindRemove, hkey, hfind, (h.rep.isNode hp).ne_null, hrun, bind,
        Except.bind, pure, Except.pure]

/-! ## More fuel -/

section Fuel

variable {fuel fuel' : Nat}

theorem smpInsertFixup_mono {s r : Rbt} {nd : Ptr} (hle : fuel ≤ fuel')
    (h : smpInsertFixup fuel s nd = .ok r) : smpInsertFixup fuel' s nd = .ok r := by
  rcases Exec.bind_eq_ok.mp h with ⟨u, hloop, hrest⟩
  exact Exec.bind_eq_ok.mpr ⟨u, loop_mono hle hloop, hrest⟩

theorem smpDeleteFixup_mono {s r : Rbt} {nd : Ptr} (hle : fuel ≤ fuel')
    (h : smpDeleteFixup fuel s nd = .ok r) : smpDeleteFixup fuel' s nd = .ok r := by
  rcases Exec.bind_eq_ok.mp h with ⟨u, hloop, hrest⟩
  exact Exec.bind_eq_ok.mpr ⟨u, loop_mono hle hloop, hrest⟩

theorem smpRnodeInsert_mono {s : Rbt} {nd : Ptr} {r : Status × Rbt} (hle : fuel ≤ fuel')
    (h : smpRnodeInsert keyCmp fuel s nd = .ok r) : smpRnodeInsert keyCmp fuel' s nd = .ok r := by
  unfold smpRnodeInsert at h ⊢
  by_cases hnd : nd = .null
  · rw [if_pos hnd] at h ⊢
    exact h
  · rw [if_neg hnd] at h ⊢
    rcases Exec.bind_eq_ok.mp h with ⟨tmp, hloop, hrest⟩
    rcases Exec.bind_eq_ok.mp hrest with ⟨u, hfix, hdone⟩
    exact Exec.bind_eq_ok.mpr ⟨tmp, loop_mono hle hloop,
      Exec.bind_eq_ok.mpr ⟨u, smpInsertFixup_mono hle hfix, hdone⟩⟩

theorem removeTarget_mono {s : Rbt} {nd p : Ptr} (hle : fuel ≤ fuel')
    (h : removeTarget fuel s nd = .ok p) : removeTarget fuel' s nd = .ok p := by
  unfold removeTarget smpRbtSuccessor at h ⊢
  split_ifs at h ⊢
  · exact h
  · exact loop_mono hle h
  · exact loop_mono hle h

theorem removeTakeOut_mono {s r : Rbt} {nd tmp itor : Ptr} (hle : fuel ≤ fuel')
    (h : removeTakeOut fuel s nd tmp itor = .ok r) :
    removeTakeOut fuel' s nd tmp itor = .ok r := by
  unfold removeTakeOut at h ⊢
  simp only at h ⊢
  split_ifs at h ⊢ <;> first | exact smpDeleteFixup_mono hle h | exact h

theorem smpRnodeRemove_mono {s : Rbt} {nd : Ptr} {r : Ptr × Rbt} (hle : fuel ≤ fuel')
    (h : smpRnodeRemove fuel s nd = .ok r) : smpRnodeRemove fuel' s nd = .ok r := by
  unfold smpRnodeRemove at h ⊢
  by_cases hnd : nd = .null
  · rw [if_pos hnd] at h ⊢
    exact h
  · rw [if_neg hnd] at h ⊢
    rcases Exec.bind_eq_ok.mp h with ⟨tmp, htarget, hrest⟩
    rcases Exec.bind_eq_ok.mp hrest with ⟨u, htake, hdone⟩
    exact Exec.bind_eq_ok.mpr ⟨tmp, removeTarget_mono hle htarget,
      Exec.bind_eq_ok.mpr ⟨u, removeTakeOut_mono hle htake, hdone⟩⟩

/-- A finished operation does not depend on the fuel. -/
theorem Op.run_mono {s : Rbt} {op : Op} {r : Reply × Rbt} (hle : fuel ≤ fuel')
    (h : op.run keyCmp fuel s = .ok r) : op.run keyCmp fuel' s = .ok r := by
  cases op with
  | insert nd cell =>
      rcases Exec.bind_eq_ok.mp h with ⟨u, hrun, hrest⟩
      exact Exec.bind_eq_ok.mpr ⟨u, smpRnodeInsert_mono hle hrun, hrest⟩
  | remove nd =>
      rcases Exec.bind_eq_ok.mp h with ⟨u, hrun, hrest⟩
      exact Exec.bind_eq_ok.mpr ⟨u, smpRnodeRemove_mono hle hrun, hrest⟩
  | findRemove key =>
      rcases Exec.bind_eq_ok.mp h with ⟨u, hrun, hrest⟩
      refine Exec.bind_eq_ok.mpr ⟨u, ?_, hrest⟩
      unfold smpRnodeFindRemove at hrun ⊢
      by_cases hkey : key = NULL
      · rw [if_pos hkey] at hrun ⊢
        exact hrun
      · rw [if_neg hkey] at hrun ⊢
        rcases Exec.bind_eq_ok.mp hrun with ⟨p, hfind, hremove⟩
        refine Exec.bind_eq_ok.mpr ⟨p, loop_mono hle hfind, ?_⟩
        by_cases hp : p = .null
        · rw [if_pos hp] at hremove ⊢
          exact hremove
        · rw [if_neg hp] at hremove ⊢
          exact smpRnodeRemove_mono hle hremove

/-- Two finished runs of one operation have the same outcome. -/
theorem Op.run_unique {s : Rbt} {op : Op} {r r' : Reply × Rbt}
    (h : op.run keyCmp fuel s = .ok r) (h' : op.run keyCmp fuel' s = .ok r') : r = r' := by
  have hmax := Op.run_mono (Nat.le_max_left fuel fuel') h
  rw [Op.run_mono (Nat.le_max_right fuel fuel') h'] at hmax
  exact (Except.ok.inj hmax).symm

end Fuel

/-! ## Every run -/

/-- One node has left the tree, and no node of the tree leads to it. -/
structure TakenOut (s s' : Rbt) (out : Ptr) : Prop where
  was : InTree s out
  others : ∀ x, InTree s' x ↔ InTree s x ∧ x ≠ out
  size : s'.size + 1 = s.size
  unreachable : ∀ q, InTree s' q → ¬ Relation.ReflTransGen (Points s') q out

/-- Which nodes an operation puts into the tree or takes out of it, and what it returns. -/
def Op.Moves (keyCmp : VoidPtr → VoidPtr → Int) (s s' : Rbt) : Op → Reply → Prop
  | .insert nd _, r => r = .status .ok ∧ s'.size = s.size + 1 ∧
      ∀ x, InTree s' x ↔ InTree s x ∨ x = .node nd
  | .remove _, r => ∃ out, r = .node out ∧ TakenOut s s' out
  | .findRemove key, r =>
      (r = .node .null ∧ s' = s ∧ (key = NULL ∨ ∀ x, InTree s x → keyCmp (s.key x) key ≠ 0)) ∨
        ∃ nd out, r = .node out ∧ InTree s nd ∧ keyCmp (s.key nd) key = 0 ∧ TakenOut s s' out

/-- A removal hands back a node that is in no part of the inorder sequence behind it. -/
theorem Removed.mem_iff {nd out : Ptr} {s' : Rbt} {t' : Tree Ptr} (h : Rep s t)
    (hrem : Removed s s' nd out t t') (x : Ptr) : x ∈ t'.toList ↔ x ∈ t.toList ∧ x ≠ out := by
  have hnodup := h.nodup
  rcases hrem.place with ⟨l₁, l₂, ht, ⟨rfl, ht'⟩ | ⟨l₃, rfl, ht'⟩⟩
  · rw [ht] at hnodup
    simp only [List.nodup_append', List.nodup_cons, List.disjoint_left, List.mem_cons] at hnodup
    simp only [ht, ht', List.mem_append, List.mem_cons]
    constructor
    · intro hmem
      refine ⟨by tauto, ?_⟩
      rintro rfl
      tauto
    · tauto
  · rw [ht] at hnodup
    simp only [List.nodup_append', List.nodup_cons, List.disjoint_left, List.mem_cons] at hnodup
    simp only [ht, ht', List.mem_append, List.mem_cons]
    constructor
    · intro hmem
      refine ⟨by tauto, ?_⟩
      rintro rfl
      rcases hmem with hmem | rfl | hmem
      · exact hnodup.2.2 hmem (Or.inr (Or.inl rfl))
      · exact hnodup.2.1.1 (Or.inl rfl)
      · exact hnodup.2.1.2.1 hmem
    · tauto

/-- A removal takes out the node that it hands back. -/
theorem Removed.takenOut (h : Valid keyCmp s t) {nd out : Ptr} {s' : Rbt} {t' : Tree Ptr}
    (hrem : Removed s s' nd out t t') : TakenOut s s' out := by
  have hmem := hrem.mem_iff h.rep
  have hout : out ∈ t.toList := by
    rcases hrem.place with ⟨l₁, l₂, ht, ⟨rfl, -⟩ | ⟨l₃, rfl, -⟩⟩
    · simp [ht]
    · simp [ht]
  constructor
  case was => exact h.rep.inTree_iff.mpr hout
  case others =>
    intro x
    rw [hrem.rep.inTree_iff, h.rep.inTree_iff, hmem]
  case size =>
    have hpos := List.length_pos_of_mem hout
    rw [hrem.size, h.size]
    omega
  case unreachable =>
    intro q hq hreach
    rcases hrem.rep.pointsTo (hrem.rep.inTree_iff.mp hq) hreach with hnil | hin
    · exact (h.rep.isNode hout).ne_nil hnil
    · exact ((hmem out).mp hin).2 rfl

/-- An allowed operation terminates within as many passes as the tree has nodes, and
keeps the invariant. -/
theorem valid_step (hcmp : TotalPreorder keyCmp) (h : Valid keyCmp s t) {op : Op}
    (hop : op.Allowed s) (hfuel : s.size < fuel) :
    ∃ r s' t', op.run keyCmp fuel s = .ok (r, s') ∧ Valid keyCmp s' t' ∧
      op.Moves keyCmp s s' r := by
  cases op with
  | insert nd cell =>
      have hout : Ptr.node nd ∉ t.toList := fun hmem => hop (h.rep.inTree_iff.mpr hmem)
      rcases valid_insert hcmp h cell hout hfuel with
        ⟨s', t', hrun, hvalid, hnodes, -, l₁, l₂, hkeys, hkeys', -⟩
      refine ⟨_, s', t', hrun, hvalid, rfl, ?_, fun x => ?_⟩
      · have hlength := congrArg List.length hkeys
        have hlength' := congrArg List.length hkeys'
        simp only [keysOf, List.length_map, List.length_append,
          List.length_cons] at hlength hlength'
        rw [hvalid.size, h.size]
        omega
      · rw [hvalid.rep.inTree_iff, h.rep.inTree_iff, hnodes]
  | remove nd =>
      rcases valid_remove h (h.rep.inTree_iff.mp hop) hfuel with
        ⟨out, s', t', hrun, hrem, hvalid⟩
      exact ⟨_, s', t', hrun, hvalid, out, rfl, hrem.takenOut h⟩
  | findRemove key =>
      rcases valid_findRemove hcmp h key hfuel with
        ⟨hrun, hnone⟩ | ⟨nd, out, s', t', hrun, -, hnd, heq, hrem, hvalid⟩
      · refine ⟨_, s, t, hrun, h, Or.inl ⟨rfl, rfl, hnone.imp id fun hnone x hx => ?_⟩⟩
        exact hnone x (h.rep.inTree_iff.mp hx)
      · exact ⟨_, s', t', hrun, hvalid, Or.inr ⟨nd, out, rfl, h.rep.inTree_iff.mpr hnd, heq,
          hrem.takenOut h⟩⟩

/-- The invariant holds in every reachable state. -/
theorem Reachable.valid (hcmp : TotalPreorder keyCmp) (h : Reachable keyCmp s) :
    ∃ t, Valid keyCmp s t := by
  induction h with
  | create mem => exact ⟨.leaf, valid_create mem⟩
  | @step s s' r op fuel _ hop hrun ih =>
      rcases ih with ⟨t, hvalid⟩
      rcases valid_step hcmp hvalid hop (Nat.lt_succ_self s.size) with
        ⟨r', s'', t', hrun', hvalid', -⟩
      have heq := Op.run_unique hrun hrun'
      simp only [Prod.mk.injEq] at heq
      exact ⟨t', heq.2 ▸ hvalid'⟩

end RbTree
end Smpcil
