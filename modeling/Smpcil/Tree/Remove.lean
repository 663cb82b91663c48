import Smpcil.Tree.DeleteFixup
import Smpcil.Tree.Lookup

/-!
# Removal

`smp_rnode_remove` on a struct that represents a balanced tree.  The node struct that
leaves the tree is the one asked for, or, below two children, that of the next node in
order, whose key moves to the node asked for.

Main results:

- Theorem {lit}`Rep.splice`: the stores that put a child in the place of its parent.
- Theorem {lit}`Removed.eraseKey`: the keys of the tree lose exactly the one asked for.
- Theorem {lit}`smpRnodeRemove_spec`: the whole operation.
-/

namespace Smpcil
namespace RbTree

open RedBlack KeyOrder
open Loops (Pass loop loop_spec)

/-! ## Splicing out a node -/

/-- The stores that put {lit}`itor` in the place of {lit}`x` below {lit}`par`. -/
def splice (s : Rbt) (x itor par : Ptr) : Rbt :=
  relink (s.setParent itor par) par x itor

section Splice

variable {s : Rbt} {k : List (Frame Ptr)} {d : Side} {c : Color} {b : Tree Ptr} {x : Ptr}

theorem splice_parent (itor par q : Ptr) :
    (splice s x itor par).parent q = if q = itor then par else s.parent q := by
  simp [splice]

theorem splice_color (itor par q : Ptr) : (splice s x itor par).color q = s.color q := by
  simp [splice]

theorem splice_child (itor par q : Ptr) (e : Side) :
    (splice s x itor par).child e q =
      if q = par ∧ par ≠ .nil ∧ e = (if x = s.child .left par then .left else .right) then itor
      else s.child e q := by
  simp [splice, relink_child]

theorem splice_root (itor par : Ptr) :
    (splice s x itor par).root = if par = .nil then itor else s.root := by
  simp [splice]

theorem splice_sameLinks {itor par q : Ptr} (hitor : q ≠ itor) (hpar : q ≠ par) :
    SameLinks s (splice s x itor par) q := by
  refine ⟨splice_color itor par q, ?_, fun e => ?_⟩
  · rw [splice_parent]
    simp [hitor]
  · rw [splice_child]
    simp [hpar]

/-- The context of the spliced node gets its child in the hole. -/
theorem Rep.splice_above (h : Rep s (plug k (Tree.join d c .leaf x b))) :
    LinkedAbove (splice s x (rootPtr b) (holeParent k)) k (rootPtr b) := by
  have hnd := nodup_plug.mp h.nodup
  have habove := h.split.1
  have hx := h.links_focus.1
  have hout : ∀ q ∈ around k, q ≠ rootPtr b := by
    intro q hq
    apply (habove.isNode hq).ne_rootPtr
    intro hb
    exact hnd.2.2 q (by simp [hb]) hq
  cases k with
  | nil =>
      change (splice s x (rootPtr b) (holeParent [])).root = rootPtr b
      rw [splice_root]
      simp [holeParent]
  | cons f k =>
      rcases habove with ⟨hf, hc, hp, hin, hsibPtr, hsib, habove⟩
      have hnd' := nodup_around_cons.mp hnd.2.1
      have hfb := hout f.elem (by simp)
      rw [rootPtr_join] at hin
      have hxsib : x ≠ rootPtr f.sibling := by
        apply hx.ne_rootPtr
        intro hs
        exact hnd.2.2 x (by simp) (by simp [hs])
      have hside := side_eq_ite hin hsibPtr hxsib
      refine ⟨hf, ?_, ?_, ?_, ?_, ?_, ?_⟩
      · rw [splice_color, hc]
      · rw [splice_parent]
        simp [hfb, hp]
      · rw [splice_child, holeParent, ← hside]
        simp [hf.ne_nil]
      · rw [splice_child, holeParent, ← hside]
        simp [Side.flip_ne, hsibPtr]
      · refine hsib.congr fun q hq => splice_sameLinks (hout q (by simp [hq])) ?_
        rintro rfl
        exact hnd'.1 hq
      · refine habove.congr ?_ fun q hq => splice_sameLinks (hout q (by simp [hq])) ?_
        · rw [splice_root]
          simp [holeParent, hf.ne_nil]
        · rintro rfl
          exact hnd'.2.1 hq

/-- Putting its only child in the place of a node takes the node out of the tree. -/
theorem Rep.splice (h : Rep s (plug k (Tree.join d c .leaf x b))) :
    Rep (splice s x (rootPtr b) (holeParent k)) (plug k b) := by
  have hnd := nodup_plug.mp h.nodup
  have hndb := nodup_join.mp hnd.1
  have hlb := (linked_join.mp h.split.2).2.2.2.2.2.2
  have hpar : ∀ q ∈ b.toList, q ≠ holeParent k := by
    intro q hq
    exact (hlb.isNode hq).ne_holeParent (hnd.2.2 q (by simp [hq]))
  have hbelow : Linked (RbTree.splice s x (rootPtr b) (holeParent k)) (holeParent k) b := by
    refine hlb.reparent hndb.2.2.2.1 (fun q hq heq => ?_) fun q hq hne => ?_
    · refine ⟨splice_color _ _ q, ?_, fun e => ?_⟩
      · rw [splice_parent]
        simp [heq]
      · rw [splice_child]
        simp [hpar q hq]
    · exact splice_sameLinks hne (hpar q hq)
  have hplug := linked_plug.mpr ⟨h.splice_above, hbelow⟩
  refine ⟨hplug.1, hplug.2, ?_, ?_, ?_⟩
  · rw [nodup_plug]
    exact ⟨hndb.2.2.2.1, hnd.2.1, fun y hy => hnd.2.2 y (by simp [hy])⟩
  · rw [splice_color, h.nilBlack]
  · simp only [RbTree.splice, relink_trace, Rbt.setParent_trace]
    exact h.traceOk

end Splice

/-! ## The node that leaves the tree -/

theorem removeTakeOut_eq {s : Rbt} {nd tmp itor : Ptr} (fuel : Nat) (hne : tmp ≠ itor) :
    removeTakeOut fuel s nd tmp itor =
      if s.color tmp = .black then
        smpDeleteFixup fuel ((splice s tmp itor (s.parent tmp)).setKey nd (s.key tmp)) itor
      else .ok ((splice s tmp itor (s.parent tmp)).setKey nd (s.key tmp)) := by
  have hsplice : ∀ u : Rbt, u = s.setParent itor (s.parent tmp) →
      (if u.parent tmp = .nil then { u with root := itor }
        else if tmp = u.child .left (u.parent tmp) then u.setChild .left (u.parent tmp) itor
        else u.setChild .right (u.parent tmp) itor) = splice s tmp itor (s.parent tmp) := by
    rintro u rfl
    simp [splice, relink, hne]
  simp only [removeTakeOut]
  rw [hsplice _ rfl, if_pos hne]
  simp [splice]

/-- The effect of {lit}`removeTakeOut` at the focus {lit}`tmp` with one child. -/
theorem removeTakeOut_spec {s : Rbt} {k : List (Frame Ptr)} {d : Side} {c : Color}
    {b : Tree Ptr} {tmp : Ptr} {n fuel : Nat} (nd : Ptr)
    (h : Rep s (plug k (Tree.join d c .leaf tmp b)))
    (hbal : Balanced (plug k (Tree.join d c .leaf tmp b)) .black n)
    (hfuel : k.length < fuel) :
    ∃ s' t' m, removeTakeOut fuel s nd tmp (rootPtr b) = .ok s' ∧ Rep s' t' ∧
      t'.toList = (plug k b).toList ∧ Balanced t' .black m ∧
      SameData ((splice s tmp (rootPtr b) (holeParent k)).setKey nd (s.key tmp)) s' := by
  have hlinks := h.links_focus
  have hne : tmp ≠ rootPtr b := by
    have hnd := nodup_join.mp (nodup_plug.mp h.nodup).1
    exact hlinks.1.ne_rootPtr hnd.2.1
  have hsplice : Rep ((splice s tmp (rootPtr b) (holeParent k)).setKey nd (s.key tmp))
      (plug k b) :=
    h.splice.congr rfl (fun q _ => ⟨by simp, by simp, by simp⟩) (by simp) (by simp)
  rw [removeTakeOut_eq fuel hne, hlinks.2.1, hlinks.2.2.1]
  rcases hbal.split with ⟨c', n', hfocus, hhole⟩
  cases c with
  | red =>
      rcases hfocus.of_joinRed with ⟨rfl, -, hb⟩
      rcases hhole.black_of_red.plug hb with ⟨m, hm⟩
      exact ⟨_, plug k b, m, by simp, hsplice, rfl, hm, SameData.refl _⟩
  | black =>
      rcases hfocus.of_joinBlack with ⟨rfl, m, c₁, c₂, rfl, -, hb⟩
      have hnil : b = .leaf →
          ((splice s tmp (rootPtr b) (holeParent k)).setKey nd (s.key tmp)).parent .nil =
            holeParent k := by
        rintro rfl
        simp [splice_parent]
      rcases smpDeleteFixup_spec hsplice hnil (Short.of_balanced hb) hhole hfuel with
        ⟨s', t', m', hrun, hdata, hrep, horder, hbal'⟩
      exact ⟨s', t', m', by simp [hrun], hrep, horder, hbal', hdata⟩

section Detach

variable (s : Rbt) (tmp q : Ptr) (key : VoidPtr)

theorem removeDetach_sameLinks (h : q ≠ tmp) : SameLinks s (removeDetach s tmp key) q := by
  simp [SameLinks, removeDetach, h, Rbt.parent, Rbt.child, Rbt.color, Rbt.setChild,
    Rbt.setParent, Rbt.setKey, Rbt.store]

theorem removeDetach_key :
    (removeDetach s tmp key).key q = if q = tmp then key else s.key q := by
  simp only [removeDetach, Rbt.setChild_key, Rbt.setParent_key, Rbt.setKey_key]
  rfl

theorem removeDetach_carrier : (removeDetach s tmp key).carrier q = s.carrier q := by
  simp only [removeDetach, Rbt.setChild_carrier, Rbt.setParent_carrier, Rbt.setKey_carrier]
  rfl

theorem removeDetach_links : (removeDetach s tmp key).parent tmp = .null ∧
    ∀ d, (removeDetach s tmp key).child d tmp = .null := by
  constructor
  · simp [removeDetach]
  · intro d
    cases d <;> simp [removeDetach]

end Detach

/-! ## The whole operation -/

/-- What the removal of {lit}`nd` turns the tree {lit}`t` of {lit}`s` into, when it hands
back {lit}`out`. -/
structure Removed (s s' : Rbt) (nd out : Ptr) (t t' : Tree Ptr) : Prop where
  rep : Rep s' t'
  balanced : ∃ m, Balanced t' .black m
  place : ∃ l₁ l₂, t.toList = l₁ ++ nd :: l₂ ∧
    ((out = nd ∧ t'.toList = l₁ ++ l₂) ∨
      ∃ l₃, l₂ = out :: l₃ ∧ t'.toList = l₁ ++ nd :: l₃)
  which : out = nd ↔ s.child .left nd = .nil ∨ s.child .right nd = .nil
  keyNd : out ≠ nd → s'.key nd = s.key out
  keyOut : s'.key out = s.key nd
  key : ∀ q, q ≠ nd → q ≠ out → s'.key q = s.key q
  carrier : ∀ q, s'.carrier q = s.carrier q
  size : s'.size = s.size - 1
  links : s'.parent out = .null ∧ ∀ d, s'.child d out = .null
  nilParent : t' = .leaf → s'.parent .nil = .nil

/-- A removal erases the key of the node it was asked for from the inorder sequence. -/
theorem Removed.eraseKey {s s' : Rbt} {nd out : Ptr} {t t' : Tree Ptr}
    (h : Removed s s' nd out t t') (hnodup : t.toList.Nodup) :
    keysOf s' t' = (keysOf s t).eraseIdx (t.toList.idxOf nd) := by
  rcases h.place with ⟨l₁, l₂, ht, hcases⟩
  rw [ht] at hnodup
  have hparts := List.nodup_append'.mp hnodup
  have hnd₁ : nd ∉ l₁ := fun hmem => List.disjoint_left.mp hparts.2.2 hmem (by simp)
  have hnd₂ : nd ∉ l₂ := (List.nodup_cons.mp hparts.2.1).1
  have hidx : t.toList.idxOf nd = (l₁.map s.key).length := by
    rw [ht, List.idxOf_append_of_notMem hnd₁]
    simp
  have herase : (keysOf s t).eraseIdx (t.toList.idxOf nd) = l₁.map s.key ++ l₂.map s.key := by
    rw [hidx, keysOf, ht, List.map_append, List.map_cons,
      List.eraseIdx_append_of_length_le (Nat.le_refl _)]
    simp
  rw [herase, keysOf]
  rcases hcases with ⟨rfl, ht'⟩ | ⟨l₃, rfl, ht'⟩
  · have hkey : ∀ q, q ≠ out → s'.key q = s.key q := fun q hq => h.key q hq hq
    rw [ht', List.map_append]
    congr 1
    · exact List.map_congr_left fun q hq => hkey q fun heq => hnd₁ (heq ▸ hq)
    · exact List.map_congr_left fun q hq => hkey q fun heq => hnd₂ (heq ▸ hq)
  · have hout₁ : out ∉ l₁ := fun hmem => List.disjoint_left.mp hparts.2.2 hmem (by simp)
    have hout₃ : out ∉ l₃ := (List.nodup_cons.mp (List.nodup_cons.mp hparts.2.1).2).1
    have hne : out ≠ nd := fun heq => hnd₂ (by simp [heq])
    have hnd₃ : nd ∉ l₃ := fun hmem => hnd₂ (by simp [hmem])
    rw [ht', List.map_append, List.map_cons, List.map_cons, h.keyNd hne]
    congr 1
    · exact List.map_congr_left fun q hq =>
        h.key q (fun heq => hnd₁ (heq ▸ hq)) fun heq => hout₁ (heq ▸ hq)
    · congr 1
      exact List.map_congr_left fun q hq =>
        h.key q (fun heq => hnd₃ (heq ▸ hq)) fun heq => hout₃ (heq ▸ hq)

section Whole

variable {s : Rbt} {k : List (Frame Ptr)} {d : Side} {c : Color} {b l r t : Tree Ptr}
  {tmp nd : Ptr} {n fuel : Nat}

/-- A removal moves a node out of the tree. -/
theorem Removed.nodes_perm {s s' : Rbt} {nd out : Ptr} {t t' : Tree Ptr}
    (h : Removed s s' nd out t t') :
    (out :: t'.toList).Perm t.toList := by
  rcases h.place with ⟨l₁, l₂, ht, ⟨rfl, ht'⟩ | ⟨l₃, rfl, ht'⟩⟩
  · rw [ht, ht']
    exact List.perm_middle.symm
  · rw [ht, ht']
    have hswap : (out :: (l₁ ++ nd :: l₃)).Perm (l₁ ++ out :: nd :: l₃) := List.perm_middle.symm
    exact hswap.trans ((List.Perm.swap nd out l₃).append_left l₁)

/-- With the struct that it hands back a removal keeps the keys. -/
theorem Removed.keys_perm {s s' : Rbt} {nd out : Ptr} {t t' : Tree Ptr}
    (h : Removed s s' nd out t t') (hnodup : t.toList.Nodup) :
    (s'.key out :: keysOf s' t').Perm (keysOf s t) := by
  have hnd : nd ∈ t.toList := by
    rcases h.place with ⟨l₁, l₂, ht, -⟩
    simp [ht]
  have hlt : t.toList.idxOf nd < (keysOf s t).length := by
    rw [keysOf, List.length_map]
    exact List.idxOf_lt_length_of_mem hnd
  have hkey : (keysOf s t)[t.toList.idxOf nd] = s'.key out := by
    simp only [keysOf, List.getElem_map, List.getElem_idxOf, h.keyOut]
  rw [h.eraseKey hnodup, ← hkey]
  exact List.getElem_cons_eraseIdx_perm hlt

/-- The only child of a node, as a removal looks for it. -/
theorem Rep.onlyChild (h : Rep s (plug k (Tree.join d c .leaf tmp b))) :
    (if s.child .left tmp ≠ .nil then s.child .left tmp else s.child .right tmp) = rootPtr b := by
  have hlinks := h.links_focus
  cases d with
  | left =>
      have hleft : s.child .left tmp = .nil := hlinks.2.2.2.1
      have hright : s.child .right tmp = rootPtr b := hlinks.2.2.2.2
      simp [hleft, hright]
  | right =>
      have hleft : s.child .left tmp = rootPtr b := hlinks.2.2.2.2
      have hright : s.child .right tmp = .nil := hlinks.2.2.2.1
      by_cases hb : rootPtr b = .nil <;> simp [hleft, hright, hb]

/-- A removal that unlinks the node {lit}`tmp`, which has at most the child {lit}`b`. -/
theorem smpRnodeRemove_unlink (h : Rep s (plug k (Tree.join d c .leaf tmp b)))
    (hbal : Balanced (plug k (Tree.join d c .leaf tmp b)) .black n) (hfuel : k.length < fuel)
    (hnd : nd ≠ .null) (htarget : removeTarget fuel s nd = .ok tmp) :
    ∃ s' t' m, smpRnodeRemove fuel s nd = .ok (tmp, s') ∧ Rep s' t' ∧
      t'.toList = (plug k b).toList ∧ Balanced t' .black m ∧
      (∀ q, s'.key q = if q = tmp then s.key nd else if q = nd then s.key tmp else s.key q) ∧
      (∀ q, s'.carrier q = s.carrier q) ∧ s'.size = s.size - 1 ∧
      (s'.parent tmp = .null ∧ ∀ e, s'.child e tmp = .null) ∧
      (t' = .leaf → s'.parent .nil = .nil) := by
  have hlinks := h.links_focus
  have hitor := h.onlyChild
  rcases removeTakeOut_spec nd h hbal hfuel with ⟨s', t', m, hrun, hrep, horder, hbal', hdata⟩
  have hout : tmp ∉ t'.toList := by
    have hnodup := nodup_plug.mp h.nodup
    have hjoin := nodup_join.mp hnodup.1
    rw [horder, mem_toList_plug]
    rintro (hmem | hmem)
    · exact hjoin.2.1 hmem
    · exact hnodup.2.2 tmp (by simp) hmem
  refine ⟨removeDetach s' tmp (s.key nd), t', m, ?_, ?_, horder, hbal', ?_, ?_, ?_,
    removeDetach_links s' tmp (s.key nd), ?_⟩
  · simp only [smpRnodeRemove, if_neg hnd, htarget, bind, Except.bind, pure, Except.pure, hitor,
      hrun]
  · refine hrep.congr rfl (fun q hq => removeDetach_sameLinks s' tmp q _ ?_) ?_ ?_
    · exact fun heq => hout (heq ▸ hq)
    · exact (removeDetach_sameLinks s' tmp .nil _ (Ne.symm hlinks.1.ne_nil)).1
    · simp [removeDetach]
  · intro q
    rw [removeDetach_key, hdata.key]
    simp [splice]
  · intro q
    rw [removeDetach_carrier, hdata.carrier]
    simp [splice]
  · have hsize : (removeDetach s' tmp (s.key nd)).size = s'.size - 1 := by
      simp [removeDetach]
    rw [hsize, hdata.size]
    simp [splice]
  · rintro rfl
    -- nothing is left, so the unlinked node was the root
    have hempty : (plug k b).toList = [] := horder.symm
    have hnone : ∀ q, q ∉ (plug k b).toList := by simp [hempty]
    cases k with
    | cons f k =>
        exact absurd (mem_toList_plug.mpr (Or.inr (by simp))) (hnone f.elem)
    | nil =>
        cases b with
        | node c' l' y r' =>
            exact absurd (mem_toList_plug.mpr (Or.inl (by simp [Tree.toList]))) (hnone y)
        | leaf =>
            rw [(removeDetach_sameLinks s' tmp .nil _ (Ne.symm hlinks.1.ne_nil)).2.1,
              hdata.nilParent]
            simp [splice_parent, holeParent]

theorem rootPtr_eq_nil {par : Ptr} (h : Linked s par t) : rootPtr t = .nil ↔ t = .leaf := by
  constructor
  · intro hnil
    by_contra hne
    exact (h.isNode (rootPtr_mem hne)).ne_nil hnil
  · rintro rfl
    rfl

/-- The successor of a node with a right child is the first node of its right subtree. -/
theorem smpRbtSuccessor_spec (h : Rep s (plug k (.node c l nd r))) (hr : r ≠ .leaf)
    (hfuel : r.size < fuel) :
    ∃ p, smpRbtSuccessor fuel s nd = .ok p ∧ DescendDone .left r p := by
  have hfocus : Rep s (plug (⟨.right, c, nd, l⟩ :: k) r) := h
  have hlinks := Rep.links_focus (d := .left) h
  have hright : s.child .right nd = rootPtr r := hlinks.2.2.2.2
  have hne : rootPtr r ≠ .nil := by
    rw [Ne, rootPtr_eq_nil hfocus.split.2]
    exact hr
  rcases descend_spec (d := .left) hfocus hr hfuel with ⟨p, hp, hdone⟩
  refine ⟨p, ?_, hdone⟩
  rw [← hright] at hp hne
  simp only [smpRbtSuccessor, ne_eq, hne, not_false_eq_true, if_true]
  exact hp

/-- Below two children the removal unlinks the successor. -/
theorem removeTarget_successor (h : Rep s (plug k (.node c l nd r))) (hl : l ≠ .leaf)
    (hr : r ≠ .leaf) (hfuel : r.size < fuel) :
    ∃ out k' c' b, removeTarget fuel s nd = .ok out ∧
      r = plug k' (Tree.join .left c' .leaf out b) ∧ (∀ f ∈ k', f.side = .left) ∧
      s.child .left nd ≠ .nil ∧ s.child .right nd ≠ .nil := by
  have hlinks := Rep.links_focus (d := .left) h
  rcases h.split.2 with ⟨-, -, -, -, -, hll, hlr⟩
  have hleft : s.child .left nd ≠ .nil := by
    rw [hlinks.2.2.2.1, Ne, rootPtr_eq_nil hll]
    exact hl
  have hright : s.child .right nd ≠ .nil := by
    have hchild : s.child .right nd = rootPtr r := hlinks.2.2.2.2
    rw [hchild, Ne, rootPtr_eq_nil hlr]
    exact hr
  rcases smpRbtSuccessor_spec h hr hfuel with ⟨out, hsucc, k', c', b, rfl, hside⟩
  exact ⟨out, k', c', b, by simp [removeTarget, hleft, hright, hsucc], rfl, hside, hleft, hright⟩

/-- A node with a missing child leaves the tree itself. -/
theorem smpRnodeRemove_self (h : Rep s (plug k (Tree.join d c .leaf nd b)))
    (hbal : Balanced (plug k (Tree.join d c .leaf nd b)) .black n) (hfuel : k.length < fuel) :
    ∃ s' t', smpRnodeRemove fuel s nd = .ok (nd, s') ∧
      Removed s s' nd nd (plug k (Tree.join d c .leaf nd b)) t' := by
  have hlinks := h.links_focus
  have hwhich : s.child .left nd = .nil ∨ s.child .right nd = .nil := by
    cases d with
    | left => exact Or.inl hlinks.2.2.2.1
    | right => exact Or.inr hlinks.2.2.2.1
  have htarget : removeTarget fuel s nd = .ok nd := if_pos hwhich
  rcases smpRnodeRemove_unlink h hbal hfuel hlinks.1.ne_null htarget with
    ⟨s', t', m, hrun, hrep, horder, hbal', hkey, hcarrier, hsize, hlinks', hnil⟩
  refine ⟨s', t', hrun, ?_⟩
  constructor
  · exact hrep
  · exact ⟨m, hbal'⟩
  · cases d with
    | left =>
        refine ⟨before k, b.toList ++ after k, ?_, Or.inl ⟨rfl, ?_⟩⟩
        · simp [toList_plug, Tree.join, Tree.toList]
        · rw [horder, toList_plug, List.append_assoc]
    | right =>
        refine ⟨before k ++ b.toList, after k, ?_, Or.inl ⟨rfl, ?_⟩⟩
        · simp [toList_plug, Tree.join, Tree.toList]
        · rw [horder, toList_plug]
  · simp [hwhich]
  · intro hne
    exact absurd rfl hne
  · simp [hkey]
  · intro q hq _
    simp [hkey, hq]
  · exact hcarrier
  · exact hsize
  · exact hlinks'
  · exact hnil

/-- Below two children the successor leaves the tree and its key stays. -/
theorem smpRnodeRemove_successor (h : Rep s (plug k (.node c l nd r)))
    (hbal : Balanced (plug k (.node c l nd r)) .black n) (hl : l ≠ .leaf) (hr : r ≠ .leaf)
    (hfuel : (plug k (.node c l nd r)).size < fuel) :
    ∃ out s' t', smpRnodeRemove fuel s nd = .ok (out, s') ∧
      Removed s s' nd out (plug k (.node c l nd r)) t' := by
  have hlinks := Rep.links_focus (d := .left) h
  have hsize := length_add_size_le k (.node c l nd r)
  simp only [Tree.size] at hsize
  rcases removeTarget_successor h hl hr (show r.size < fuel by omega) with
    ⟨out, k', c', b, htarget, rfl, hside, hleft, hright⟩
  -- the focus moves from the node asked for to its successor
  have hmove : plug k (.node c l nd (plug k' (Tree.join .left c' .leaf out b))) =
      plug (k' ++ ⟨.right, c, nd, l⟩ :: k) (Tree.join .left c' .leaf out b) := by
    rw [plug_append]
    rfl
  have hne : out ≠ nd := by
    rintro rfl
    have hnd := (nodup_join (d := .left) (c := c)).mp (nodup_plug.mp h.nodup).1
    exact hnd.2.1 (by simp)
  rw [hmove] at h hbal hfuel ⊢
  have hdepth := length_add_size_le (k' ++ ⟨.right, c, nd, l⟩ :: k)
    (Tree.join .left c' .leaf out b)
  rcases smpRnodeRemove_unlink h hbal (by omega) hlinks.1.ne_null htarget with
    ⟨s', t', m, hrun, hrep, horder, hbal', hkey, hcarrier, hsize', hlinks', hnil⟩
  have hbefore := before_of_left hside
  refine ⟨out, s', t', hrun, ?_⟩
  constructor
  · exact hrep
  · exact ⟨m, hbal'⟩
  · refine ⟨before k ++ l.toList, out :: (b.toList ++ after k' ++ after k), ?_,
      Or.inr ⟨b.toList ++ after k' ++ after k, rfl, ?_⟩⟩
    · rw [plug_append, toList_plug, toList_plug]
      simp [before, after, Tree.join, Tree.toList, hbefore]
    · rw [horder, plug_append, toList_plug, toList_plug]
      simp [before, after, hbefore]
  · simp [hne, hleft, hright]
  · intro _
    simp [hkey, Ne.symm hne]
  · simp [hkey]
  · intro q hqn hqo
    simp [hkey, hqn, hqo]
  · exact hcarrier
  · exact hsize'
  · exact hlinks'
  · exact hnil

/-- A removal of a node of the tree terminates; it keeps the tree balanced, takes the
key of the node out of the inorder sequence and hands back a node that holds it. -/
theorem smpRnodeRemove_spec (h : Rep s t) (hbal : Balanced t .black n) (hnd : nd ∈ t.toList)
    (hfuel : t.size < fuel) :
    ∃ out s' t', smpRnodeRemove fuel s nd = .ok (out, s') ∧ Removed s s' nd out t t' := by
  rcases exists_plug_of_mem hnd with ⟨k, c, l, r, rfl⟩
  have hdepth := length_add_size_le k (.node c l nd r)
  have hlt : k.length < fuel := by omega
  by_cases hl : l = .leaf
  · subst hl
    rcases smpRnodeRemove_self (d := .left) h hbal hlt with ⟨s', t', hrun, hrem⟩
    exact ⟨nd, s', t', hrun, hrem⟩
  · by_cases hr : r = .leaf
    · subst hr
      rcases smpRnodeRemove_self (d := .right) h hbal hlt with ⟨s', t', hrun, hrem⟩
      exact ⟨nd, s', t', hrun, hrem⟩
    · exact smpRnodeRemove_successor h hbal hl hr hfuel

end Whole

end RbTree
end Smpcil
