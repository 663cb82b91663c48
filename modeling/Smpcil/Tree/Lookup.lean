import Smpcil.Tree.Insert

/-!
# Lookup and traversal

The operations of `smp_rbt.c` that only read the struct: search, the two ends of the
tree and the inorder visit, on a struct that represents a tree with sorted keys.

Main results:

- Theorem {lit}`smpRnodeFind_spec`: the search finds a key of the given rank if there
  is one, on either side of the keys of equal rank.
- Theorem {lit}`descend_spec`: the walk to the outermost node of a subtree.
- Theorems {lit}`smpRnodeMin_spec` and {lit}`smpRnodeMax_spec`: the two ends.
- Theorem {lit}`smpRbtInorder_spec`: the visit.
-/

namespace Smpcil
namespace RbTree

open RedBlack KeyOrder
open Loops (Pass loop loop_spec)

/-! ## Search -/

section Find

variable (keyCmp : VoidPtr → VoidPtr → Int)

/-- The state of the search in `smp_rnode_find`: a place of the tree with all keys
before it ranked below the key searched, and all keys after it ranked above it. -/
structure FindInv (s : Rbt) (key : VoidPtr) (t : Tree Ptr) (bound : Nat) (nd : Ptr) : Prop where
  focus : ∃ k t', t = plug k t' ∧ nd = rootPtr t' ∧ t'.size = bound ∧
    (∀ q ∈ before k, keyCmp (s.key q) key < 0) ∧ ∀ q ∈ after k, 0 < keyCmp (s.key q) key

/-- The result of a search: a node of the rank searched, or null if there is none. -/
def Found (s : Rbt) (key : VoidPtr) (t : Tree Ptr) (p : Ptr) : Prop :=
  (p = .null ∧ ∀ q ∈ t.toList, keyCmp (s.key q) key ≠ 0) ∨
    (p ∈ t.toList ∧ keyCmp (s.key p) key = 0)

variable {keyCmp} {s : Rbt} {key : VoidPtr} {t : Tree Ptr}

/-- One step of the search. -/
theorem findPass_spec (hcmp : TotalPreorder keyCmp) (h : Rep s t)
    (hsorted : Sorted keyCmp (keysOf s t)) (bound : Nat) (nd : Ptr)
    (hinv : FindInv keyCmp s key t bound nd) :
    (∃ p, findPass keyCmp s key nd = .ok (.done p) ∧ Found keyCmp s key t p) ∨
      ∃ nd' m, findPass keyCmp s key nd = .ok (.again nd') ∧
        FindInv keyCmp s key t m nd' ∧ m < bound := by
  rcases hinv with ⟨k, t', rfl, rfl, hbound, hbefore, hafter⟩
  cases t' with
  | leaf =>
      refine Or.inl ⟨.null, by simp [findPass], Or.inl ⟨rfl, ?_⟩⟩
      intro q hq
      rw [toList_plug] at hq
      simp only [Tree.toList, List.append_nil, List.mem_append] at hq
      rcases hq with hq | hq
      · have hlt := hbefore q hq
        omega
      · have hgt := hafter q hq
        omega
  | node c l x r =>
      have hlinks := Rep.links_focus (d := .left) h
      rcases sorted_focus hsorted with ⟨hleft, hright⟩
      have hx : x ≠ .nil := hlinks.1.ne_nil
      simp only [Tree.size] at hbound
      by_cases hgt : 0 < keyCmp (s.key x) key
      · refine Or.inr ⟨rootPtr l, l.size, ?_, ⟨⟨.left, c, x, r⟩ :: k, l, rfl, rfl, rfl, ?_, ?_⟩,
          by omega⟩
        · simp [findPass, hx, hgt, hlinks.2.2.2.1]
        · exact hbefore
        · intro q hq
          simp only [after, List.cons_append, List.mem_cons, List.mem_append] at hq
          rcases hq with rfl | hq | hq
          · exact hgt
          · exact hcmp.lt_of_lt_of_le hgt (hright q hq)
          · exact hafter q hq
      · by_cases hlt : keyCmp (s.key x) key < 0
        · refine Or.inr ⟨rootPtr r, r.size, ?_,
            ⟨⟨.right, c, x, l⟩ :: k, r, rfl, rfl, rfl, ?_, ?_⟩, by omega⟩
          · have hchild : s.child .right x = rootPtr r := hlinks.2.2.2.2
            simp [findPass, hx, hgt, hlt, hchild]
          · intro q hq
            simp only [before, List.mem_append, List.mem_singleton] at hq
            rcases hq with (hq | hq) | rfl
            · exact hbefore q hq
            · exact hcmp.lt_of_le_of_lt (hleft q hq) hlt
            · exact hlt
          · exact hafter
        · refine Or.inl ⟨x, ?_, Or.inr ⟨?_, by omega⟩⟩
          · simp [findPass, hx, hgt, hlt]
          · simp [Tree.toList]

/-- The search terminates with a node of the rank searched if there is one. -/
theorem smpRnodeFind_spec (key : VoidPtr) (hcmp : TotalPreorder keyCmp) (h : Rep s t)
    (hsorted : Sorted keyCmp (keysOf s t)) {fuel : Nat} (hfuel : t.size < fuel) :
    ∃ p, smpRnodeFind keyCmp fuel s key = .ok p ∧ Found keyCmp s key t p := by
  have hinv : FindInv keyCmp s key t t.size s.root :=
    ⟨[], t, rfl, h.root, rfl, by simp [before], by simp [after]⟩
  exact loop_spec _ _ (findPass_spec hcmp h hsorted) hinv hfuel

end Find

/-! ## The outermost node -/

section Descend

variable {s : Rbt} {d : Side} {k : List (Frame Ptr)} {t : Tree Ptr}

/-- The walk of {lit}`descendPass`: every step so far went to side {lit}`d`. -/
structure DescendInv (d : Side) (t : Tree Ptr) (bound : Nat) (p : Ptr) : Prop where
  focus : ∃ k u, t = plug k u ∧ u ≠ .leaf ∧ p = rootPtr u ∧ u.size = bound ∧
    ∀ f ∈ k, f.side = d

/-- The walk ends at a node without a child on side {lit}`d`. -/
def DescendDone (d : Side) (t : Tree Ptr) (p : Ptr) : Prop :=
  ∃ k c b, t = plug k (Tree.join d c .leaf p b) ∧ ∀ f ∈ k, f.side = d

/-- One step of the walk. -/
theorem descendPass_spec (h : Rep s (plug k t)) (bound : Nat) (p : Ptr)
    (hinv : DescendInv d t bound p) :
    (∃ q, descendPass d s p = .ok (.done q) ∧ DescendDone d t q) ∨
      ∃ q m, descendPass d s p = .ok (.again q) ∧ DescendInv d t m q ∧ m < bound := by
  rcases hinv with ⟨k', u, rfl, hu, rfl, hbound, hside⟩
  rw [← plug_append] at h
  cases u with
  | leaf => exact absurd rfl hu
  | node c l x r =>
      rcases Tree.exists_join d c l r x with ⟨near, far, hjoin⟩
      rw [hjoin] at h hbound ⊢
      have hlinks := h.links_focus
      simp only [Tree.size_join] at hbound
      rw [rootPtr_join]
      cases near with
      | leaf =>
          refine Or.inl ⟨x, ?_, k', c, far, rfl, hside⟩
          simp [descendPass, hlinks.2.2.2.1]
      | node c' l' y r' =>
          have hy : y.IsNode := by
            refine h.isNode ?_
            simp [Tree.toList]
          refine Or.inr ⟨y, _, ?_, ⟨⟨d, c, x, far⟩ :: k', .node c' l' y r', rfl, by simp, rfl,
            rfl, ?_⟩, by omega⟩
          · simp [descendPass, hlinks.2.2.2.1, hy.ne_nil]
          · intro f hf
            rcases List.mem_cons.mp hf with rfl | hf
            · rfl
            · exact hside f hf

/-- The walk to side {lit}`d` ends at the outermost node of the subtree. -/
theorem descend_spec (h : Rep s (plug k t)) (ht : t ≠ .leaf) {fuel : Nat}
    (hfuel : t.size < fuel) :
    ∃ p, loop .diverged (descendPass d s) fuel (rootPtr t) = .ok p ∧ DescendDone d t p := by
  have hinv : DescendInv d t t.size (rootPtr t) :=
    ⟨[], t, rfl, ht, rfl, rfl, by simp⟩
  exact loop_spec _ _ (descendPass_spec h) hinv hfuel

/-- Nothing lies before a place reached by steps to the left only. -/
theorem before_of_left (hside : ∀ f ∈ k, f.side = .left) : before k = [] := by
  induction k with
  | nil => rfl
  | cons f k ih =>
      have hf := hside f (by simp)
      have hrest := ih fun g hg => hside g (by simp [hg])
      simp [before, hf, hrest]

/-- Nothing lies after a place reached by steps to the right only. -/
theorem after_of_right (hside : ∀ f ∈ k, f.side = .right) : after k = [] := by
  induction k with
  | nil => rfl
  | cons f k ih =>
      have hf := hside f (by simp)
      have hrest := ih fun g hg => hside g (by simp [hg])
      simp [after, hf, hrest]

/-- The common part of {lit}`smpRnodeMin` and {lit}`smpRnodeMax`. -/
theorem outermost_spec (d : Side) (h : Rep s t) {fuel : Nat} (hfuel : t.size < fuel) :
    ∃ p, outermost d fuel s = .ok p ∧
      ((t = .leaf ∧ p = .null) ∨ (p.IsNode ∧ DescendDone d t p)) := by
  have hroot := h.root
  cases t with
  | leaf =>
      refine ⟨.null, ?_, Or.inl ⟨rfl, rfl⟩⟩
      rw [rootPtr_leaf] at hroot
      simp [outermost, hroot, pure, Except.pure]
  | node c l x r =>
      have hx : x.IsNode := h.isNode (by simp [Tree.toList])
      have hfocus : Rep s (plug [] (.node c l x r)) := h
      rcases descend_spec (d := d) hfocus (by simp) hfuel with ⟨p, hp, hdone⟩
      have hnode : p.IsNode := by
        rcases hdone with ⟨k', c', b, heq, -⟩
        refine h.isNode ?_
        rw [heq]
        simp
      refine ⟨p, ?_, Or.inr ⟨hnode, hdone⟩⟩
      rw [rootPtr_node] at hroot hp
      simp [outermost, hroot, hx.ne_nil, hp, hnode.ne_nil, bind, Except.bind, pure, Except.pure]

end Descend

section Ends

variable {s : Rbt} {t : Tree Ptr} {fuel : Nat}

/-- `smp_rnode_min` returns the first node, or null for an empty tree. -/
theorem smpRnodeMin_spec (h : Rep s t) (hfuel : t.size < fuel) :
    ∃ p, smpRnodeMin fuel s = .ok p ∧
      ((t.toList = [] ∧ p = .null) ∨ t.toList.head? = some p) := by
  rcases outermost_spec .left h hfuel with ⟨p, hp, ⟨rfl, rfl⟩ | ⟨-, k, c, b, rfl, hside⟩⟩
  · exact ⟨.null, hp, Or.inl ⟨rfl, rfl⟩⟩
  · refine ⟨p, hp, Or.inr ?_⟩
    rw [toList_plug, before_of_left hside]
    simp [Tree.join, Tree.toList]

/-- `smp_rnode_max` returns the last node, or null for an empty tree. -/
theorem smpRnodeMax_spec (h : Rep s t) (hfuel : t.size < fuel) :
    ∃ p, smpRnodeMax fuel s = .ok p ∧
      ((t.toList = [] ∧ p = .null) ∨ t.toList.getLast? = some p) := by
  rcases outermost_spec .right h hfuel with ⟨p, hp, ⟨rfl, rfl⟩ | ⟨-, k, c, b, rfl, hside⟩⟩
  · exact ⟨.null, hp, Or.inl ⟨rfl, rfl⟩⟩
  · refine ⟨p, hp, Or.inr ?_⟩
    rw [toList_plug, after_of_right hside]
    simp [Tree.join, Tree.toList]

end Ends

/-! ## The inorder visit -/

/-- The recursion visits the keys of a subtree in order. -/
theorem smpInorder_spec {s : Rbt} {t : Tree Ptr} :
    ∀ {par : Ptr} {fuel : Nat}, Linked s par t → t.size < fuel →
      smpInorder s fuel (rootPtr t) = .ok (keysOf s t) := by
  induction t with
  | leaf =>
      intro par fuel _ hfuel
      cases fuel with
      | zero => omega
      | succ fuel => simp [smpInorder, keysOf, Tree.toList, pure, Except.pure]
  | node c l x r ihl ihr =>
      intro par fuel h hfuel
      rcases h with ⟨hx, -, -, hl, hr, hll, hlr⟩
      simp only [Tree.size] at hfuel
      cases fuel with
      | zero => omega
      | succ fuel =>
          have hleft := ihl hll (show l.size < fuel by omega)
          have hright := ihr hlr (show r.size < fuel by omega)
          simp [smpInorder, hx.ne_nil, hx.ne_null, hl, hr, hleft, hright, keysOf,
            Tree.toList, bind, Except.bind, pure, Except.pure]

/-- `smp_rbt_inorder` visits the keys of the tree in order. -/
theorem smpRbtInorder_spec {s : Rbt} {t : Tree Ptr} {fuel : Nat} (h : Rep s t)
    (hfuel : t.size < fuel) : smpRbtInorder fuel s = .ok (keysOf s t) := by
  unfold smpRbtInorder
  rw [h.root]
  exact smpInorder_spec h.linked hfuel

end RbTree
end Smpcil
