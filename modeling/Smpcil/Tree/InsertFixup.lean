import Smpcil.Tree.Linked

/-!
# The repair after an insertion

`smp_insert_fixup` on a struct that represents a balanced tree with one red node
too many.  The state of its loop is a context and the red subtree in its hole; the
only possible fault of the whole tree is that the node above the hole is red too.

Main results:

- Theorem {lit}`insertFixupBranch_spec`: one pass of the loop below a red node.
- Theorem {lit}`smpInsertFixup_spec`: the repair terminates, keeps the order of the
  nodes and their data, and leaves a balanced tree with a black root.
-/

namespace Smpcil
namespace RbTree

open RedBlack
open Loops (Pass loop loop_spec)

section Branch

variable {s : Rbt} {k : List (Frame Ptr)} {d e : Side} {t u sib : Tree Ptr} {nd p g : Ptr}

/-- The pointers above the root {lit}`nd` of a focus two levels down. -/
theorem Rep.grandparents {ce cd : Color} {d' : Side} {a b : Tree Ptr} {c : Color}
    (h : Rep s (plug k (Tree.join d cd (Tree.join e ce (Tree.join d' c a nd b) p sib) g u))) :
    s.parent nd = p ∧ s.parent p = g ∧ s.child d g = p ∧ s.child d.flip g = rootPtr u ∧
      s.child e p = nd ∧ s.child e.flip p = rootPtr sib := by
  have hp : Rep s (plug (⟨d, cd, g, u⟩ :: k) (Tree.join e ce (Tree.join d' c a nd b) p sib)) := h
  have hnd : Rep s (plug (⟨e, ce, p, sib⟩ :: ⟨d, cd, g, u⟩ :: k) (Tree.join d' c a nd b)) := h
  have hlp := hp.links_focus
  have hlnd := hnd.links_focus
  have hlg := hp.links_frame
  rw [rootPtr_join] at hlp hlg
  exact ⟨hlnd.2.2.1, hlp.2.2.1, hlg.2.2.2.1, hlg.2.2.2.2, hlp.2.2.2.1, hlp.2.2.2.2⟩

/-- A red uncle: parent and uncle turn black, the grandparent turns red. -/
theorem insertFixupBranch_recolor {d' : Side} {c : Color} {a b : Tree Ptr}
    (h : Rep s (plug k (Tree.join d .black
      (Tree.join e .red (Tree.join d' c a nd b) p sib) g u)))
    (hu : u.rootColor = .red) :
    ∃ s', insertFixupBranch d s nd = (s', g) ∧ SameData s s' ∧
      Rep s' (plug k (Tree.join d .red
        (Tree.join e .black (Tree.join d' c a nd b) p sib) g u.blacken)) := by
  rcases h.grandparents with ⟨hp, hg, -, hu', -, -⟩
  have hcol := h.color_far
  rw [hu] at hcol
  cases u with
  | leaf => simp [Tree.rootColor] at hu
  | node cu cl y cr =>
      simp only [rootPtr] at hcol hu'
      have h₁ := h.paint_far .black
      have h₂ : Rep (s.paint y .black) (plug (⟨d, .black, g, .node .black cl y cr⟩ :: k)
          (Tree.join e .red (Tree.join d' c a nd b) p sib)) := h₁.1
      have h₃ := h₂.paint .black
      have h₄ : Rep ((s.paint y .black).paint p .black) (plug k (Tree.join d .black
          (Tree.join e .black (Tree.join d' c a nd b) p sib) g (.node .black cl y cr))) := h₃.1
      have h₅ := h₄.paint .red
      refine ⟨_, ?_, (h₁.2.trans h₃.2).trans h₅.2, h₅.1⟩
      simp only [insertFixupBranch, hp, hg, hu', hcol, if_true, Rbt.paint_parent]

/-- The closing steps of the other case, once {lit}`nd` is an outer grandchild: parent
and grandparent trade colours and the grandparent is rotated down. -/
theorem insertFixupTurn_spec {d' : Side} {c : Color} {a b : Tree Ptr}
    (h : Rep s (plug k (Tree.join d .black
      (Tree.join d .red (Tree.join d' c a nd b) p sib) g u))) :
    SameData s (insertFixupTurn d s nd) ∧
      Rep (insertFixupTurn d s nd) (plug k (Tree.join d .black (Tree.join d' c a nd b) p
        (Tree.join d .red sib g u))) := by
  rcases h.grandparents with ⟨hp, hg, -, -, -, -⟩
  have h₁ : Rep s (plug (⟨d, .black, g, u⟩ :: k)
      (Tree.join d .red (Tree.join d' c a nd b) p sib)) := h
  have h₂ := h₁.paint .black
  have h₃ : Rep (s.paint p .black) (plug k (Tree.join d .black
      (Tree.join d .black (Tree.join d' c a nd b) p sib) g u)) := h₂.1
  have h₄ := h₃.paint .red
  have h₅ := h₄.1
  rw [← Tree.join_flip d .red, ← Tree.join_flip d .black] at h₅
  have h₆ := h₅.rotate
  rw [Tree.join_flip, Tree.join_flip] at h₆
  simp only [insertFixupTurn, hp, hg, Rbt.paint_parent]
  exact ⟨(h₂.2.trans h₄.2).trans h₆.2, h₆.1⟩

/-- A black uncle and an outer {lit}`nd`. -/
theorem insertFixupBranch_outer {d' : Side} {c : Color} {a b : Tree Ptr}
    (h : Rep s (plug k (Tree.join d .black
      (Tree.join d .red (Tree.join d' c a nd b) p sib) g u)))
    (hu : u.rootColor = .black) :
    ∃ s', insertFixupBranch d s nd = (s', nd) ∧ SameData s s' ∧
      Rep s' (plug k (Tree.join d .black (Tree.join d' c a nd b) p
        (Tree.join d .red sib g u))) := by
  rcases h.grandparents with ⟨hp, hg, -, hu', -, hsib⟩
  have hcol := h.color_far
  rw [hu] at hcol
  have hne : nd ≠ rootPtr sib := by
    have hnode : nd.IsNode := h.isNode (by simp)
    have hnd := h.nodup
    rw [nodup_plug, nodup_join, nodup_join] at hnd
    exact hnode.ne_rootPtr (hnd.1.2.2.1.2.2.2.2 nd (by simp))
  refine ⟨_, ?_, insertFixupTurn_spec h⟩
  simp [insertFixupBranch, hp, hg, hu', hcol, hsib, hne]

/-- A black uncle and an inner {lit}`nd`: a first rotation makes the parent the outer
grandchild. -/
theorem insertFixupBranch_inner {a b : Tree Ptr}
    (h : Rep s (plug k (Tree.join d .black
      (Tree.join d.flip .red (Tree.join d .red a nd b) p sib) g u)))
    (hu : u.rootColor = .black) :
    ∃ s', insertFixupBranch d s nd = (s', p) ∧ SameData s s' ∧
      Rep s' (plug k (Tree.join d .black (Tree.join d .red sib p a) nd
        (Tree.join d .red b g u))) := by
  rcases h.grandparents with ⟨hp, hg, -, hu', hnd, -⟩
  have hcol := h.color_far
  rw [hu] at hcol
  have h₁ : Rep s (plug (⟨d, .black, g, u⟩ :: k)
      (Tree.join d .red sib p (Tree.join d .red a nd b))) := by
    rw [← Tree.join_flip]
    exact h
  have h₂ := h₁.rotate
  have h₃ : Rep (smpRotate d s p) (plug k (Tree.join d .black
      (Tree.join d .red (Tree.join d .red sib p a) nd b) g u)) := h₂.1
  have h₄ := insertFixupTurn_spec h₃
  refine ⟨_, ?_, h₂.2.trans h₄.1, h₄.2⟩
  simp [insertFixupBranch, hp, hg, hu', hcol, hnd]

end Branch

/-! ## The loop -/

/-- The loop invariant of `smp_insert_fixup`: {lit}`nd` is the red root of a balanced
subtree, and its place admits a black subtree of the same black height.  The bound on
the passes still to come is the depth of the place. -/
structure InsertInv (s₀ : Rbt) (order : List Ptr) (depth : Nat) (st : Rbt × Ptr) : Prop where
  data : SameData s₀ st.1
  focus : ∃ k d a b n, Rep st.1 (plug k (Tree.join d .red a st.2 b)) ∧
    (plug k (Tree.join d .red a st.2 b)).toList = order ∧ k.length = depth ∧
    Balanced (Tree.join d .red a st.2 b) .red n ∧ Hole k .black n

/-- What the loop of `smp_insert_fixup` leaves: a tree that is balanced once its root
is painted black. -/
def InsertDone (s₀ : Rbt) (order : List Ptr) (s : Rbt) : Prop :=
  SameData s₀ s ∧ ∃ t n, Rep s t ∧ t.toList = order ∧ t ≠ .leaf ∧ Balanced t.blacken .black n

/-- Below a red parent the pass runs the branch on the side of that parent. -/
theorem insertFixupPass_again {s : Rbt} {k : List (Frame Ptr)} {d e d' : Side}
    {u sib a b : Tree Ptr} {nd p g : Ptr} {c cd : Color}
    (h : Rep s (plug k (Tree.join d cd
      (Tree.join e .red (Tree.join d' c a nd b) p sib) g u))) :
    insertFixupPass (s, nd) = .ok (.again (insertFixupBranch d s nd)) := by
  rcases h.grandparents with ⟨hp, hg, hgp, hgu, -, -⟩
  have hpcol : s.color p = .red := by
    have hpar : Rep s (plug (⟨d, cd, g, u⟩ :: k)
        (Tree.join e .red (Tree.join d' c a nd b) p sib)) := h
    exact hpar.links_focus.2.1
  simp only [insertFixupPass, hp, hg, hpcol, if_true]
  cases d with
  | left => simp [hgp]
  | right =>
      have hne : p ≠ rootPtr u := by
        have hnode : p.IsNode := h.isNode (by simp)
        have hnd := h.nodup
        rw [nodup_plug, nodup_join] at hnd
        exact hnode.ne_rootPtr (hnd.1.2.2.2.2 p (by simp))
      simp only [Side.flip] at hgu
      simp [hgu, hne]

section Pass

variable {s₀ s : Rbt} {order : List Ptr} {k : List (Frame Ptr)} {d e d' : Side}
  {u sib a b : Tree Ptr} {nd p g : Ptr} {n : Nat} {c : Color}

/-- A pass with a red uncle moves the red node two levels up. -/
theorem insertFixupBranch_inv_recolor (hdata : SameData s₀ s)
    (h : Rep s (plug k (Tree.join d .black
      (Tree.join e .red (Tree.join d' .red a nd b) p sib) g u)))
    (horder : (plug k (Tree.join d .black
      (Tree.join e .red (Tree.join d' .red a nd b) p sib) g u)).toList = order)
    (hbal : Balanced (Tree.join d' .red a nd b) .red n) (hsib : Balanced sib .black n)
    (hu : Balanced u .red n) (hhole : Hole k .black (n + 1)) :
    InsertInv s₀ order k.length (insertFixupBranch d s nd) := by
  rcases insertFixupBranch_recolor h hu.rootColor_eq with ⟨s', hs', hdata', hrep⟩
  rw [hs']
  refine ⟨hdata.trans hdata', k, d, _, _, n + 1, hrep, ?_, rfl, ?_, hhole⟩
  · rw [← horder, toList_plug, toList_plug]
    cases d <;> cases e <;> simp [Tree.join, Tree.toList]
  · exact (hbal.joinBlack hsib).joinRed hu.blacken_red

/-- A pass with a black uncle leaves a red node below a black parent. -/
theorem insertFixupBranch_inv_turn (hdata : SameData s₀ s)
    (h : Rep s (plug k (Tree.join d .black
      (Tree.join e .red (Tree.join d' .red a nd b) p sib) g u)))
    (horder : (plug k (Tree.join d .black
      (Tree.join e .red (Tree.join d' .red a nd b) p sib) g u)).toList = order)
    (hbal : Balanced (Tree.join d' .red a nd b) .red n) (hsib : Balanced sib .black n)
    (hu : Balanced u .black n) (hhole : Hole k .black (n + 1)) :
    InsertInv s₀ order (k.length + 1) (insertFixupBranch d s nd) := by
  by_cases hside : e = d
  · subst hside
    rcases insertFixupBranch_outer h hu.rootColor_eq with ⟨s', hs', hdata', hrep⟩
    rw [hs']
    refine ⟨hdata.trans hdata', ⟨e, .black, p, Tree.join e .red sib g u⟩ :: k, d', a, b, n,
      hrep, ?_, rfl, hbal, .black rfl (hsib.joinRed hu) hhole⟩
    rw [← horder, plug, toList_plug, toList_plug]
    cases e <;> simp [Frame.fill, Tree.join, Tree.toList]
  · have hflip := Side.eq_flip_of_ne hside
    subst hflip
    have hjoin : ∃ a' b', Tree.join d' .red a nd b = Tree.join d .red a' nd b' := by
      cases d'
      · exact Tree.exists_join d .red a b nd
      · exact Tree.exists_join d .red b a nd
    rcases hjoin with ⟨a', b', hjoin⟩
    rw [hjoin] at h horder hbal
    rcases insertFixupBranch_inner h hu.rootColor_eq with ⟨s', hs', hdata', hrep⟩
    rcases hbal.of_joinRed with ⟨-, ha, hb⟩
    rw [hs']
    refine ⟨hdata.trans hdata', ⟨d, .black, nd, Tree.join d .red b' g u⟩ :: k, d, sib, a', n,
      hrep, ?_, rfl, hsib.joinRed ha, .black rfl (hb.joinRed hu) hhole⟩
    rw [← horder, plug, toList_plug, toList_plug]
    cases d <;> simp [Frame.fill, Tree.join, Tree.toList, Side.flip]

end Pass

/-- One pass of the loop of `smp_insert_fixup`. -/
theorem insertFixupPass_spec (s₀ : Rbt) (order : List Ptr) (depth : Nat) (st : Rbt × Ptr)
    (hinv : InsertInv s₀ order depth st) :
    (∃ r, insertFixupPass st = .ok (.done r) ∧ InsertDone s₀ order r) ∨
      ∃ st' m, insertFixupPass st = .ok (.again st') ∧ InsertInv s₀ order m st' ∧
        m < depth := by
  rcases st with ⟨s, nd⟩
  rcases hinv with ⟨hdata, k, d', a, b, n, h, horder, hdepth, hbal, hhole⟩
  cases k with
  | nil =>
      -- the red node is the root
      refine Or.inl ⟨s, ?_, hdata, _, _, h, horder, by simp [plug], hbal.blacken_red⟩
      have hp := h.links_focus.2.2.1
      simp [insertFixupPass, hp, holeParent, h.nilBlack]
  | cons f k =>
      have hp := h.links_focus.2.2.1
      cases hcol : f.color with
      | black =>
          rcases (hhole.of_blackFrame hcol).plug hbal with ⟨m, hm⟩
          refine Or.inl ⟨s, ?_, hdata, _, m, h, horder, ?_, ?_⟩
          · have hfcol := h.links_frame.2.1
            simp [insertFixupPass, hp, holeParent, hfcol, hcol]
          · intro hleaf
            have hmem : nd ∈ (plug (f :: k) (Tree.join d' .red a nd b)).toList := by simp
            simp [hleaf, Tree.toList] at hmem
          · rwa [Tree.blacken_of_black hm.rootColor_eq]
      | red =>
          rcases hhole.redFrame hcol with ⟨hsib, g, k', c', rfl, hgcol, huncle, hrest⟩
          rcases f with ⟨e, fc, p, sib⟩
          rcases g with ⟨d, gc, gp, u⟩
          simp only at hcol hgcol hsib huncle
          subst hcol hgcol
          have hpass := insertFixupPass_again (d := d) (e := e) h
          have hlen : depth = k'.length + 2 := by simpa using hdepth.symm
          cases hc' : c' with
          | red =>
              subst hc'
              exact Or.inr ⟨_, k'.length, hpass,
                insertFixupBranch_inv_recolor hdata h horder hbal hsib huncle hrest, by omega⟩
          | black =>
              subst hc'
              exact Or.inr ⟨_, k'.length + 1, hpass,
                insertFixupBranch_inv_turn hdata h horder hbal hsib huncle hrest, by omega⟩

/-- The repair after an insertion terminates with a balanced tree of the same nodes in
the same order. -/
theorem smpInsertFixup_spec {s : Rbt} {k : List (Frame Ptr)} {d : Side} {a b : Tree Ptr}
    {nd : Ptr} {n fuel : Nat} (h : Rep s (plug k (Tree.join d .red a nd b)))
    (hbal : Balanced (Tree.join d .red a nd b) .red n) (hhole : Hole k .black n)
    (hfuel : k.length < fuel) :
    ∃ s' t m, smpInsertFixup fuel s nd = .ok s' ∧ SameData s s' ∧ Rep s' t ∧
      t.toList = (plug k (Tree.join d .red a nd b)).toList ∧ Balanced t .black m := by
  have hinv : InsertInv s (plug k (Tree.join d .red a nd b)).toList k.length (s, nd) :=
    ⟨SameData.refl s, k, d, a, b, n, h, rfl, rfl, hbal, hhole⟩
  rcases loop_spec (d := Fault.diverged) _ _ (insertFixupPass_spec s _) hinv hfuel with
    ⟨r, hr, hdata, t, m, hrep, horder, hne, hblack⟩
  cases t with
  | leaf => exact absurd rfl hne
  | node c l x r' =>
      have hroot : r.root = x := hrep.root
      have hfocus : Rep r (plug [] (Tree.join .left c l x r')) := hrep
      have hpaint := hfocus.paint .black
      refine ⟨r.paint r.root .black, _, m, ?_, ?_, ?_, ?_, hblack⟩
      · simp [smpInsertFixup, hr, bind, Except.bind, pure, Except.pure]
      · rw [hroot]
        exact hdata.trans hpaint.2
      · rw [hroot]
        exact hpaint.1
      · rw [Tree.toList_blacken, horder]

end RbTree
end Smpcil
