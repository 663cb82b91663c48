import Smpcil.Tree.Depth

/-!
# How often the repairs rotate

A repair after an insertion rotates in its last pass only, and at most twice; a repair after a
removal rotates once for a red sibling, below which it ends, and at most twice in its last pass.
Every other pass only paints.

Main results:

- Theorem {lit}`smpInsertFixup_rotations`: at most two rotations.
- Theorem {lit}`smpDeleteFixup_rotations`: at most three rotations.
- Theorem {lit}`executed_rotations`: the rotations of a whole run, and of each of its steps.
-/

namespace Smpcil
namespace RbTree

open RedBlack
open Loops (Pass loop loop_spec)

/-! ## Counting -/

/-- An event of the trace that is a rotation. -/
def Event.isRotate : Event → Bool
  | .rotate _ => true
  | _ => false

/-- The number of rotations so far. -/
def rotations (s : Rbt) : Nat := s.trace.countP Event.isRotate

theorem rotations_congr {s s' : Rbt} (h : s'.trace = s.trace) : rotations s' = rotations s := by
  unfold rotations
  rw [h]

@[simp] theorem rotations_paint (s : Rbt) (p : Ptr) (c : Color) :
    rotations (s.paint p c) = rotations s := by
  simp [rotations, Event.isRotate]

@[simp] theorem rotations_sibling (s : Rbt) (p : Ptr) :
    rotations (s.log (.sibling p)) = rotations s := by
  simp [rotations, Event.isRotate]

/-- A rotation is one, whatever it rotates. -/
@[simp] theorem rotations_rotate (d : Side) (s : Rbt) (x : Ptr) :
    rotations (smpRotate d s x) = rotations s + 1 := by
  have htrace : (smpRotate d s x).trace = .rotate (s.child d.flip x) :: s.trace := by
    unfold smpRotate
    dsimp only
    split_ifs <;> simp
  unfold rotations
  rw [htrace]
  exact List.countP_cons_of_pos rfl

/-! ## Insertion -/

section Insertion

variable {s s₀ : Rbt} {d : Side} {nd : Ptr} {order : List Ptr} {depth : Nat} {st st' : Rbt × Ptr}

/-- A pass below a red uncle paints, any other one rotates once or twice. -/
theorem insertFixupBranch_rotations (d : Side) (s : Rbt) (nd : Ptr) :
    rotations (insertFixupBranch d s nd).1 ≤ rotations s + 2 ∧
      (s.color (s.child d.flip (s.parent (s.parent nd))) = .red →
        rotations (insertFixupBranch d s nd).1 = rotations s) := by
  unfold insertFixupBranch insertFixupTurn
  dsimp only
  split_ifs with hu hinner
  · simp
  · simp [hu]
  · simp [hu]

/-- A pass that goes on has found a red parent. -/
theorem insertFixupPass_red (hagain : insertFixupPass (s, nd) = .ok (.again st')) :
    s.color (s.parent nd) = .red := by
  by_contra hblack
  simp [insertFixupPass, hblack] at hagain

section Turn

variable {k : List (Frame Ptr)} {e d' : Side} {u sib a b : Tree Ptr} {p g : Ptr} {n : Nat}

/-- A pass below a black uncle leaves a black parent. -/
theorem insertFixupBranch_parent
    (h : Rep s (plug k (Tree.join d .black
      (Tree.join e .red (Tree.join d' .red a nd b) p sib) g u)))
    (hu : u.rootColor = .black) :
    (insertFixupBranch d s nd).1.color
      ((insertFixupBranch d s nd).1.parent (insertFixupBranch d s nd).2) = .black := by
  by_cases hside : e = d
  · subst hside
    rcases insertFixupBranch_outer h hu with ⟨s', hs', -, hrep⟩
    have hnd : Rep s' (plug (⟨e, .black, p, Tree.join e .red sib g u⟩ :: k)
        (Tree.join d' .red a nd b)) := hrep
    rw [hs', hnd.links_focus.2.2.1]
    exact hnd.links_frame.2.1
  · have hflip := Side.eq_flip_of_ne hside
    subst hflip
    have hjoin : ∃ a' b', Tree.join d' .red a nd b = Tree.join d .red a' nd b' := by
      cases d'
      · exact Tree.exists_join d .red a b nd
      · exact Tree.exists_join d .red b a nd
    rcases hjoin with ⟨a', b', hjoin⟩
    rw [hjoin] at h
    rcases insertFixupBranch_inner h hu with ⟨s', hs', -, hrep⟩
    have hp : Rep s' (plug (⟨d, .black, nd, Tree.join d .red b' g u⟩ :: k)
        (Tree.join d .red sib p a')) := hrep
    rw [hs', hp.links_focus.2.2.1]
    exact hp.links_frame.2.1

end Turn

/-- After a pass that rotates the loop is left. -/
theorem insertFixupPass_rotations (hinv : InsertInv s₀ order depth st)
    (hagain : insertFixupPass st = .ok (.again st')) :
    rotations st'.1 = rotations st.1 ∨
      (rotations st'.1 ≤ rotations st.1 + 2 ∧ st'.1.color (st'.1.parent st'.2) = .black) := by
  rcases st with ⟨s, nd⟩
  rcases hinv with ⟨-, k, d', a, b, n, h, -, -, hbal, hhole⟩
  have hred := insertFixupPass_red hagain
  have hp := h.links_focus.2.2.1
  rw [hp] at hred
  cases k with
  | nil =>
      have hblack : s.color .nil = .black := h.nilBlack
      rw [holeParent, hblack] at hred
      cases hred
  | cons f k =>
      have hcol : f.color = .red := by
        rw [← h.links_frame.2.1]
        exact hred
      rcases hhole.redFrame hcol with ⟨hsib, g, k', c', rfl, hgcol, huncle, -⟩
      rcases f with ⟨e, fc, p, sib⟩
      rcases g with ⟨d, gc, gp, u⟩
      simp only at hcol hgcol hsib huncle
      subst hcol hgcol
      rw [insertFixupPass_again (d := d) (e := e) h, Except.ok.injEq, Pass.again.injEq] at hagain
      subst hagain
      have hbranch := insertFixupBranch_rotations d s nd
      cases hc : u.rootColor with
      | red =>
          left
          refine hbranch.2 ?_
          have hfocus : Rep s (plug k' (Tree.join d .black
              (Tree.join e .red (Tree.join d' .red a nd b) p sib) gp u)) := h
          rcases hfocus.grandparents with ⟨hnd, hpar, -, hfar, -, -⟩
          rw [hnd, hpar, hfar, hfocus.color_far, hc]
      | black => exact Or.inr ⟨hbranch.1, insertFixupBranch_parent h hc⟩

/-- The loop invariant of `smp_insert_fixup` with the rotations so far: once there are any, the
loop is left. -/
structure InsertCost (s₀ : Rbt) (order : List Ptr) (depth : Nat) (st : Rbt × Ptr) : Prop where
  inv : InsertInv s₀ order depth st
  cost : rotations st.1 = rotations s₀ ∨
    (rotations st.1 ≤ rotations s₀ + 2 ∧ st.1.color (st.1.parent st.2) = .black)

/-- One pass of the loop of `smp_insert_fixup`, with its rotations. -/
theorem insertCost_pass (s₀ : Rbt) (order : List Ptr) (depth : Nat) (st : Rbt × Ptr)
    (hcost : InsertCost s₀ order depth st) :
    (∃ r, insertFixupPass st = .ok (.done r) ∧ rotations r ≤ rotations s₀ + 2) ∨
      ∃ st' m, insertFixupPass st = .ok (.again st') ∧ InsertCost s₀ order m st' ∧
        m < depth := by
  rcases insertFixupPass_spec s₀ order depth st hcost.inv with ⟨r, hr, -⟩ | ⟨st', m, hst', hinv, hm⟩
  · left
    refine ⟨r, hr, ?_⟩
    have hsame : r = st.1 := by
      unfold insertFixupPass at hr
      dsimp only at hr
      split_ifs at hr <;> cases hr
      rfl
    rw [hsame]
    rcases hcost.cost with heq | ⟨hle, -⟩ <;> omega
  · right
    refine ⟨st', m, hst', ⟨hinv, ?_⟩, hm⟩
    have hstart : rotations st.1 = rotations s₀ := by
      rcases hcost.cost with heq | ⟨-, hblack⟩
      · exact heq
      · rw [insertFixupPass_red hst'] at hblack
        cases hblack
    rw [← hstart]
    exact insertFixupPass_rotations hcost.inv hst'

/-- The repair after an insertion rotates at most twice. -/
theorem smpInsertFixup_rotations {k : List (Frame Ptr)} {a b : Tree Ptr} {n fuel : Nat}
    (h : Rep s (plug k (Tree.join d .red a nd b)))
    (hbal : Balanced (Tree.join d .red a nd b) .red n) (hhole : Hole k .black n)
    (hfuel : k.length < fuel) :
    ∃ s', smpInsertFixup fuel s nd = .ok s' ∧ rotations s' ≤ rotations s + 2 := by
  have hcost : InsertCost s (plug k (Tree.join d .red a nd b)).toList k.length (s, nd) :=
    ⟨⟨SameData.refl s, k, d, a, b, n, h, rfl, rfl, hbal, hhole⟩, Or.inl rfl⟩
  rcases loop_spec (d := Fault.diverged) _ _ (insertCost_pass s _) hcost hfuel with ⟨r, hr, hle⟩
  refine ⟨r.paint r.root .black, ?_, by rwa [rotations_paint]⟩
  simp only [smpInsertFixup, hr, Exec.ok_bind, Exec.pure_eq]

/-- An insertion rotates at most twice. -/
theorem Shaped.insert_rotations {keyCmp : VoidPtr → VoidPtr → Int} {t : Tree Ptr} {fuel nd : Nat}
    (h : Shaped s t) (cell : RbtNode) (hout : .node nd ∉ t.toList) (hfuel : t.height < fuel) :
    ∃ st s', smpRnodeInsert keyCmp fuel (s.store (.node nd) cell) (.node nd) = .ok (st, s') ∧
      rotations s' ≤ rotations s + 2 := by
  have hnode : (Ptr.node nd).IsNode := ⟨nd, rfl⟩
  have hrep := h.rep.store cell hnode hout
  rcases h.balanced with ⟨n, hbal⟩
  rcases @insertDescent_leaf keyCmp (s.store (.node nd) cell) t (.node nd) [] fuel hrep
    (by simp [Chosen]) hfuel with ⟨k, hplug, hchosen, hlen, hdescent⟩
  rw [plug] at hplug
  subst hplug
  have hroot : (s.store (.node nd) cell).root = rootPtr (plug k .leaf) := hrep.root
  rw [← hroot] at hdescent
  rw [List.length_nil] at hlen
  rcases hbal.split with ⟨c, m, hleaf, hhole⟩
  cases hleaf
  rcases hchosen.side with ⟨d, hhead, hside⟩
  rcases smpInsertFixup_rotations (hrep.hang_leaf d hnode hout hhead)
    (Balanced.leaf.joinRed Balanced.leaf) hhole (show k.length < fuel by omega) with
    ⟨s', hfix, hle⟩
  refine ⟨.ok, { s' with size := s'.size + 1 }, ?_, ?_⟩
  · rw [smpRnodeInsert_hang hnode.ne_null hdescent hside, hfix]
    rfl
  · have hhang : rotations (hang d (s.store (.node nd) cell) (.node nd) (holeParent k)) =
        rotations s := by
      unfold hang
      rw [rotations_paint]
      exact rotations_congr (by simp [Rbt.store])
    rwa [hhang] at hle

end Insertion

/-! ## Removal -/

section Removal

variable {s s₀ : Rbt} {d : Side} {nd tmp : Ptr} {order : List Ptr} {bound : Nat}
  {st st' : Rbt × Ptr}

/-- Below a black sibling a pass paints it and goes up, or it rotates once or twice and ends at
the root. -/
theorem deleteFixupBlackSibling_rotations (d : Side) (s : Rbt) (nd tmp : Ptr) :
    (deleteFixupBlackSibling d s nd tmp = (s.paint tmp .red, s.parent nd)) ∨
      (rotations (deleteFixupBlackSibling d s nd tmp).1 ≤ rotations s + 2 ∧
        (deleteFixupBlackSibling d s nd tmp).2 = (deleteFixupBlackSibling d s nd tmp).1.root) := by
  unfold deleteFixupBlackSibling
  dsimp only
  split_ifs
  · left
    simp
  · right
    simp [deleteFixupNearNephew, deleteFixupTurn]
  · right
    simp [deleteFixupTurn]

/-- The place at which the loop of `smp_delete_fixup` is left. -/
def Stops (st : Rbt × Ptr) : Prop := st.2 = st.1.root ∨ st.1.color st.2 = .red

theorem deleteFixupPass_goes (hagain : deleteFixupPass st = .ok (.again st')) : ¬ Stops st := by
  rintro (hroot | hred)
  · simp [deleteFixupPass, hroot] at hagain
  · simp [deleteFixupPass, hred] at hagain

/-- A red sibling costs one rotation, and then the parent is red. -/
theorem deleteFixupBranch_rotations {k : List (Frame Ptr)} {cp : Color} {p : Ptr}
    {sib t : Tree Ptr} {n : Nat} (h : Rep s (plug (⟨d, cp, p, sib⟩ :: k) t))
    (hnil : t = .leaf → s.parent .nil = p) (hhole : Hole (⟨d, cp, p, sib⟩ :: k) .black (n + 1)) :
    rotations (deleteFixupBranch d s (rootPtr t)).1 = rotations s ∨
      (rotations (deleteFixupBranch d s (rootPtr t)).1 ≤ rotations s + 3 ∧
        Stops (deleteFixupBranch d s (rootPtr t))) := by
  have hp : s.parent (rootPtr t) = p := Rep.parent_focus (f := ⟨d, cp, p, sib⟩) h hnil
  have hsib : ∃ cs, Balanced sib cs (n + 1) := by
    cases hhole with
    | red _ hs _ => exact ⟨_, hs⟩
    | black _ hs _ => exact ⟨_, hs⟩
  rcases hsib with ⟨cs, hsib⟩
  rcases hsib.sibling_node d with ⟨wl, w, wr, rfl⟩
  have hfull : Rep s (plug k (Tree.join d cp t p (Tree.join d cs wl w wr))) := h
  have hw : s.child d.flip p = w := hfull.siblings.2.1
  have hwcol : s.color w = cs := hfull.siblings.2.2.2.1
  have hlog := hfull.log (show Event.Ok (.sibling w) from h.isNode (by simp))
  cases cs with
  | black =>
      have hbranch : deleteFixupBranch d s (rootPtr t) =
          deleteFixupBlackSibling d (s.log (.sibling w)) (rootPtr t) w := by
        simp [deleteFixupBranch, hp, hw, hwcol]
      rw [hbranch]
      rcases deleteFixupBlackSibling_rotations d (s.log (.sibling w)) (rootPtr t) w with
        heq | ⟨hle, hroot⟩
      · left
        rw [heq]
        simp
      · right
        rw [rotations_sibling] at hle
        exact ⟨by omega, Or.inl hroot⟩
  | red =>
      rcases hsib.of_joinRed with ⟨-, hwl, -⟩
      have hne : wl ≠ .leaf := by
        intro heq
        rw [heq] at hwl
        cases hwl
      rcases deleteFixupRedSibling_spec hlog.1 hnil hne with ⟨s', hs', hdata, hrep⟩
      have hbranch : deleteFixupBranch d s (rootPtr t) =
          deleteFixupBlackSibling d s' (rootPtr t) (rootPtr wl) := by
        simp [deleteFixupBranch, hp, hw, hwcol, hs']
      have hone : rotations s' = rotations s + 1 := by
        have hcount := congrArg (fun r => rotations r.1) hs'
        simp only [deleteFixupRedSibling, rotations_sibling, rotations_rotate,
          rotations_paint] at hcount
        exact hcount.symm
      right
      rw [hbranch]
      rcases deleteFixupBlackSibling_rotations d s' (rootPtr t) (rootPtr wl) with
        heq | ⟨hle, hroot⟩
      · -- the pass goes up to the parent, which the red sibling has left red
        have hfocus : Rep s' (plug (⟨d, .red, p, wl⟩ :: ⟨d, .black, w, wr⟩ :: k) t) := hrep
        have hp' : s'.parent (rootPtr t) = p := by
          refine hfocus.parent_focus fun ht => ?_
          rw [hdata.nilParent]
          exact hnil ht
        have hred : s'.color p = .red := hfocus.links_frame.2.1
        rw [heq, hp']
        refine ⟨by rw [rotations_paint]; omega, Or.inr ?_⟩
        rw [Rbt.paint_color]
        split_ifs
        · rfl
        · exact hred
      · exact ⟨by omega, Or.inl hroot⟩

/-- After a pass that rotates the loop is left. -/
theorem deleteFixupPass_rotations (hinv : DeleteInv s₀ order bound st)
    (hagain : deleteFixupPass st = .ok (.again st')) :
    rotations st'.1 = rotations st.1 ∨ (rotations st'.1 ≤ rotations st.1 + 3 ∧ Stops st') := by
  have hgoes := deleteFixupPass_goes hagain
  rcases st with ⟨s, nd⟩
  rcases hinv with ⟨-, k, t, n, h, -, hnd, hnil, -, hhole, -⟩
  simp only at hnd
  subst hnd
  cases k with
  | nil => exact absurd (Or.inl h.root.symm) hgoes
  | cons f k =>
      rcases f with ⟨d, cp, p, sib⟩
      have hbranch : st' = deleteFixupBranch d s (rootPtr t) := by
        have hp : s.parent (rootPtr t) = p := h.parent_focus hnil
        have hsib : sib ≠ .leaf := by
          intro heq
          subst heq
          cases hhole with
          | red _ hs _ => cases hs
          | black _ hs _ => cases hs
        have hside := h.eq_left_iff hsib
        have hblack : s.color (rootPtr t) = .black := by
          cases hc : s.color (rootPtr t) with
          | red => exact absurd (Or.inr hc) hgoes
          | black => rfl
        cases d <;> simp [deleteFixupPass, h.focus_ne_root, hblack, hp, hside] at hagain <;>
          exact hagain.symm
      rw [hbranch]
      exact deleteFixupBranch_rotations h hnil hhole

/-- The loop invariant of `smp_delete_fixup` with the rotations so far: once there are any, the
loop is left. -/
structure DeleteCost (s₀ : Rbt) (order : List Ptr) (bound : Nat) (st : Rbt × Ptr) : Prop where
  inv : DeleteInv s₀ order bound st
  cost : rotations st.1 = rotations s₀ ∨ (rotations st.1 ≤ rotations s₀ + 3 ∧ Stops st)

/-- One pass of the loop of `smp_delete_fixup`, with its rotations. -/
theorem deleteCost_pass (s₀ : Rbt) (order : List Ptr) (bound : Nat) (st : Rbt × Ptr)
    (hcost : DeleteCost s₀ order bound st) :
    (∃ r, deleteFixupPass st = .ok (.done r) ∧ rotations r.1 ≤ rotations s₀ + 3) ∨
      ∃ st' m, deleteFixupPass st = .ok (.again st') ∧ DeleteCost s₀ order m st' ∧
        m < bound := by
  rcases deleteFixupPass_spec s₀ order bound st hcost.inv with ⟨r, hr, -⟩ | ⟨st', m, hst', hinv, hm⟩
  · left
    refine ⟨r, hr, ?_⟩
    have hsame : r = st := by
      unfold deleteFixupPass at hr
      dsimp only at hr
      split_ifs at hr <;> cases hr
      rfl
    rw [hsame]
    rcases hcost.cost with heq | ⟨hle, -⟩ <;> omega
  · right
    refine ⟨st', m, hst', ⟨hinv, ?_⟩, hm⟩
    have hstart : rotations st.1 = rotations s₀ :=
      hcost.cost.resolve_right fun hstop => deleteFixupPass_goes hst' hstop.2
    rw [← hstart]
    exact deleteFixupPass_rotations hcost.inv hst'

/-- The repair after a removal rotates at most three times. -/
theorem smpDeleteFixup_rotations {k : List (Frame Ptr)} {t : Tree Ptr} {n fuel : Nat}
    (h : Rep s (plug k t)) (hnil : t = .leaf → s.parent .nil = holeParent k)
    (hshort : Short t n) (hhole : Hole k .black (n + 1)) (hfuel : k.length < fuel) :
    ∃ s', smpDeleteFixup fuel s (rootPtr t) = .ok s' ∧ rotations s' ≤ rotations s + 3 := by
  have hcost : DeleteCost s (plug k t).toList (if t.rootColor = .red then 0 else k.length)
      (s, rootPtr t) :=
    ⟨⟨SameData.refl s, k, t, n, h, rfl, rfl, hnil, hshort, hhole, rfl⟩, Or.inl rfl⟩
  have hlt : (if t.rootColor = .red then 0 else k.length) < fuel := by
    split_ifs <;> omega
  rcases loop_spec (d := Fault.diverged) _ _ (deleteCost_pass s _) hcost hlt with ⟨r, hr, hle⟩
  refine ⟨r.1.paint r.2 .black, ?_, by rwa [rotations_paint]⟩
  simp only [smpDeleteFixup, hr, Exec.ok_bind, Exec.pure_eq]

/-- The stores around the repair do not rotate. -/
theorem removeTakeOut_rotations {k : List (Frame Ptr)} {c : Color} {b : Tree Ptr} {n fuel : Nat}
    (nd : Ptr) (h : Rep s (plug k (Tree.join d c .leaf tmp b)))
    (hbal : Balanced (plug k (Tree.join d c .leaf tmp b)) .black n) (hfuel : k.length < fuel) :
    ∃ s', removeTakeOut fuel s nd tmp (rootPtr b) = .ok s' ∧ rotations s' ≤ rotations s + 3 := by
  have hlinks := h.links_focus
  have hne : tmp ≠ rootPtr b := by
    have hnd := nodup_join.mp (nodup_plug.mp h.nodup).1
    exact hlinks.1.ne_rootPtr hnd.2.1
  have hsplice : Rep ((splice s tmp (rootPtr b) (holeParent k)).setKey nd (s.key tmp))
      (plug k b) :=
    h.splice.congr rfl (fun q _ => ⟨by simp, by simp, by simp⟩) (by simp) (by simp)
  have hsame : rotations ((splice s tmp (rootPtr b) (holeParent k)).setKey nd (s.key tmp)) =
      rotations s := rotations_congr (by simp [splice])
  rw [removeTakeOut_eq fuel hne, hlinks.2.1, hlinks.2.2.1]
  rcases hbal.split with ⟨c', n', hfocus, hhole⟩
  cases c with
  | red => exact ⟨_, rfl, by rw [hsame]; omega⟩
  | black =>
      rcases hfocus.of_joinBlack with ⟨rfl, m, c₁, c₂, rfl, -, hb⟩
      have hnil : b = .leaf →
          ((splice s tmp (rootPtr b) (holeParent k)).setKey nd (s.key tmp)).parent .nil =
            holeParent k := by
        rintro rfl
        simp [splice_parent]
      rcases smpDeleteFixup_rotations hsplice hnil (Short.of_balanced hb) hhole hfuel with
        ⟨s', hrun, hle⟩
      exact ⟨s', by simp [hrun], hsame ▸ hle⟩

/-- A removal unlinks a node with a missing child. -/
theorem removeTarget_focus {t : Tree Ptr} {fuel : Nat} (h : Rep s t) (hnd : nd ∈ t.toList)
    (hfuel : t.size < fuel) :
    ∃ k d c tmp b, removeTarget fuel s nd = .ok tmp ∧ t = plug k (Tree.join d c .leaf tmp b) := by
  rcases exists_plug_of_mem hnd with ⟨k, c, l, r, rfl⟩
  have hlinks := Rep.links_focus (d := .left) h
  by_cases hl : l = .leaf
  · subst hl
    exact ⟨k, .left, c, nd, r, if_pos (Or.inl hlinks.2.2.2.1), rfl⟩
  · by_cases hr : r = .leaf
    · subst hr
      exact ⟨k, .right, c, nd, l, if_pos (Or.inr hlinks.2.2.2.2), rfl⟩
    · have hsize := length_add_size_le k (.node c l nd r)
      simp only [Tree.size] at hsize
      rcases removeTarget_successor h hl hr (show r.size < fuel by omega) with
        ⟨out, k', c', b, htarget, rfl, -⟩
      refine ⟨k' ++ ⟨.right, c, nd, l⟩ :: k, .left, c', out, b, htarget, ?_⟩
      rw [plug_append]
      rfl

/-- A removal rotates at most three times. -/
theorem Shaped.remove_rotations {t : Tree Ptr} {fuel : Nat} (h : Shaped s t) (hnd : nd ∈ t.toList)
    (hfuel : t.size < fuel) :
    ∃ r, smpRnodeRemove fuel s nd = .ok r ∧ rotations r.2 ≤ rotations s + 3 := by
  rcases removeTarget_focus h.rep hnd hfuel with ⟨k, d, c, tmp, b, htarget, rfl⟩
  rcases h.balanced with ⟨n, hbal⟩
  have hsize := length_add_size_le k (Tree.join d c .leaf tmp b)
  rcases removeTakeOut_rotations nd h.rep hbal (show k.length < fuel by omega) with ⟨s', hrun, hle⟩
  refine ⟨(tmp, removeDetach s' tmp (s.key nd)), ?_, ?_⟩
  · simp only [smpRnodeRemove, if_neg (h.rep.isNode hnd).ne_null, htarget, Exec.ok_bind,
      h.rep.onlyChild, hrun, Exec.pure_eq]
  · rwa [rotations_congr (s := s') (by simp [removeDetach])]

end Removal

/-! ## Runs -/

variable {keyCmp : VoidPtr → VoidPtr → Int} {s s' : Rbt} {r : Reply} {fuel : Nat}

/-- The rotations that an operation may make. -/
def Op.rotationBound : Op → Nat
  | .insert _ _ => 2
  | .remove _ => 3
  | .findRemove _ => 3

/-- The states after the operations {lit}`ops`, the last one first. -/
inductive Executed (keyCmp : VoidPtr → VoidPtr → Int) : List Op → Rbt → Prop where
  | create (mem : Ptr → RbtNode) : Executed keyCmp [] (smpRbtCreate mem)
  | step {ops : List Op} {s s' : Rbt} {r : Reply} (op : Op) (fuel : Nat) :
      Executed keyCmp ops s → op.Allowed s → op.run keyCmp fuel s = .ok (r, s') →
      Executed keyCmp (op :: ops) s'

theorem Executed.reachable {ops : List Op} (h : Executed keyCmp ops s) : Reachable keyCmp s := by
  induction h with
  | create mem => exact .create mem
  | step op fuel _ hop hrun ih => exact ih.step op fuel hop hrun

/-- No operation rotates more often than its bound says. -/
theorem Shaped.step_rotations {t : Tree Ptr} (h : Shaped s t) {op : Op} (hop : op.Allowed s)
    (hrun : op.run keyCmp fuel s = .ok (r, s')) :
    rotations s' ≤ rotations s + op.rotationBound := by
  have hsize := h.size_tree
  have hheight := Tree.height_le_size t
  cases op with
  | insert nd cell =>
      have hout : Ptr.node nd ∉ t.toList := fun hmem => hop (h.rep.inTree_iff.mpr hmem)
      rcases @Shaped.insert_rotations s keyCmp t _ nd h cell hout (Nat.lt_succ_self _) with
        ⟨st, s₁, hins, hle⟩
      have hrun₁ : Op.run keyCmp (t.height + 1) s (.insert nd cell) = .ok (.status st, s₁) := by
        simp only [Op.run, hins, Exec.ok_bind, Exec.pure_eq]
      have heq := Op.run_unique hrun hrun₁
      rw [(Prod.mk.inj heq).2]
      exact hle
  | remove nd =>
      rcases h.remove_rotations (h.rep.inTree_iff.mp hop) (Nat.lt_succ_self _) with ⟨r₁, hrem, hle⟩
      have hrun₁ : Op.run keyCmp (t.size + 1) s (.remove nd) = .ok (.node r₁.1, r₁.2) := by
        simp only [Op.run, hrem, Exec.ok_bind, Exec.pure_eq]
      have heq := Op.run_unique hrun hrun₁
      rw [(Prod.mk.inj heq).2]
      exact hle
  | findRemove key =>
      have hstay : Op.run keyCmp (t.size + 1) s (.findRemove key) = .ok (.node .null, s) →
          rotations s' ≤ rotations s + 3 := by
        intro hrun₁
        have heq := Op.run_unique hrun hrun₁
        rw [(Prod.mk.inj heq).2]
        exact Nat.le_add_right _ _
      by_cases hkey : key = NULL
      · refine hstay ?_
        simp only [Op.run, smpRnodeFindRemove, if_pos hkey, Exec.ok_bind, Exec.pure_eq]
      · have hfound : ∃ p, smpRnodeFind keyCmp (t.size + 1) s key = .ok p ∧
            (p = .null ∨ p ∈ t.toList) := smpRnodeFind_height h.rep key (by omega)
        rcases hfound with ⟨p, hfind, rfl | hp⟩
        · refine hstay ?_
          simp only [Op.run, smpRnodeFindRemove, if_neg hkey, hfind, Exec.ok_bind, if_true,
            Exec.pure_eq]
        · rcases h.remove_rotations hp (Nat.lt_succ_self _) with ⟨r₁, hrem, hle⟩
          have hrun₁ : Op.run keyCmp (t.size + 1) s (.findRemove key) =
              .ok (.node r₁.1, r₁.2) := by
            simp only [Op.run, smpRnodeFindRemove, if_neg hkey, hfind, Exec.ok_bind,
              if_neg (h.rep.isNode hp).ne_null, hrem, Exec.pure_eq]
          have heq := Op.run_unique hrun hrun₁
          rw [(Prod.mk.inj heq).2]
          exact hle

/-- In every run an insertion rotates at most twice and a removal at most three times, whatever
the size of the tree and the answers of the comparison function. -/
theorem executed_rotations {ops : List Op} (h : Executed keyCmp ops s) :
    rotations s ≤ (ops.map Op.rotationBound).sum ∧
      ∀ (op : Op) (fuel : Nat) (r : Reply) (s' : Rbt), op.Allowed s →
        op.run keyCmp fuel s = .ok (r, s') → rotations s' ≤ rotations s + op.rotationBound := by
  have hstep : ∀ {ops : List Op} {s : Rbt}, Executed keyCmp ops s →
      ∀ (op : Op) (fuel : Nat) (r : Reply) (s' : Rbt), op.Allowed s →
        op.run keyCmp fuel s = .ok (r, s') → rotations s' ≤ rotations s + op.rotationBound := by
    intro ops s h op fuel r s' hop hrun
    rcases h.reachable.shaped with ⟨t, hshaped⟩
    exact hshaped.step_rotations hop hrun
  refine ⟨?_, hstep h⟩
  induction h with
  | create mem => exact Nat.le_refl 0
  | step op fuel h hop hrun ih =>
      have hle := hstep h op fuel _ _ hop hrun
      rw [List.map_cons, List.sum_cons]
      omega

/-- A run with one more insertion. -/
theorem Executed.sampleInsert {ops : List Op} (h : Executed keyDiff ops s) (key : Nat)
    (keys : List VoidPtr) (hkeys : smpRbtInorder (s.size + 1) s = .ok keys)
    (hkey : s.key (.node key) ∉ keys) (hsize : s.size < 4) :
    Executed keyDiff (.insert key (smpRnodeCreate key) :: ops) (RbTree.sampleInsert s key) := by
  have hop : Op.Allowed s (.insert key (smpRnodeCreate key)) :=
    h.reachable.not_inTree totalPreorder_keyDiff hkeys hkey
  rcases h.reachable.valid totalPreorder_keyDiff with ⟨t, hvalid⟩
  rcases valid_step totalPreorder_keyDiff hvalid hop hsize with ⟨r, s', t', hrun, -⟩
  have hafter : RbTree.sampleInsert s key = s' := by
    simp [RbTree.sampleInsert, Op.after, hrun]
  rw [hafter]
  exact h.step _ _ hop hrun

/-- The third of three insertions rotates twice. -/
theorem executed_rotations_sample : ∃ ops s, Executed keyDiff ops s ∧ rotations s = 2 ∧
    rotations s ≤ (ops.map Op.rotationBound).sum := by
  have h₀ : Executed keyDiff [] sampleEmpty := .create _
  have h₁ := h₀.sampleInsert 3 [] (by decide) (by decide) (by decide)
  have h₂ := h₁.sampleInsert 1 [3] (by decide) (by decide) (by decide)
  have h₃ := h₂.sampleInsert 2 [1, 3] (by decide) (by decide) (by decide)
  exact ⟨_, _, h₃, by decide, (executed_rotations h₃).1⟩

end RbTree
end Smpcil
