import Smpcil.Tree.Linked

/-!
# The repair after a deletion

`smp_delete_fixup` on a struct in which every path through one place has one black
node too few.  The place is a context whose hole expects one more black node than
the subtree in it has; the subtree may be empty, and then the place is the sentinel
with its parent field set.

Main results:

- Theorem {lit}`deleteFixupBranch_spec`: one pass of the loop, in all four sibling cases.
- Theorem {lit}`smpDeleteFixup_spec`: the repair terminates, keeps the order of the
  nodes and their data, and leaves a balanced tree with a black root.
-/

namespace Smpcil
namespace RbTree

open RedBlack
open Loops (Pass loop loop_spec)

theorem Rep.log {s : Rbt} {t : Tree Ptr} {ev : Event} (h : Rep s t) (hev : ev.Ok) :
    Rep (s.log ev) t ∧ SameData s (s.log ev) := by
  refine ⟨⟨h.root, ?_, h.nodup, h.nilBlack, ?_⟩, ⟨by simp, by simp, by simp, by simp⟩⟩
  · exact h.linked.congr fun q _ => (⟨rfl, rfl, fun _ => rfl⟩ : SameLinks s (s.log ev) q)
  · intro e he
    rw [Rbt.log_trace, List.mem_cons] at he
    rcases he with rfl | he
    · exact hev
    · exact h.traceOk e he

section Branch

variable {s : Rbt} {k : List (Frame Ptr)} {d : Side} {t wl wr : Tree Ptr} {p w : Ptr}
  {cp cw : Color}

/-- The links around a focus {lit}`t` with parent {lit}`p` and sibling {lit}`w`. -/
theorem Rep.siblings (h : Rep s (plug k (Tree.join d cp t p (Tree.join d cw wl w wr)))) :
    s.child d p = rootPtr t ∧ s.child d.flip p = w ∧ s.color p = cp ∧ s.color w = cw ∧
      s.child d w = rootPtr wl ∧ s.child d.flip w = rootPtr wr ∧
      s.color (rootPtr wl) = wl.rootColor ∧ s.color (rootPtr wr) = wr.rootColor := by
  have hp := h.links_focus
  rw [plug_join_far] at h
  have hw := h.links_focus
  have hwr := h.color_far
  have hwl : Rep s (plug (⟨d, cw, w, wr⟩ :: ⟨d.flip, cp, p, t⟩ :: k) wl) := h
  rw [rootPtr_join] at hp
  exact ⟨hp.2.2.2.1, hp.2.2.2.2, hp.2.1, hw.2.1, hw.2.2.2.1, hw.2.2.2.2, hwl.color_focus, hwr⟩

/-- The parent field of a focus, the sentinel's included if it was set before. -/
theorem Rep.parent_focus {f : Frame Ptr} (h : Rep s (plug (f :: k) t))
    (hnil : t = .leaf → s.parent .nil = f.elem) : s.parent (rootPtr t) = f.elem := by
  cases t with
  | leaf => exact hnil rfl
  | node c l x r =>
      have hx : Rep s (plug (f :: k) (Tree.join .left c l x r)) := h
      exact hx.links_focus.2.2.1

/-- A red sibling moves above the parent, which turns red. -/
theorem deleteFixupRedSibling_spec
    (h : Rep s (plug k (Tree.join d cp t p (Tree.join d cw wl w wr))))
    (hnil : t = .leaf → s.parent .nil = p) (hwl : wl ≠ .leaf) :
    ∃ s', deleteFixupRedSibling d s (rootPtr t) w = (s', rootPtr wl) ∧ SameData s s' ∧
      Rep s' (plug k (Tree.join d .black (Tree.join d .red t p wl) w wr)) := by
  have hp : s.parent (rootPtr t) = p :=
    Rep.parent_focus (f := ⟨d, cp, p, Tree.join d cw wl w wr⟩) h hnil
  have h₁ := h
  rw [plug_join_far] at h₁
  have h₂ := h₁.paint .black
  have h₃ := h₂.1
  rw [← plug_join_far] at h₃
  have h₄ := h₃.paint .red
  have h₅ := h₄.1.rotate
  have hdata := (h₂.2.trans h₄.2).trans h₅.2
  have hsib : Rep (smpRotate d ((s.paint w .black).paint p .red) p)
      (plug (⟨d, .black, w, wr⟩ :: k) (Tree.join d .red t p wl)) := h₅.1
  have hp' : (smpRotate d ((s.paint w .black).paint p .red) p).parent (rootPtr t) = p := by
    refine Rep.parent_focus (f := ⟨d, .red, p, wl⟩) (k := ⟨d, .black, w, wr⟩ :: k) hsib ?_
    intro ht
    rw [hdata.nilParent]
    exact hnil ht
  have hwl' := hsib.links_focus.2.2.2.2
  have hok : Event.Ok (.sibling (rootPtr wl)) :=
    h.isNode (by simp [rootPtr_mem hwl])
  have h₆ := h₅.1.log hok
  refine ⟨_, ?_, hdata.trans h₆.2, h₆.1⟩
  simp only [deleteFixupRedSibling, hp, Rbt.paint_parent, hp', hwl']

/-- A red near nephew becomes the sibling. -/
theorem deleteFixupNearNephew_spec {a b : Tree Ptr} {x : Ptr} {cx : Color}
    (h : Rep s (plug k (Tree.join d cp t p (Tree.join d cw (Tree.join d cx a x b) w wr))))
    (hnil : t = .leaf → s.parent .nil = p) :
    ∃ s', deleteFixupNearNephew d s (rootPtr t) w = (s', x) ∧ SameData s s' ∧
      Rep s' (plug k (Tree.join d cp t p
        (Tree.join d .black a x (Tree.join d .red b w wr)))) := by
  have hx := h.siblings.2.2.2.2.1
  rw [rootPtr_join] at hx
  have h₁ := h
  rw [plug_join_far] at h₁
  have h₂ : Rep s (plug (⟨d, cw, w, wr⟩ :: ⟨d.flip, cp, p, t⟩ :: k) (Tree.join d cx a x b)) := h₁
  have h₃ := h₂.paint .black
  have h₄ : Rep (s.paint x .black) (plug (⟨d.flip, cp, p, t⟩ :: k)
      (Tree.join d cw (Tree.join d .black a x b) w wr)) := h₃.1
  have h₅ := h₄.paint .red
  have h₆ := h₅.1
  rw [← Tree.join_flip d .red, ← Tree.join_flip d .black] at h₆
  have h₇ := h₆.rotate
  rw [Tree.join_flip, Tree.join_flip] at h₇
  have hdata := (h₃.2.trans h₅.2).trans h₇.2
  have hrep := h₇.1
  rw [← plug_join_far] at hrep
  have hp' : (smpRotate d.flip ((s.paint x .black).paint w .red) w).parent (rootPtr t) = p := by
    refine Rep.parent_focus (f := ⟨d, cp, p, _⟩) hrep ?_
    intro ht
    rw [hdata.nilParent]
    exact hnil ht
  have hx' := hrep.siblings.2.1
  have hok : Event.Ok (.sibling x) := h.isNode (by simp)
  have h₈ := hrep.log hok
  refine ⟨_, ?_, hdata.trans h₈.2, h₈.1⟩
  simp only [deleteFixupNearNephew, hx, hp', hx']

/-- The last rotation: the sibling takes the colour and the place of the parent. -/
theorem deleteFixupTurn_spec (hwr : wr ≠ .leaf)
    (h : Rep s (plug k (Tree.join d cp t p (Tree.join d cw wl w wr))))
    (hnil : t = .leaf → s.parent .nil = p) :
    SameData s (deleteFixupTurn d s (rootPtr t) w) ∧
      Rep (deleteFixupTurn d s (rootPtr t) w)
        (plug k (Tree.join d cp (Tree.join d .black t p wl) w wr.blacken)) := by
  have hp : s.parent (rootPtr t) = p :=
    Rep.parent_focus (f := ⟨d, cp, p, Tree.join d cw wl w wr⟩) h hnil
  have hcp := h.siblings.2.2.1
  have hwr' := h.siblings.2.2.2.2.2.1
  have h₁ := h
  rw [plug_join_far] at h₁
  have h₂ := h₁.paint cp
  have h₃ := h₂.1
  rw [← plug_join_far] at h₃
  have h₄ := h₃.paint .black
  have h₅ := h₄.1
  rw [plug_join_far] at h₅
  cases wr with
  | leaf => exact absurd rfl hwr
  | node c l y r =>
      simp only [rootPtr] at hwr'
      have h₆ := h₅.paint_far .black
      have h₇ := h₆.1
      rw [← plug_join_far] at h₇
      have h₈ := h₇.rotate
      simp only [deleteFixupTurn, hp, hcp, hwr', Rbt.paint_parent, Rbt.paint_child]
      exact ⟨((h₂.2.trans h₄.2).trans h₆.2).trans h₈.2, h₈.1⟩

end Branch

/-! ## The loop -/

/-- The loop invariant of `smp_delete_fixup`: every path through the place of {lit}`nd`
is one black node short, and the sentinel knows its parent if it is the one in that
place.  The passes still to come are bounded by the depth of the place, since a red
{lit}`nd` ends the loop. -/
structure DeleteInv (s₀ : Rbt) (order : List Ptr) (bound : Nat) (st : Rbt × Ptr) : Prop where
  data : SameData s₀ st.1
  focus : ∃ k t n, Rep st.1 (plug k t) ∧ (plug k t).toList = order ∧ st.2 = rootPtr t ∧
    (t = .leaf → st.1.parent .nil = holeParent k) ∧ Short t n ∧ Hole k .black (n + 1) ∧
    (if t.rootColor = .red then 0 else k.length) = bound

/-- What the loop of `smp_delete_fixup` leaves: a tree that is balanced once {lit}`nd` is
painted black. -/
structure DeleteDone (s₀ : Rbt) (order : List Ptr) (st : Rbt × Ptr) : Prop where
  data : SameData s₀ st.1
  focus : ∃ k t m, Rep st.1 (plug k t) ∧ (plug k t).toList = order ∧ st.2 = rootPtr t ∧
    Balanced (plug k t.blacken) .black m

section Pass

variable {s₀ s : Rbt} {order : List Ptr} {k : List (Frame Ptr)} {d : Side}
  {t wl wr : Tree Ptr} {p w : Ptr} {cp c₁ c₂ : Color} {n : Nat}

/-- Below a red far nephew one rotation completes every path. -/
theorem deleteFixupTurn_inv (hdata : SameData s₀ s)
    (h : Rep s (plug k (Tree.join d cp t p (Tree.join d .black wl w wr))))
    (horder : (plug k (Tree.join d cp t p (Tree.join d .black wl w wr))).toList = order)
    (hnil : t = .leaf → s.parent .nil = p) (ht : Balanced t .black n)
    (hwl : Balanced wl c₁ n) (hwr : Balanced wr .red n)
    (hhole : Hole (⟨d, cp, p, Tree.join d .black wl w wr⟩ :: k) .black (n + 1)) :
    DeleteInv s₀ order 0
      (deleteFixupTurn d s (rootPtr t) w, (deleteFixupTurn d s (rootPtr t) w).root) := by
  have hne : wr ≠ .leaf := by
    intro heq
    rw [heq] at hwr
    cases hwr
  have hturn := deleteFixupTurn_spec hne h hnil
  have hinner : Balanced (Tree.join d .black t p wl) .black (n + 1) := ht.joinBlack hwl
  have hwhole : ∃ m, Balanced (plug k
      (Tree.join d cp (Tree.join d .black t p wl) w wr.blacken)) .black m := by
    cases cp with
    | red =>
        cases hhole with
        | red _ _ hrest => exact hrest.plug (hinner.joinRed hwr.blacken_red)
        | black hcol _ _ => cases hcol
    | black =>
        rcases hhole.blackFrame rfl with ⟨c', -, hrest⟩
        exact hrest.plug (hinner.joinBlack hwr.blacken_red)
  rcases hwhole with ⟨m, hm⟩
  refine ⟨hdata.trans hturn.1, [], _, m, hturn.2, ?_, hturn.2.root, ?_, .black hm, .root, ?_⟩
  · rw [← horder, plug, toList_plug, toList_plug]
    cases d <;> cases wr <;> simp [Tree.join, Tree.toList, Tree.blacken]
  · intro hleaf
    have hmem : p ∈ (plug k
        (Tree.join d cp (Tree.join d .black t p wl) w wr.blacken)).toList := by simp
    simp [hleaf, Tree.toList] at hmem
  · simp [hm.rootColor_eq]

/-- The part of a pass below a black sibling.  It ends the loop, or it moves the place
one level up; below a red parent it always ends the loop. -/
theorem deleteFixupBlackSibling_inv (hdata : SameData s₀ s)
    (h : Rep s (plug k (Tree.join d cp t p (Tree.join d .black wl w wr))))
    (horder : (plug k (Tree.join d cp t p (Tree.join d .black wl w wr))).toList = order)
    (hnil : t = .leaf → s.parent .nil = p) (ht : Balanced t .black n)
    (hwl : Balanced wl c₁ n) (hwr : Balanced wr c₂ n)
    (hhole : Hole (⟨d, cp, p, Tree.join d .black wl w wr⟩ :: k) .black (n + 1)) :
    ∃ m, DeleteInv s₀ order m (deleteFixupBlackSibling d s (rootPtr t) w) ∧
      m ≤ if cp = .red then 0 else k.length := by
  rcases h.siblings with ⟨-, -, -, -, hnear, hfar, hnearCol, hfarCol⟩
  rw [hwl.rootColor_eq] at hnearCol
  rw [hwr.rootColor_eq] at hfarCol
  have hp : s.parent (rootPtr t) = p :=
    Rep.parent_focus (f := ⟨d, cp, p, Tree.join d .black wl w wr⟩) h hnil
  cases c₂ with
  | red =>
      -- the far nephew is red: one rotation ends the loop
      refine ⟨0, ?_, Nat.zero_le _⟩
      have hturn := deleteFixupTurn_inv hdata h horder hnil ht hwl hwr hhole
      simpa [deleteFixupBlackSibling, hnear, hfar, hnearCol, hfarCol] using hturn
  | black =>
      cases c₁ with
      | red =>
          -- only the near nephew is red: it first becomes the sibling
          refine ⟨0, ?_, Nat.zero_le _⟩
          cases wl with
          | leaf => cases hwl
          | node cx l x r =>
              rcases Tree.exists_join d cx l r x with ⟨a, b, hj⟩
              have hx : rootPtr (Tree.node cx l x r) = x := rfl
              rw [hx] at hnearCol hnear
              rw [hj] at h horder hwl hhole
              have hcx := hwl.rootColor_eq
              rw [Tree.rootColor_join] at hcx
              subst hcx
              rcases hwl.of_joinRed with ⟨-, ha, hb⟩
              rcases deleteFixupNearNephew_spec h hnil with ⟨s', hs', hdata', hrep⟩
              have hnil' : t = .leaf → s'.parent .nil = p := by
                intro hleaf
                rw [hdata'.nilParent]
                exact hnil hleaf
              have hbal : Balanced (Tree.join d .black a x (Tree.join d .red b w wr)) .black
                  (n + 1) := ha.joinBlack (hb.joinRed hwr)
              have hhole' : Hole (⟨d, cp, p, Tree.join d .black a x
                  (Tree.join d .red b w wr)⟩ :: k) .black (n + 1) := by
                cases hhole with
                | red hcol _ hrest => exact .red hcol hbal hrest
                | black hcol _ hrest => exact .black hcol hbal hrest
              have horder' : (plug k (Tree.join d cp t p
                  (Tree.join d .black a x (Tree.join d .red b w wr)))).toList = order := by
                rw [← horder, toList_plug, toList_plug]
                cases d <;> simp [Tree.join, Tree.toList]
              have hturn := deleteFixupTurn_inv (hdata.trans hdata') hrep horder' hnil' ht ha
                (hb.joinRed hwr) hhole'
              simpa [deleteFixupBlackSibling, hnear, hfar, hnearCol, hfarCol, hs'] using hturn
      | black =>
          -- both nephews are black: the sibling turns red and the parent takes over
          have h₁ := h
          rw [plug_join_far] at h₁
          have h₂ := h₁.paint .red
          have h₃ := h₂.1
          rw [← plug_join_far] at h₃
          have hstep : deleteFixupBlackSibling d s (rootPtr t) w = (s.paint w .red, p) := by
            simp [deleteFixupBlackSibling, hnear, hfar, hnearCol, hfarCol, hp]
          have horder' : (plug k (Tree.join d cp t p (Tree.join d .red wl w wr))).toList =
              order := by
            rw [← horder, toList_plug, toList_plug]
            cases d <;> simp [Tree.join, Tree.toList]
          rw [hstep]
          cases cp with
          | red =>
              refine ⟨0, ⟨hdata.trans h₂.2, k, _, n, h₃, horder', by simp, ?_, ?_, ?_, ?_⟩,
                Nat.zero_le _⟩
              · intro hleaf
                exact absurd hleaf (Tree.join_ne_leaf _ _ _ _ _)
              · refine .red (by simp) ?_
                rw [Tree.blacken_join]
                exact ht.joinBlack (hwl.joinRed hwr)
              · cases hhole with
                | red _ _ hrest => exact hrest.black_of_red
                | black hcol _ _ => cases hcol
              · simp
          | black =>
              rcases hhole.blackFrame rfl with ⟨c', -, hrest⟩
              refine ⟨k.length, ⟨hdata.trans h₂.2, k, _, n + 1, h₃, horder', by simp, ?_,
                .black (ht.joinBlack (hwl.joinRed hwr)), hrest, ?_⟩, by simp⟩
              · intro hleaf
                exact absurd hleaf (Tree.join_ne_leaf _ _ _ _ _)
              · simp

/-- One pass of the loop, in all four sibling cases. -/
theorem deleteFixupBranch_spec {sib : Tree Ptr} (hdata : SameData s₀ s)
    (h : Rep s (plug (⟨d, cp, p, sib⟩ :: k) t))
    (horder : (plug (⟨d, cp, p, sib⟩ :: k) t).toList = order)
    (hnil : t = .leaf → s.parent .nil = p) (ht : Balanced t .black n)
    (hhole : Hole (⟨d, cp, p, sib⟩ :: k) .black (n + 1)) :
    ∃ m, DeleteInv s₀ order m (deleteFixupBranch d s (rootPtr t)) ∧ m ≤ k.length := by
  have hp : s.parent (rootPtr t) = p := Rep.parent_focus (f := ⟨d, cp, p, sib⟩) h hnil
  have hsib : ∃ cs, Balanced sib cs (n + 1) := by
    cases hhole with
    | red _ hs _ => exact ⟨_, hs⟩
    | black _ hs _ => exact ⟨_, hs⟩
  rcases hsib with ⟨cs, hsib⟩
  rcases hsib.sibling_node d with ⟨wl, w, wr, rfl⟩
  have hfull : Rep s (plug k (Tree.join d cp t p (Tree.join d cs wl w wr))) := h
  have hw : s.child d.flip p = w := hfull.siblings.2.1
  have hwcol : s.color w = cs := hfull.siblings.2.2.2.1
  have hlog := hfull.log (show Event.Ok (.sibling w) from h.isNode (by simp))
  have hdata₁ := hdata.trans hlog.2
  cases cs with
  | black =>
      rcases hsib.of_joinBlack with ⟨-, m, c₁, c₂, hm, hwl, hwr⟩
      have hmn : m = n := by omega
      subst hmn
      rcases deleteFixupBlackSibling_inv hdata₁ hlog.1 horder hnil ht hwl hwr hhole with
        ⟨b, hinv, hb⟩
      refine ⟨b, ?_, ?_⟩
      · simpa [deleteFixupBranch, hp, hw, hwcol] using hinv
      · split at hb <;> omega
  | red =>
      rcases hsib.of_joinRed with ⟨-, hwl, hwr⟩
      have hne : wl ≠ .leaf := by
        intro heq
        rw [heq] at hwl
        cases hwl
      -- the parent of a red sibling is black
      have hcp : cp = .black := by
        cases hhole with
        | red _ hs _ => exact absurd hs.rootColor_eq (by simp)
        | black hcol _ _ => exact hcol
      subst hcp
      rcases deleteFixupRedSibling_spec hlog.1 hnil hne with ⟨s', hs', hdata', hrep⟩
      rcases hwl.sibling_node d with ⟨a, x, b, rfl⟩
      rcases hwl.of_joinBlack with ⟨-, m, c₁, c₂, hm, ha, hb⟩
      have hmn : m = n := by omega
      subst hmn
      have hnil' : t = .leaf → s'.parent .nil = p := by
        intro hleaf
        rw [hdata'.nilParent]
        exact hnil hleaf
      rcases hhole.blackFrame rfl with ⟨-, -, hrest⟩
      have hhole' : Hole (⟨d, .red, p, Tree.join d .black a x b⟩ :: ⟨d, .black, w, wr⟩ :: k)
          .black (m + 1) := .red rfl hwl (.black rfl hwr hrest)
      have horder' : (plug (⟨d, .black, w, wr⟩ :: k)
          (Tree.join d .red t p (Tree.join d .black a x b))).toList = order := by
        rw [← horder, plug, plug, toList_plug, toList_plug]
        cases d <;> simp [Frame.fill, Tree.join, Tree.toList]
      rcases deleteFixupBlackSibling_inv (hdata₁.trans hdata')
        (k := ⟨d, .black, w, wr⟩ :: k) hrep horder' hnil' ht ha hb hhole' with ⟨b', hinv, hb'⟩
      refine ⟨b', ?_, ?_⟩
      · rw [rootPtr_join] at hs'
        simpa [deleteFixupBranch, hp, hw, hwcol, hs'] using hinv
      · simp at hb'
        omega

end Pass
/-- The root of a tree lies above any place with a frame over it. -/
theorem rootPtr_plug_mem (f : Frame Ptr) (k : List (Frame Ptr)) :
    ∀ t : Tree Ptr, rootPtr (plug (f :: k) t) ∈ around (f :: k) := by
  induction k generalizing f with
  | nil => intro t; simp [plug, Frame.fill]
  | cons g k ih =>
      intro t
      have hmem := ih g (f.fill t)
      rw [plug]
      exact mem_around_cons.mpr (Or.inr (Or.inr hmem))

theorem Rep.focus_ne_root {s : Rbt} {f : Frame Ptr} {k : List (Frame Ptr)} {t : Tree Ptr}
    (h : Rep s (plug (f :: k) t)) : rootPtr t ≠ s.root := by
  have hroot := rootPtr_plug_mem f k t
  have hnode := h.isNode (mem_toList_plug.mpr (Or.inr hroot))
  rw [h.root]
  apply Ne.symm
  apply hnode.ne_rootPtr
  intro hmem
  exact (nodup_plug.mp h.nodup).2.2 _ hmem hroot

/-- A place with a parent is on the side that its frame says. -/
theorem Rep.eq_left_iff {s : Rbt} {k : List (Frame Ptr)} {d : Side} {c : Color} {p : Ptr}
    {sib t : Tree Ptr} (h : Rep s (plug (⟨d, c, p, sib⟩ :: k) t)) (hsib : sib ≠ .leaf) :
    rootPtr t = s.child .left p ↔ d = .left := by
  have hlinks := h.links_frame
  cases d with
  | left => simp [hlinks.2.2.2.1]
  | right =>
      have hleft : s.child .left p = rootPtr sib := hlinks.2.2.2.2
      rw [hleft]
      constructor
      · intro heq
        have haround : rootPtr sib ∈ around (⟨.right, c, p, sib⟩ :: k) :=
          mem_around_cons.mpr (Or.inr (Or.inl (rootPtr_mem hsib)))
        have hnode := h.isNode (mem_toList_plug.mpr (Or.inr haround))
        have hout : rootPtr sib ∉ t.toList :=
          fun hmem => (nodup_plug.mp h.nodup).2.2 _ hmem haround
        exact absurd heq.symm (hnode.ne_rootPtr hout)
      · intro hd
        cases hd

/-- One pass of the loop of `smp_delete_fixup`. -/
theorem deleteFixupPass_spec (s₀ : Rbt) (order : List Ptr) (bound : Nat) (st : Rbt × Ptr)
    (hinv : DeleteInv s₀ order bound st) :
    (∃ r, deleteFixupPass st = .ok (.done r) ∧ DeleteDone s₀ order r) ∨
      ∃ st' m, deleteFixupPass st = .ok (.again st') ∧ DeleteInv s₀ order m st' ∧
        m < bound := by
  rcases st with ⟨s, nd⟩
  rcases hinv with ⟨hdata, k, t, n, h, horder, hnd, hnil, hshort, hhole, hbound⟩
  simp only at hnd
  subst hnd
  have hblacken : Balanced t.blacken .black n ∧ t.rootColor = .black ∨
      Balanced t.blacken .black (n + 1) ∧ t.rootColor = .red := by
    cases hshort with
    | black hb => exact Or.inl ⟨by rwa [Tree.blacken_of_black hb.rootColor_eq], hb.rootColor_eq⟩
    | red hc hb => exact Or.inr ⟨hb, hc⟩
  cases k with
  | nil =>
      refine Or.inl ⟨(s, rootPtr t), ?_, hdata, [], t, ?_⟩
      · have hroot : s.root = rootPtr t := h.root
        simp [deleteFixupPass, hroot]
      · rcases hblacken with ⟨hb, -⟩ | ⟨hb, -⟩
        · exact ⟨_, h, horder, rfl, hb⟩
        · exact ⟨_, h, horder, rfl, hb⟩
  | cons f k =>
      have hne := h.focus_ne_root
      have hcol := h.color_focus
      rcases hblacken with ⟨hb, hc⟩ | ⟨hb, hc⟩
      · have ht : Balanced t .black n := by rwa [Tree.blacken_of_black hc] at hb
        rcases f with ⟨d, cp, p, sib⟩
        have hp : s.parent (rootPtr t) = p := h.parent_focus hnil
        have hsib : sib ≠ .leaf := by
          intro heq
          subst heq
          cases hhole with
          | red _ hs _ => cases hs
          | black _ hs _ => cases hs
        have hside := h.eq_left_iff hsib
        rcases deleteFixupBranch_spec hdata h horder hnil ht hhole with ⟨m, hinv, hm⟩
        refine Or.inr ⟨_, m, ?_, hinv, ?_⟩
        · cases d <;> simp [deleteFixupPass, hne, hcol, hc, hp, hside]
        · rw [hc] at hbound
          simp at hbound
          omega
      · rcases hhole.plug hb with ⟨m, hm⟩
        refine Or.inl ⟨(s, rootPtr t), ?_, hdata, f :: k, t, m, h, horder, rfl, hm⟩
        simp [deleteFixupPass, hcol, hc]

/-- Painting the sentinel black changes nothing. -/
theorem Rep.paintNil {s : Rbt} {t : Tree Ptr} (h : Rep s t) :
    Rep (s.paint .nil .black) t ∧ SameData s (s.paint .nil .black) := by
  refine ⟨⟨h.root, ?_, h.nodup, by simp, ?_⟩, ⟨by simp, by simp, by simp, by simp⟩⟩
  · have hsame : ∀ q ∈ t.toList, SameLinks s (s.paint .nil .black) q := by
      intro q hq
      simp [SameLinks, (h.isNode hq).ne_nil]
    exact h.linked.congr hsame
  · intro ev hev
    rw [Rbt.paint_trace, List.mem_cons] at hev
    rcases hev with rfl | hev
    · exact fun _ => rfl
    · exact h.traceOk ev hev

/-- The repair after a deletion terminates with a balanced tree of the same nodes in
the same order. -/
theorem smpDeleteFixup_spec {s : Rbt} {k : List (Frame Ptr)} {t : Tree Ptr} {n fuel : Nat}
    (h : Rep s (plug k t)) (hnil : t = .leaf → s.parent .nil = holeParent k)
    (hshort : Short t n) (hhole : Hole k .black (n + 1)) (hfuel : k.length < fuel) :
    ∃ s' t' m, smpDeleteFixup fuel s (rootPtr t) = .ok s' ∧ SameData s s' ∧ Rep s' t' ∧
      t'.toList = (plug k t).toList ∧ Balanced t' .black m := by
  have hinv : DeleteInv s (plug k t).toList (if t.rootColor = .red then 0 else k.length)
      (s, rootPtr t) :=
    ⟨SameData.refl s, k, t, n, h, rfl, rfl, hnil, hshort, hhole, rfl⟩
  have hlt : (if t.rootColor = .red then 0 else k.length) < fuel := by
    split <;> omega
  rcases loop_spec (d := Fault.diverged) _ _ (deleteFixupPass_spec s _) hinv hlt with
    ⟨⟨r, nd⟩, hr, hdata, k', t', m, hrep, horder, hnd, hbal⟩
  simp only at hnd hrep hdata
  subst hnd
  have hrun : smpDeleteFixup fuel s (rootPtr t) = .ok (r.paint (rootPtr t') .black) := by
    simp [smpDeleteFixup, hr, bind, Except.bind, pure, Except.pure]
  cases t' with
  | leaf =>
      have hpaint := hrep.paintNil
      exact ⟨_, _, m, hrun, hdata.trans hpaint.2, hpaint.1, horder, hbal⟩
  | node c l x r' =>
      have hfocus : Rep r (plug k' (Tree.join .left c l x r')) := hrep
      have hpaint := hfocus.paint .black
      refine ⟨_, _, m, hrun, hdata.trans hpaint.2, hpaint.1, ?_, hbal⟩
      rw [← horder, toList_plug, toList_plug]
      rfl

end RbTree
end Smpcil
