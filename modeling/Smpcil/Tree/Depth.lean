import Smpcil.Tree.Correctness
import Mathlib.Data.Nat.Log
import Mathlib.Order.Bounds.Basic

/-!
# How deep the tree gets

The depth of every reachable tree, for any comparison function: the shape of the tree does
not depend on the order of its keys.

Main results:

- Theorem {lit}`loop_of_descends`: a loop that goes down the tree ends within its height.
- Theorem {lit}`insertDescent_leaf`: the descent of an insertion, without an order.
- Theorem {lit}`Reachable.shaped`: every reachable state is a balanced tree.
- Theorem {lit}`reachable_height`: the depth is at most twice the logarithm of the size,
  and no loop goes deeper.
-/

namespace Smpcil
namespace RbTree

open RedBlack
open Loops (Pass loop)

variable {keyCmp : VoidPtr → VoidPtr → Int} {s : Rbt} {t u : Tree Ptr} {k : List (Frame Ptr)}
  {fuel : Nat}

/-! ## Paths -/

/-- A path of {lit}`k` nodes from {lit}`p` down to the sentinel. -/
inductive NilPath (s : Rbt) : Ptr → Nat → Prop where
  | nil : NilPath s .nil 0
  | node {p : Ptr} {k : Nat} (d : Side) : p.IsNode → NilPath s (s.child d p) k →
      NilPath s p (k + 1)

/-- No path is longer than the tree is high. -/
theorem Linked.nilPath_le : ∀ {par : Ptr} {k : Nat}, Linked s par u →
    NilPath s (rootPtr u) k → k ≤ u.height := by
  induction u with
  | leaf =>
      intro par k _ hpath
      cases hpath with
      | nil => exact Nat.le_refl 0
      | node d hnode _ => exact absurd rfl hnode.ne_nil
  | node c l x r ihl ihr =>
      intro par k h hpath
      rcases h with ⟨hx, -, -, hl, hr, hll, hlr⟩
      rw [rootPtr_node] at hpath
      cases hpath with
      | nil => exact absurd rfl hx.ne_nil
      | node d hnode hrest =>
          cases d with
          | left =>
              rw [hl] at hrest
              have hle := ihl hll hrest
              simp only [Tree.height]
              omega
          | right =>
              rw [hr] at hrest
              have hle := ihr hlr hrest
              simp only [Tree.height]
              omega

/-- Some path is as long as the tree is high. -/
theorem Linked.nilPath_height : ∀ {par : Ptr}, Linked s par u →
    NilPath s (rootPtr u) u.height := by
  induction u with
  | leaf => exact fun _ => NilPath.nil
  | node c l x r ihl ihr =>
      intro par h
      rcases h with ⟨hx, -, -, hl, hr, hll, hlr⟩
      rw [rootPtr_node, Tree.height]
      by_cases hle : l.height ≤ r.height
      · rw [Nat.max_eq_right hle]
        exact NilPath.node .right hx (hr ▸ ihr hlr)
      · rw [Nat.max_eq_left (by omega)]
        exact NilPath.node .left hx (hl ▸ ihl hll)

/-! ## Loops that go down -/

/-- A loop that goes from a node to one of its children ends within the height of the
subtree it starts at. -/
theorem loop_of_descends {σ ρ : Type} {pass : σ → Exec (Pass σ ρ)} (ptr : σ → Ptr)
    (Post : ρ → Prop)
    (hnode : ∀ st, (ptr st).IsNode → ptr st ∈ t.toList →
      (∃ r, pass st = .ok (.done r) ∧ Post r) ∨
        ∃ st' d, pass st = .ok (.again st') ∧ ptr st' = s.child d (ptr st) ∧
          (ptr st' = .nil → ∃ r, pass st' = .ok (.done r) ∧ Post r)) :
    ∀ {par : Ptr} {st : σ} {fuel : Nat}, Linked s par u → (∀ q ∈ u.toList, q ∈ t.toList) →
      ptr st = rootPtr u → (ptr st = .nil → ∃ r, pass st = .ok (.done r) ∧ Post r) →
      u.height < fuel → ∃ r, loop .diverged pass fuel st = .ok r ∧ Post r := by
  induction u with
  | leaf =>
      intro par st fuel _ _ hptr hnil hfuel
      obtain ⟨fuel, rfl⟩ : ∃ f, fuel = f + 1 := ⟨fuel - 1, by omega⟩
      rcases hnil hptr with ⟨r, hpass, hpost⟩
      exact ⟨r, by simp only [loop, hpass], hpost⟩
  | node c l x r ihl ihr =>
      intro par st fuel h hsub hptr _ hfuel
      obtain ⟨fuel, rfl⟩ : ∃ f, fuel = f + 1 := ⟨fuel - 1, by omega⟩
      rcases h with ⟨hx, -, -, hl, hr, hll, hlr⟩
      rw [rootPtr_node] at hptr
      simp only [Tree.height] at hfuel
      rcases hnode st (hptr ▸ hx) (hptr ▸ hsub x (by simp [Tree.toList])) with
        ⟨r', hpass, hpost⟩ | ⟨st', d, hpass, hchild, hnil⟩
      · exact ⟨r', by simp only [loop, hpass], hpost⟩
      · simp only [loop, hpass]
        cases d with
        | left =>
            apply ihl hll
            · exact fun q hq => hsub q (by simp [Tree.toList, hq])
            · rw [hchild, hptr, hl]
            · exact hnil
            · omega
        | right =>
            apply ihr hlr
            · exact fun q hq => hsub q (by simp [Tree.toList, hq])
            · rw [hchild, hptr, hr]
            · exact hnil
            · omega

/-- The search ends at a node of the tree, or with null. -/
theorem smpRnodeFind_height (h : Rep s t) (key : VoidPtr) (hfuel : t.height < fuel) :
    ∃ p, smpRnodeFind keyCmp fuel s key = .ok p ∧ (p = .null ∨ p ∈ t.toList) := by
  have hnil : ∀ p, p = Ptr.nil → ∃ r, findPass keyCmp s key p = .ok (.done r) ∧
      (r = .null ∨ r ∈ t.toList) := by
    rintro p rfl
    exact ⟨.null, by simp [findPass], Or.inl rfl⟩
  show ∃ p, loop .diverged (findPass keyCmp s key) fuel s.root = .ok p ∧ (p = .null ∨ p ∈ t.toList)
  apply loop_of_descends (fun p => p) (fun p => p = .null ∨ p ∈ t.toList) _ h.linked
    (fun q hq => hq) h.root (hnil s.root) hfuel
  intro p hp hmem
  by_cases hgt : 0 < keyCmp (s.key p) key
  · exact Or.inr ⟨s.child .left p, .left, by simp [findPass, hp.ne_nil, hgt], rfl, hnil _⟩
  · by_cases hlt : keyCmp (s.key p) key < 0
    · exact Or.inr ⟨s.child .right p, .right, by simp [findPass, hp.ne_nil, hgt, hlt], rfl, hnil _⟩
    · exact Or.inl ⟨p, by simp [findPass, hp.ne_nil, hgt, hlt], Or.inr hmem⟩

/-- The walk to one end of the tree. -/
theorem outermost_height (h : Rep s t) (d : Side) (hfuel : t.height < fuel) :
    ∃ p, outermost d fuel s = .ok p := by
  by_cases hroot : s.root = .nil
  · exact ⟨.null, by simp [outermost, hroot]⟩
  · have hloop : ∃ p, loop .diverged (descendPass d s) fuel s.root = .ok p ∧ True := by
      apply loop_of_descends (fun p => p) (fun _ => True) _ h.linked (fun q hq => hq) h.root
        (fun hnil => absurd hnil hroot) hfuel
      intro p _ _
      by_cases hchild : s.child d p = .nil
      · exact Or.inl ⟨p, by simp [descendPass, hchild], trivial⟩
      · exact Or.inr ⟨s.child d p, d, by simp [descendPass, hchild], rfl,
          fun hnil => absurd hnil hchild⟩
    rcases hloop with ⟨p, hp, -⟩
    by_cases hnil : p = .nil
    · exact ⟨.null, by simp [outermost, hroot, hp, hnil]⟩
    · exact ⟨p, by simp [outermost, hroot, hp, hnil]⟩

/-- A recursion that calls itself on both children goes as deep as the tree is high. -/
theorem visit_height {visit : Nat → Ptr → Exec (List VoidPtr)}
    (hnil : ∀ fuel, ∃ l, visit (fuel + 1) .nil = .ok l)
    (hnode : ∀ fuel p a b, p.IsNode → visit fuel (s.child .left p) = .ok a →
      visit fuel (s.child .right p) = .ok b → ∃ l, visit (fuel + 1) p = .ok l) :
    ∀ {par : Ptr} {fuel : Nat}, Linked s par u → u.height < fuel →
      ∃ l, visit fuel (rootPtr u) = .ok l := by
  induction u with
  | leaf =>
      intro par fuel _ hfuel
      obtain ⟨fuel, rfl⟩ : ∃ f, fuel = f + 1 := ⟨fuel - 1, by omega⟩
      exact hnil fuel
  | node c l x r ihl ihr =>
      intro par fuel h hfuel
      obtain ⟨fuel, rfl⟩ : ∃ f, fuel = f + 1 := ⟨fuel - 1, by omega⟩
      rcases h with ⟨hx, -, -, hl, hr, hll, hlr⟩
      simp only [Tree.height] at hfuel
      rcases ihl hll (show l.height < fuel by omega) with ⟨a, ha⟩
      rcases ihr hlr (show r.height < fuel by omega) with ⟨b, hb⟩
      exact hnode fuel x a b hx (hl ▸ ha) (hr ▸ hb)

/-- The three traversals end within the height of the tree. -/
theorem traversals_height (h : Rep s t) (hfuel : t.height < fuel) :
    (∃ l, smpRbtPreorder fuel s = .ok l) ∧ (∃ l, smpRbtInorder fuel s = .ok l) ∧
      ∃ l, smpRbtPostorder fuel s = .ok l := by
  unfold smpRbtPreorder smpRbtInorder smpRbtPostorder
  rw [h.root]
  refine ⟨visit_height ?_ ?_ h.linked hfuel, visit_height ?_ ?_ h.linked hfuel,
    visit_height ?_ ?_ h.linked hfuel⟩
  · exact fun fuel => ⟨[], by simp [smpPreorder]⟩
  · exact fun fuel p a b hp ha hb =>
      ⟨s.key p :: a ++ b, by simp [smpPreorder, hp.ne_nil, hp.ne_null, ha, hb]⟩
  · exact fun fuel => ⟨[], by simp [smpInorder]⟩
  · exact fun fuel p a b hp ha hb =>
      ⟨a ++ s.key p :: b, by simp [smpInorder, hp.ne_nil, hp.ne_null, ha, hb]⟩
  · exact fun fuel => ⟨[], by simp [smpPostorder]⟩
  · exact fun fuel p a b hp ha hb =>
      ⟨a ++ b ++ [s.key p], by simp [smpPostorder, hp.ne_nil, hp.ne_null, ha, hb]⟩

/-- The descent of an insertion reaches a leaf, by the sides that the comparison chooses. -/
theorem insertDescent_leaf (nd : Ptr) : ∀ {k : List (Frame Ptr)} {fuel : Nat},
    Rep s (plug k u) → Chosen keyCmp s nd k → u.height < fuel →
    ∃ k', plug k u = plug k' .leaf ∧ Chosen keyCmp s nd k' ∧ k'.length ≤ k.length + u.height ∧
      loop .diverged (insertDescentPass keyCmp s nd) fuel (rootPtr u, holeParent k) =
        .ok (holeParent k') := by
  induction u with
  | leaf =>
      intro k fuel _ hchosen hfuel
      obtain ⟨fuel, rfl⟩ : ∃ f, fuel = f + 1 := ⟨fuel - 1, by omega⟩
      exact ⟨k, rfl, hchosen, by simp [Tree.height], by simp [loop, insertDescentPass]⟩
  | node c l x r ihl ihr =>
      intro k fuel h hchosen hfuel
      obtain ⟨fuel, rfl⟩ : ∃ f, fuel = f + 1 := ⟨fuel - 1, by omega⟩
      have hlinks := Rep.links_focus (d := .left) h
      have hx : x ≠ .nil := hlinks.1.ne_nil
      simp only [Tree.height] at hfuel ⊢
      by_cases hgt : 0 < keyCmp (s.key x) (s.key nd)
      · rcases @ihl (⟨.left, c, x, r⟩ :: k) fuel h (by simp [Chosen, hgt]) (by omega) with
          ⟨k', hplug, hchosen', hlen, hrun⟩
        rw [List.length_cons] at hlen
        refine ⟨k', hplug, hchosen', by omega, ?_⟩
        have hleft : s.child .left x = rootPtr l := hlinks.2.2.2.1
        have hpass : insertDescentPass keyCmp s nd (x, holeParent k) =
            .ok (.again (rootPtr l, x)) := by simp [insertDescentPass, hx, hgt, hleft]
        rw [rootPtr_node]
        simp only [loop, hpass]
        exact hrun
      · rcases @ihr (⟨.right, c, x, l⟩ :: k) fuel h (by simpa [Chosen] using hgt) (by omega) with
          ⟨k', hplug, hchosen', hlen, hrun⟩
        rw [List.length_cons] at hlen
        refine ⟨k', hplug, hchosen', by omega, ?_⟩
        have hright : s.child .right x = rootPtr r := hlinks.2.2.2.2
        have hpass : insertDescentPass keyCmp s nd (x, holeParent k) =
            .ok (.again (rootPtr r, x)) := by simp [insertDescentPass, hx, hgt, hright]
        rw [rootPtr_node]
        simp only [loop, hpass]
        exact hrun

/-! ## Runs without an order -/

/-- The invariant of the tree struct, less the order of the keys. -/
structure Shaped (s : Rbt) (t : Tree Ptr) : Prop where
  rep : Rep s t
  balanced : ∃ n, Balanced t .black n
  size : s.size = t.toList.length
  emptyParent : t = .leaf → s.parent .nil = .nil

theorem Tree.height_le_size (t : Tree Ptr) : t.height ≤ t.size := by
  induction t with
  | leaf => simp [Tree.height]
  | node c l x r ihl ihr =>
      simp only [Tree.height, Tree.size]
      omega

theorem Shaped.size_tree (h : Shaped s t) : s.size = t.size :=
  h.size.trans t.length_toList

/-- An insertion needs as many passes as the tree is high. -/
theorem Shaped.insert (h : Shaped s t) {nd : Nat} (cell : RbtNode) (hout : .node nd ∉ t.toList)
    (hfuel : t.height < fuel) :
    ∃ s' t', Op.run keyCmp fuel s (.insert nd cell) = .ok (.status .ok, s') ∧ Shaped s' t' := by
  have hnode : (Ptr.node nd).IsNode := ⟨nd, rfl⟩
  have hrep := h.rep.store cell hnode hout
  rcases h.balanced with ⟨n, hbal⟩
  rcases @insertDescent_leaf keyCmp (s.store (.node nd) cell) t (.node nd) [] fuel hrep
    (by simp [Chosen]) hfuel with ⟨k, hplug, hchosen, hlen, hrun⟩
  rw [plug] at hplug
  subst hplug
  have hroot : (s.store (.node nd) cell).root = rootPtr (plug k .leaf) := hrep.root
  rw [← hroot] at hrun
  rw [List.length_nil] at hlen
  rcases smpRnodeInsert_at hrep hbal hnode hout hchosen hrun (by omega) with
    ⟨s', t', hins, hrep', hbal', horder, -, -, hsize, -⟩
  refine ⟨s', t', ?_, hrep', hbal', ?_, ?_⟩
  · rw [Op.run, hins]
    rfl
  · have hstore : (s.store (.node nd) cell).size = s.size := rfl
    rw [hsize, hstore, h.size, horder, toList_plug]
    simp [Tree.toList, Nat.add_assoc]
  · rintro rfl
    simp [Tree.toList] at horder

/-- A removal keeps the shape. -/
theorem Shaped.removed (h : Shaped s t) {nd out : Ptr} {s' : Rbt} {t' : Tree Ptr}
    (hrem : Removed s s' nd out t t') : Shaped s' t' := by
  refine ⟨hrem.rep, hrem.balanced, ?_, hrem.nilParent⟩
  rw [hrem.size, h.size]
  rcases hrem.place with ⟨l₁, l₂, ht, ⟨-, ht'⟩ | ⟨l₃, rfl, ht'⟩⟩
  · simp [ht, ht']
  · simp [ht, ht']

/-- Every allowed operation keeps the shape. -/
theorem shaped_step (h : Shaped s t) {op : Op} (hop : op.Allowed s) :
    ∃ r s' t', op.run keyCmp (s.size + 1) s = .ok (r, s') ∧ Shaped s' t' := by
  have hsize := h.size_tree
  have hheight := Tree.height_le_size t
  rcases h.balanced with ⟨n, hbal⟩
  cases op with
  | insert nd cell =>
      have hout : Ptr.node nd ∉ t.toList := fun hmem => hop (h.rep.inTree_iff.mpr hmem)
      have hfuel : t.height < s.size + 1 := by omega
      rcases @Shaped.insert keyCmp s t (s.size + 1) h nd cell hout hfuel with
        ⟨s', t', hrun, hshaped⟩
      exact ⟨_, s', t', hrun, hshaped⟩
  | remove nd =>
      rcases smpRnodeRemove_spec h.rep hbal (h.rep.inTree_iff.mp hop)
        (show t.size < s.size + 1 by omega) with ⟨out, s', t', hrun, hrem⟩
      refine ⟨.node out, s', t', ?_, h.removed hrem⟩
      rw [Op.run, hrun]
      rfl
  | findRemove key =>
      by_cases hkey : key = NULL
      · exact ⟨.node .null, s, t, by rw [Op.run, smpRnodeFindRemove, if_pos hkey]; rfl, h⟩
      · rcases smpRnodeFind_height h.rep key (show t.height < s.size + 1 by omega) with
          ⟨p, hfind, rfl | hp⟩
        · refine ⟨.node .null, s, t, ?_, h⟩
          rw [Op.run, smpRnodeFindRemove, if_neg hkey, hfind]
          rfl
        · rcases smpRnodeRemove_spec h.rep hbal hp (show t.size < s.size + 1 by omega) with
            ⟨out, s', t', hrun, hrem⟩
          refine ⟨.node out, s', t', ?_, h.removed hrem⟩
          rw [Op.run, smpRnodeFindRemove, if_neg hkey, hfind, Exec.ok_bind,
            if_neg (h.rep.isNode hp).ne_null, hrun]
          rfl

/-- Every reachable state is a balanced tree, whatever the comparison function answers. -/
theorem Reachable.shaped (h : Reachable keyCmp s) : ∃ t, Shaped s t := by
  induction h with
  | create mem =>
      have hvalid := @valid_create keyCmp mem
      exact ⟨.leaf, hvalid.rep, hvalid.balanced, hvalid.size, hvalid.emptyParent⟩
  | @step s s' r op fuel _ hop hrun ih =>
      rcases ih with ⟨t, hshaped⟩
      rcases shaped_step hshaped hop with ⟨r', s'', t', hrun', hshaped'⟩
      have heq := Op.run_unique hrun hrun'
      simp only [Prod.mk.injEq] at heq
      exact ⟨t', heq.2 ▸ hshaped'⟩

/-! ## The bound -/

/-- In every reachable tree the longest path from the root to the sentinel has at most
{lit}`2 * log2 (size + 1)` nodes.  The loops of search, insertion and of the two ends, and
the recursions of the traversals, need no more passes than that path has nodes, and one to
stop. -/
theorem reachable_height (h : Reachable keyCmp s) :
    ∃ height, IsGreatest {k | NilPath s s.root k} height ∧
      2 ^ ((height + 1) / 2) ≤ smpRbtSize s + 1 ∧
      height ≤ 2 * Nat.log 2 (smpRbtSize s + 1) ∧
      ∀ fuel, height < fuel →
        (∀ key, ∃ p, smpRnodeFind keyCmp fuel s key = .ok p) ∧
        (∀ nd cell, (Op.insert nd cell).Allowed s →
          ∃ r, (Op.insert nd cell).run keyCmp fuel s = .ok r) ∧
        (∃ p, smpRnodeMin fuel s = .ok p) ∧ (∃ p, smpRnodeMax fuel s = .ok p) ∧
        (∃ l, smpRbtPreorder fuel s = .ok l) ∧ (∃ l, smpRbtInorder fuel s = .ok l) ∧
        ∃ l, smpRbtPostorder fuel s = .ok l := by
  rcases h.shaped with ⟨t, hshaped⟩
  rcases hshaped.balanced with ⟨n, hbal⟩
  have hpow := hbal.two_pow_le
  rw [← hshaped.size_tree] at hpow
  refine ⟨t.height, ⟨?_, ?_⟩, hpow, ?_, ?_⟩
  · show NilPath s s.root t.height
    rw [hshaped.rep.root]
    exact hshaped.rep.linked.nilPath_height
  · intro k (hk : NilPath s s.root k)
    rw [hshaped.rep.root] at hk
    exact hshaped.rep.linked.nilPath_le hk
  · have hlog := Nat.le_log_of_pow_le (by decide) hpow
    unfold smpRbtSize
    omega
  · intro fuel hfuel
    refine ⟨?_, ?_, outermost_height hshaped.rep .left hfuel,
      outermost_height hshaped.rep .right hfuel, traversals_height hshaped.rep hfuel⟩
    · intro key
      rcases @smpRnodeFind_height keyCmp s t fuel hshaped.rep key hfuel with ⟨p, hp, -⟩
      exact ⟨p, hp⟩
    · intro nd cell hallowed
      have hout : Ptr.node nd ∉ t.toList := fun hmem => hallowed (hshaped.rep.inTree_iff.mpr hmem)
      rcases @Shaped.insert keyCmp s t fuel hshaped nd cell hout hfuel with ⟨s', t', hrun, -⟩
      exact ⟨_, hrun⟩

theorem reachable_height_sampleThree :
    ∃ height, IsGreatest {k | NilPath sampleThree sampleThree.root k} height ∧
      2 ^ ((height + 1) / 2) ≤ smpRbtSize sampleThree + 1 := by
  rcases reachable_height reachable_sampleThree with ⟨height, hgreatest, hpow, -⟩
  exact ⟨height, hgreatest, hpow⟩

end RbTree
end Smpcil
