import Smpcil.Foundations.KeyOrder
import Smpcil.Tree.InsertFixup

/-!
# Insertion

`smp_rnode_insert` on a struct that represents a balanced tree with sorted keys: the
descent to a leaf, the new red node in its place, and the repair.

Main results:

- Theorem {lit}`insertDescent_spec`: the descent ends at the leaf that separates the keys
  ranked above the new one from the others.
- Theorem {lit}`Rep.hang_leaf`: the stores that link the new node.
- Theorem {lit}`smpRnodeInsert_spec`: the whole operation.
-/

namespace Smpcil
namespace RbTree

open RedBlack KeyOrder
open Loops (Pass loop loop_spec loop_mono)

/-! ## States with the same links -/

/-- A representation survives changes that leave the links of its nodes alone. -/
theorem Rep.congr {s s' : Rbt} {t : Tree Ptr} (h : Rep s t) (hroot : s'.root = s.root)
    (hlinks : ∀ q ∈ t.toList, SameLinks s s' q) (hnil : s'.color .nil = s.color .nil)
    (htrace : s'.trace = s.trace) : Rep s' t := by
  constructor
  · rw [hroot, h.root]
  · exact h.linked.congr hlinks
  · exact h.nodup
  · rw [hnil, h.nilBlack]
  · rw [htrace]
    exact h.traceOk

theorem Rbt.store_sameLinks (s : Rbt) {p q : Ptr} (cell : RbtNode) (h : q ≠ p) :
    SameLinks s (s.store p cell) q := by
  refine ⟨?_, ?_, ?_⟩
  · simp [Rbt.color, Rbt.store, h]
  · simp [Rbt.parent, Rbt.store, h]
  · intro d
    cases d <;> simp [Rbt.child, Rbt.store, h]

/-- A caller may fill in a node that is not in the tree. -/
theorem Rep.store {s : Rbt} {t : Tree Ptr} {p : Ptr} (h : Rep s t) (cell : RbtNode)
    (hp : p.IsNode) (hout : p ∉ t.toList) : Rep (s.store p cell) t := by
  refine h.congr rfl (fun q hq => s.store_sameLinks cell ?_) ?_ rfl
  · intro heq
    exact hout (heq ▸ hq)
  · exact (s.store_sameLinks cell (Ne.symm hp.ne_nil)).1

/-- The keys of the nodes of a tree, in order. -/
def keysOf (s : Rbt) (t : Tree Ptr) : List VoidPtr := t.toList.map s.key

/-- In a tree with sorted keys a node ranks between its two subtrees. -/
theorem sorted_focus {cmp : VoidPtr → VoidPtr → Int} {s : Rbt} {k : List (Frame Ptr)}
    {c : Color} {l r : Tree Ptr} {x : Ptr}
    (h : Sorted cmp (keysOf s (plug k (.node c l x r)))) :
    (∀ y ∈ l.toList, cmp (s.key y) (s.key x) ≤ 0) ∧
      ∀ y ∈ r.toList, cmp (s.key x) (s.key y) ≤ 0 := by
  unfold Sorted keysOf at h
  rw [List.pairwise_map, toList_plug, Tree.toList] at h
  have hmid := (List.pairwise_append.mp (List.pairwise_append.mp h).1).2.1
  rcases List.pairwise_append.mp hmid with ⟨-, hright, hcross⟩
  constructor
  · intro y hy
    exact hcross y hy x (by simp)
  · intro y hy
    exact (List.pairwise_cons.mp hright).1 y hy

/-! ## The descent -/

section Descent

variable (keyCmp : VoidPtr → VoidPtr → Int)

/-- The state of the descent in `smp_rnode_insert`: a place of the tree with all keys
before it ranked at most, and all keys after it ranked above the new one.  The bound is
the size of the subtree at that place. -/
structure DescentInv (s : Rbt) (nd : Ptr) (t : Tree Ptr) (bound : Nat) (st : Ptr × Ptr) :
    Prop where
  focus : ∃ k t', t = plug k t' ∧ st.1 = rootPtr t' ∧ st.2 = holeParent k ∧
    t'.size = bound ∧ (∀ q ∈ before k, keyCmp (s.key q) (s.key nd) ≤ 0) ∧
    ∀ q ∈ after k, 0 < keyCmp (s.key q) (s.key nd)

/-- The place for the new key: a leaf between the keys that do not rank above it and
those that do. -/
def DescentDone (s : Rbt) (nd : Ptr) (t : Tree Ptr) (tmp : Ptr) : Prop :=
  ∃ k, t = plug k .leaf ∧ tmp = holeParent k ∧
    (∀ q ∈ before k, keyCmp (s.key q) (s.key nd) ≤ 0) ∧
    ∀ q ∈ after k, 0 < keyCmp (s.key q) (s.key nd)

variable {keyCmp} {s : Rbt} {nd : Ptr} {t : Tree Ptr}

/-- One step of the descent. -/
theorem insertDescentPass_spec (hcmp : TotalPreorder keyCmp) (h : Rep s t)
    (hsorted : Sorted keyCmp (keysOf s t)) (bound : Nat) (st : Ptr × Ptr)
    (hinv : DescentInv keyCmp s nd t bound st) :
    (∃ tmp, insertDescentPass keyCmp s nd st = .ok (.done tmp) ∧
        DescentDone keyCmp s nd t tmp) ∨
      ∃ st' m, insertDescentPass keyCmp s nd st = .ok (.again st') ∧
        DescentInv keyCmp s nd t m st' ∧ m < bound := by
  rcases st with ⟨itor, tmp⟩
  rcases hinv with ⟨k, t', rfl, hitor, htmp, hbound, hbefore, hafter⟩
  simp only at hitor htmp
  subst hitor htmp
  cases t' with
  | leaf =>
      refine Or.inl ⟨holeParent k, ?_, k, rfl, rfl, hbefore, hafter⟩
      simp [insertDescentPass]
  | node c l x r =>
      have hlinks := Rep.links_focus (d := .left) h
      rcases sorted_focus hsorted with ⟨hleft, hright⟩
      have hx : x ≠ .nil := hlinks.1.ne_nil
      simp only [Tree.size] at hbound
      right
      by_cases hgt : 0 < keyCmp (s.key x) (s.key nd)
      · refine ⟨(rootPtr l, x), l.size, ?_, ⟨⟨.left, c, x, r⟩ :: k, l, rfl, rfl, rfl, rfl, ?_, ?_⟩,
          by omega⟩
        · simp [insertDescentPass, hx, hgt, hlinks.2.2.2.1]
        · exact hbefore
        · intro q hq
          simp only [after, List.cons_append, List.mem_cons, List.mem_append] at hq
          rcases hq with rfl | hq | hq
          · exact hgt
          · exact hcmp.lt_of_lt_of_le hgt (hright q hq)
          · exact hafter q hq
      · refine ⟨(rootPtr r, x), r.size, ?_, ⟨⟨.right, c, x, l⟩ :: k, r, rfl, rfl, rfl, rfl, ?_, ?_⟩,
          by omega⟩
        · have hchild : s.child .right x = rootPtr r := hlinks.2.2.2.2
          simp [insertDescentPass, hx, hgt, hchild]
        · intro q hq
          simp only [before, List.mem_append, List.mem_singleton] at hq
          rcases hq with (hq | hq) | rfl
          · exact hbefore q hq
          · exact hcmp.trans _ _ _ (hleft q hq) (by omega)
          · omega
        · exact hafter

/-- The descent reaches the leaf for the new key. -/
theorem insertDescent_spec (nd : Ptr) (hcmp : TotalPreorder keyCmp) (h : Rep s t)
    (hsorted : Sorted keyCmp (keysOf s t)) {fuel : Nat} (hfuel : t.size < fuel) :
    ∃ tmp, loop .diverged (insertDescentPass keyCmp s nd) fuel (s.root, .nil) = .ok tmp ∧
      DescentDone keyCmp s nd t tmp := by
  have hinv : DescentInv keyCmp s nd t t.size (s.root, .nil) :=
    ⟨[], t, rfl, h.root, rfl, rfl, by simp [before], by simp [after]⟩
  exact loop_spec _ _ (insertDescentPass_spec hcmp h hsorted) hinv hfuel

end Descent

/-! ## Linking the new node -/

/-- Make {lit}`nd` the child of {lit}`tmp` on side {lit}`d`, or the root of the tree. -/
def hook (d : Side) (s : Rbt) (nd tmp : Ptr) : Rbt :=
  if tmp = .nil then { s with root := nd } else s.setChild d tmp nd

/-- The stores that hang the red node {lit}`nd` below {lit}`tmp` on side {lit}`d`. -/
def hang (d : Side) (s : Rbt) (nd tmp : Ptr) : Rbt :=
  (((hook d (s.setParent nd tmp) nd tmp).setChild .right nd .nil).setChild .left nd .nil).paint
    nd .red

section Hang

variable (d e : Side) (s : Rbt) (nd tmp q : Ptr)

@[simp] theorem hook_parent : (hook d s nd tmp).parent q = s.parent q := by
  unfold hook
  split_ifs <;> simp

@[simp] theorem hook_color : (hook d s nd tmp).color q = s.color q := by
  unfold hook
  split_ifs <;> simp

@[simp] theorem hook_key : (hook d s nd tmp).key q = s.key q := by
  unfold hook
  split_ifs <;> simp

@[simp] theorem hook_carrier : (hook d s nd tmp).carrier q = s.carrier q := by
  unfold hook
  split_ifs <;> simp

@[simp] theorem hook_size : (hook d s nd tmp).size = s.size := by
  unfold hook
  split_ifs <;> simp

@[simp] theorem hook_trace : (hook d s nd tmp).trace = s.trace := by
  unfold hook
  split_ifs <;> simp

@[simp] theorem hook_root : (hook d s nd tmp).root = if tmp = .nil then nd else s.root := by
  unfold hook
  split_ifs <;> simp

@[simp] theorem hook_child : (hook d s nd tmp).child e q =
    if q = tmp ∧ tmp ≠ .nil ∧ e = d then nd else s.child e q := by
  unfold hook
  split_ifs with h₁ h₂ h₃ <;> simp_all

theorem hang_parent : (hang d s nd tmp).parent q = if q = nd then tmp else s.parent q := by
  simp [hang]

theorem hang_color : (hang d s nd tmp).color q = if q = nd then .red else s.color q := by
  simp [hang]

theorem hang_child : (hang d s nd tmp).child e q =
    if q = nd then .nil else if q = tmp ∧ tmp ≠ .nil ∧ e = d then nd else s.child e q := by
  by_cases hq : q = nd <;> cases e <;> simp [hang, hq]

theorem hang_root : (hang d s nd tmp).root = if tmp = .nil then nd else s.root := by
  simp [hang]

theorem hang_trace : (hang d s nd tmp).trace = .paint nd .red :: s.trace := by
  simp [hang]

theorem hang_sameData (hnd : nd ≠ .nil) : SameData s (hang d s nd tmp) := by
  constructor
  · simp [hang]
  · simp [hang]
  · simp [hang]
  · rw [hang_parent]
    simp [Ne.symm hnd]

end Hang

/-- Away from the new node and its parent, hanging a node changes no link. -/
theorem hang_sameLinks {d : Side} {s : Rbt} {nd tmp q : Ptr} (hnd : q ≠ nd)
    (htmp : q ≠ tmp) : SameLinks s (hang d s nd tmp) q := by
  refine ⟨?_, ?_, ?_⟩
  · rw [hang_color]
    simp [hnd]
  · rw [hang_parent]
    simp [hnd]
  · intro e
    rw [hang_child]
    simp [hnd, htmp]

/-- A new red node fills an empty place. -/
theorem Rep.hang_leaf {s : Rbt} {k : List (Frame Ptr)} {nd : Ptr} (d : Side)
    (h : Rep s (plug k .leaf)) (hnd : nd.IsNode) (hout : nd ∉ (plug k .leaf).toList)
    (hside : ∀ f ∈ k.head?, f.side = d) :
    Rep (hang d s nd (holeParent k)) (plug k (Tree.join .left .red .leaf nd .leaf)) := by
  have hnotin : nd ∉ around k := fun hmem => hout (mem_toList_plug.mpr (Or.inr hmem))
  have habove := h.split.1
  have hnodup := h.nodup
  rw [nodup_plug] at hnodup
  have hlinked : LinkedAbove (hang d s nd (holeParent k)) k nd := by
    cases k with
    | nil =>
        change (hang d s nd (holeParent [])).root = nd
        rw [hang_root]
        simp [holeParent]
    | cons f k =>
        rcases habove with ⟨hf, hc, hp, -, hsibPtr, hsib, habove⟩
        have hfd : f.side = d := hside f rfl
        have hfnd : f.elem ≠ nd := fun heq => hnotin (heq ▸ by simp)
        have hnd' := nodup_around_cons.mp hnodup.2.1
        refine ⟨hf, ?_, ?_, ?_, ?_, ?_, ?_⟩
        · rw [hang_color]
          simp [hfnd, hc]
        · rw [hang_parent]
          simp [hfnd, hp]
        · rw [hang_child]
          simp [hfnd, holeParent, hf.ne_nil, hfd]
        · rw [hang_child, ← hfd]
          simp [hfnd, holeParent, Side.flip_ne, hsibPtr]
        · refine hsib.congr fun q hq => hang_sameLinks ?_ ?_
          · exact fun heq => hnotin (heq ▸ by simp [hq])
          · rintro rfl
            exact hnd'.1 hq
        · refine habove.congr ?_ fun q hq => hang_sameLinks ?_ ?_
          · rw [hang_root]
            simp [holeParent, hf.ne_nil]
          · exact fun heq => hnotin (heq ▸ by simp [hq])
          · rintro rfl
            exact hnd'.2.1 hq
  have hleaf : Linked (hang d s nd (holeParent k)) (holeParent k)
      (Tree.join .left .red .leaf nd .leaf) := by
    refine linked_join.mpr ⟨hnd, ?_, ?_, ?_, ?_, trivial, trivial⟩
    · rw [hang_color]
      simp
    · rw [hang_parent]
      simp
    · rw [hang_child]
      simp
    · rw [hang_child]
      simp
  have hplug := linked_plug.mpr ⟨by rw [rootPtr_join]; exact hlinked, hleaf⟩
  refine ⟨hplug.1, hplug.2, ?_, ?_, ?_⟩
  · rw [nodup_plug]
    refine ⟨by simp [Tree.join, Tree.toList], hnodup.2.1, ?_⟩
    intro y hy
    simp only [Tree.join, Tree.toList, List.nil_append, List.mem_singleton] at hy
    rwa [hy]
  · rw [hang_color]
    simp [Ne.symm hnd.ne_nil, h.nilBlack]
  · intro ev hev
    rw [hang_trace, List.mem_cons] at hev
    rcases hev with rfl | hev
    · exact fun hnil => absurd hnil hnd.ne_nil
    · exact h.traceOk ev hev

/-! ## The whole operation -/

/-- What an insertion of {lit}`nd` turns the tree {lit}`t` of {lit}`s` into. -/
structure Inserted (keyCmp : VoidPtr → VoidPtr → Int) (s s' : Rbt) (nd : Ptr)
    (t t' : Tree Ptr) : Prop where
  rep : Rep s' t'
  balanced : ∃ m, Balanced t' .black m
  place : ∃ l₁ l₂, t.toList = l₁ ++ l₂ ∧ t'.toList = l₁ ++ nd :: l₂ ∧
    (∀ q ∈ l₁, keyCmp (s.key q) (s.key nd) ≤ 0) ∧ ∀ q ∈ l₂, 0 < keyCmp (s.key q) (s.key nd)
  key : ∀ q, s'.key q = s.key q
  carrier : ∀ q, s'.carrier q = s.carrier q
  size : s'.size = s.size + 1
  nilParent : s'.parent .nil = s.parent .nil

/-- After the descent an insertion hangs the node and repairs the tree. -/
theorem smpRnodeInsert_hang {keyCmp : VoidPtr → VoidPtr → Int} {s : Rbt} {nd tmp : Ptr}
    {d : Side} {fuel : Nat} (hnd : nd ≠ .null)
    (hdescent : loop .diverged (insertDescentPass keyCmp s nd) fuel (s.root, .nil) = .ok tmp)
    (hside : tmp ≠ .nil → (0 < keyCmp (s.key tmp) (s.key nd) ↔ d = .left)) :
    smpRnodeInsert keyCmp fuel s nd = (do
      let s' ← smpInsertFixup fuel (hang d s nd tmp) nd
      return (.ok, { s' with size := s'.size + 1 })) := by
  simp only [smpRnodeInsert, if_neg hnd, hdescent, bind, Except.bind, pure, Except.pure]
  by_cases htmp : tmp = .nil
  · simp [hang, hook, htmp]
  · have hd := hside htmp
    cases d with
    | left => simp [hang, hook, htmp, hd.mpr rfl]
    | right =>
        have hle : ¬ 0 < keyCmp (s.key tmp) (s.key nd) := fun hpos => by simpa using hd.mp hpos
        simp [hang, hook, htmp, hle]

/-- The side of the innermost frame is the one the comparison chooses. -/
def Chosen (keyCmp : VoidPtr → VoidPtr → Int) (s : Rbt) (nd : Ptr) (k : List (Frame Ptr)) :
    Prop :=
  ∀ f ∈ k.head?, (0 < keyCmp (s.key f.elem) (s.key nd) ↔ f.side = .left)

/-- The side on which the node is hung. -/
theorem Chosen.side {keyCmp : VoidPtr → VoidPtr → Int} {s : Rbt} {nd : Ptr}
    {k : List (Frame Ptr)} (h : Chosen keyCmp s nd k) :
    ∃ d, (∀ f ∈ k.head?, f.side = d) ∧ (holeParent k ≠ .nil →
      (0 < keyCmp (s.key (holeParent k)) (s.key nd) ↔ d = .left)) := by
  cases k with
  | nil => exact ⟨.left, by simp, by simp [holeParent]⟩
  | cons f k => exact ⟨f.side, by simp, fun _ => h f (by simp)⟩

/-- An insertion whose descent ends at the leaf below {lit}`k`. -/
theorem smpRnodeInsert_at {keyCmp : VoidPtr → VoidPtr → Int} {s : Rbt} {k : List (Frame Ptr)}
    {nd : Ptr} {n fuel : Nat} (h : Rep s (plug k .leaf))
    (hbal : Balanced (plug k (.leaf : Tree Ptr)) .black n) (hnd : nd.IsNode)
    (hout : nd ∉ (plug k (.leaf : Tree Ptr)).toList) (hchosen : Chosen keyCmp s nd k)
    (hdescent : loop .diverged (insertDescentPass keyCmp s nd) fuel (s.root, .nil) =
      .ok (holeParent k)) (hfuel : k.length < fuel) :
    ∃ s' t', smpRnodeInsert keyCmp fuel s nd = .ok (.ok, s') ∧ Rep s' t' ∧
      (∃ m, Balanced t' .black m) ∧ t'.toList = before k ++ nd :: after k ∧
      (∀ q, s'.key q = s.key q) ∧ (∀ q, s'.carrier q = s.carrier q) ∧ s'.size = s.size + 1 ∧
      s'.parent .nil = s.parent .nil := by
  rcases hbal.split with ⟨c, m, hleaf, hhole⟩
  cases hleaf
  rcases hchosen.side with ⟨d, hhead, hside⟩
  have hhang := h.hang_leaf d hnd hout hhead
  have hdata := hang_sameData d s nd (holeParent k) hnd.ne_nil
  rcases smpInsertFixup_spec hhang (Balanced.leaf.joinRed Balanced.leaf) hhole hfuel with
    ⟨s', t', m', hfix, hdata', hrep, horder, hbal'⟩
  have hall := hdata.trans hdata'
  refine ⟨{ s' with size := s'.size + 1 }, t', ?_, ?_, ⟨m', hbal'⟩, ?_, hall.key, hall.carrier,
    ?_, hall.nilParent⟩
  · rw [smpRnodeInsert_hang hnd.ne_null hdescent hside, hfix]
    rfl
  · exact hrep.congr rfl (fun q _ => ⟨rfl, rfl, fun _ => rfl⟩) rfl rfl
  · rw [horder, toList_plug]
    simp [Tree.join, Tree.toList]
  · simp [hall.size]

/-- An insertion of a node that is not in the tree terminates; it keeps the tree
balanced and puts the node behind all nodes that do not rank above it. -/
theorem smpRnodeInsert_spec {keyCmp : VoidPtr → VoidPtr → Int} (hcmp : TotalPreorder keyCmp)
    {s : Rbt} {t : Tree Ptr} {nd : Ptr} {n fuel : Nat} (h : Rep s t)
    (hbal : Balanced t .black n) (hsorted : Sorted keyCmp (keysOf s t)) (hnd : nd.IsNode)
    (hout : nd ∉ t.toList) (hfuel : t.size < fuel) :
    ∃ s' t', smpRnodeInsert keyCmp fuel s nd = .ok (.ok, s') ∧
      Inserted keyCmp s s' nd t t' := by
  rcases insertDescent_spec nd hcmp h hsorted hfuel with
    ⟨tmp, hdescent, k, rfl, rfl, hbefore, hafter⟩
  have hchosen : Chosen keyCmp s nd k := by
    cases k with
    | nil => simp [Chosen]
    | cons f k =>
        intro g hg
        rw [List.head?_cons, Option.mem_some_iff] at hg
        subst hg
        cases hf : f.side with
        | left =>
            have hpos := hafter f.elem (by simp [after, hf])
            simpa using hpos
        | right =>
            have hle := hbefore f.elem (by simp [before, hf])
            simpa using hle
  have hdepth := length_add_size_le k (.leaf : Tree Ptr)
  rcases smpRnodeInsert_at h hbal hnd hout hchosen hdescent (by omega) with
    ⟨s', t', hrun, hrep, hbal', horder, hkey, hcarrier, hsize, hnil⟩
  refine ⟨s', t', hrun, hrep, hbal', ⟨before k, after k, ?_, horder, hbefore, hafter⟩, hkey,
    hcarrier, hsize, hnil⟩
  simp [toList_plug, Tree.toList]

end RbTree
end Smpcil
