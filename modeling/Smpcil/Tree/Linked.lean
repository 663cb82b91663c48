import Smpcil.Tree.Model

/-!
# Linked trees in memory

The node structs of `smp_rbt.c` that represent a given tree of pointers, and the
effect of the field stores, the rotations and the colour stores on them.

Main results:

- Definition {lit}`Rep`: the memory of a tree struct represents a tree of pointers.
- Theorem {lit}`Rep.rotate`: a rotation of the struct rotates the tree it represents.
- Theorem {lit}`Rep.paint`: a colour store recolours one node.
-/

namespace Smpcil
namespace RbTree

open RedBlack
export RedBlack (Tree Tree.node Tree.height)

namespace Rbt

/-! ## Field stores -/

variable (s : Rbt) (p q v : Ptr) (d e : Side) (c : Color) (k : VoidPtr) (ev : Event)

@[simp] theorem setParent_parent :
    (s.setParent p v).parent q = if q = p then v else s.parent q := by
  by_cases h : q = p <;> simp [setParent, store, parent, h]

@[simp] theorem setParent_child : (s.setParent p v).child d q = s.child d q := by
  by_cases h : q = p <;> cases d <;> simp [setParent, store, child, h]

@[simp] theorem setParent_color : (s.setParent p v).color q = s.color q := by
  by_cases h : q = p <;> simp [setParent, store, color, h]

@[simp] theorem setParent_key : (s.setParent p v).key q = s.key q := by
  by_cases h : q = p <;> simp [setParent, store, key, h]

@[simp] theorem setParent_carrier : (s.setParent p v).carrier q = s.carrier q := by
  by_cases h : q = p <;> simp [setParent, store, carrier, h]

@[simp] theorem setParent_root : (s.setParent p v).root = s.root := rfl

@[simp] theorem setParent_size : (s.setParent p v).size = s.size := rfl

@[simp] theorem setParent_trace : (s.setParent p v).trace = s.trace := rfl

@[simp] theorem setChild_parent : (s.setChild e p v).parent q = s.parent q := by
  by_cases h : q = p <;> cases e <;> simp [setChild, store, parent, h]

@[simp] theorem setChild_child :
    (s.setChild e p v).child d q = if q = p ∧ d = e then v else s.child d q := by
  by_cases h : q = p <;> cases e <;> cases d <;> simp [setChild, store, child, h]

@[simp] theorem setChild_color : (s.setChild e p v).color q = s.color q := by
  by_cases h : q = p <;> cases e <;> simp [setChild, store, color, h]

@[simp] theorem setChild_key : (s.setChild e p v).key q = s.key q := by
  by_cases h : q = p <;> cases e <;> simp [setChild, store, key, h]

@[simp] theorem setChild_carrier : (s.setChild e p v).carrier q = s.carrier q := by
  by_cases h : q = p <;> cases e <;> simp [setChild, store, carrier, h]

@[simp] theorem setChild_root : (s.setChild e p v).root = s.root := by cases e <;> rfl

@[simp] theorem setChild_size : (s.setChild e p v).size = s.size := by cases e <;> rfl

@[simp] theorem setChild_trace : (s.setChild e p v).trace = s.trace := by cases e <;> rfl

@[simp] theorem setKey_parent : (s.setKey p k).parent q = s.parent q := by
  by_cases h : q = p <;> simp [setKey, store, parent, h]

@[simp] theorem setKey_child : (s.setKey p k).child d q = s.child d q := by
  by_cases h : q = p <;> cases d <;> simp [setKey, store, child, h]

@[simp] theorem setKey_color : (s.setKey p k).color q = s.color q := by
  by_cases h : q = p <;> simp [setKey, store, color, h]

@[simp] theorem setKey_key : (s.setKey p k).key q = if q = p then k else s.key q := by
  by_cases h : q = p <;> simp [setKey, store, key, h]

@[simp] theorem setKey_carrier : (s.setKey p k).carrier q = s.carrier q := by
  by_cases h : q = p <;> simp [setKey, store, carrier, h]

@[simp] theorem setKey_root : (s.setKey p k).root = s.root := rfl

@[simp] theorem setKey_size : (s.setKey p k).size = s.size := rfl

@[simp] theorem setKey_trace : (s.setKey p k).trace = s.trace := rfl

@[simp] theorem log_parent : (s.log ev).parent q = s.parent q := rfl

@[simp] theorem log_child : (s.log ev).child d q = s.child d q := rfl

@[simp] theorem log_color : (s.log ev).color q = s.color q := rfl

@[simp] theorem log_key : (s.log ev).key q = s.key q := rfl

@[simp] theorem log_carrier : (s.log ev).carrier q = s.carrier q := rfl

@[simp] theorem log_root : (s.log ev).root = s.root := rfl

@[simp] theorem log_size : (s.log ev).size = s.size := rfl

@[simp] theorem log_trace : (s.log ev).trace = ev :: s.trace := rfl

@[simp] theorem paint_parent : (s.paint p c).parent q = s.parent q := by
  by_cases h : q = p <;> simp [paint, store, log, parent, h]

@[simp] theorem paint_child : (s.paint p c).child d q = s.child d q := by
  by_cases h : q = p <;> cases d <;> simp [paint, store, log, child, h]

@[simp] theorem paint_color : (s.paint p c).color q = if q = p then c else s.color q := by
  by_cases h : q = p <;> simp [paint, store, log, color, h]

@[simp] theorem paint_key : (s.paint p c).key q = s.key q := by
  by_cases h : q = p <;> simp [paint, store, log, key, h]

@[simp] theorem paint_carrier : (s.paint p c).carrier q = s.carrier q := by
  by_cases h : q = p <;> simp [paint, store, log, carrier, h]

@[simp] theorem paint_root : (s.paint p c).root = s.root := rfl

@[simp] theorem paint_size : (s.paint p c).size = s.size := rfl

@[simp] theorem paint_trace : (s.paint p c).trace = .paint p c :: s.trace := rfl

@[simp] theorem withRoot_parent : ({ s with root := v } : Rbt).parent q = s.parent q := rfl

@[simp] theorem withRoot_child : ({ s with root := v } : Rbt).child d q = s.child d q := rfl

@[simp] theorem withRoot_color : ({ s with root := v } : Rbt).color q = s.color q := rfl

@[simp] theorem withRoot_key : ({ s with root := v } : Rbt).key q = s.key q := rfl

@[simp] theorem withRoot_carrier :
    ({ s with root := v } : Rbt).carrier q = s.carrier q := rfl

@[simp] theorem withSize_parent (n : Nat) :
    ({ s with size := n } : Rbt).parent q = s.parent q := rfl

@[simp] theorem withSize_child (n : Nat) :
    ({ s with size := n } : Rbt).child d q = s.child d q := rfl

@[simp] theorem withSize_color (n : Nat) :
    ({ s with size := n } : Rbt).color q = s.color q := rfl

@[simp] theorem withSize_key (n : Nat) : ({ s with size := n } : Rbt).key q = s.key q := rfl

@[simp] theorem withSize_carrier (n : Nat) :
    ({ s with size := n } : Rbt).carrier q = s.carrier q := rfl

end Rbt

/-! ## Representation of trees -/

/-- A pointer to a node of the caller, neither null nor the sentinel. -/
def Ptr.IsNode (p : Ptr) : Prop := ∃ a, p = .node a

theorem Ptr.IsNode.ne_nil {p : Ptr} (h : p.IsNode) : p ≠ .nil := by
  rcases h with ⟨a, rfl⟩
  simp

theorem Ptr.IsNode.ne_null {p : Ptr} (h : p.IsNode) : p ≠ .null := by
  rcases h with ⟨a, rfl⟩
  simp

/-- The pointer that stands for a subtree: its root, or the sentinel. -/
def rootPtr : Tree Ptr → Ptr
  | .leaf => .nil
  | .node _ _ x _ => x

@[simp]
theorem rootPtr_leaf : rootPtr .leaf = .nil := rfl

@[simp]
theorem rootPtr_node (c : Color) (l r : Tree Ptr) (x : Ptr) :
    rootPtr (.node c l x r) = x := rfl

@[simp]
theorem rootPtr_join (d : Side) (c : Color) (a b : Tree Ptr) (x : Ptr) :
    rootPtr (Tree.join d c a x b) = x := by
  cases d <;> rfl

/-- The structs at the elements of {lit}`t` are linked as in {lit}`t`, and the parent of
its root is {lit}`par`. -/
def Linked (s : Rbt) : Ptr → Tree Ptr → Prop
  | _, .leaf => True
  | par, .node c l x r =>
      x.IsNode ∧ s.color x = c ∧ s.parent x = par ∧
        s.child .left x = rootPtr l ∧ s.child .right x = rootPtr r ∧
        Linked s x l ∧ Linked s x r

theorem linked_join {s : Rbt} {par x : Ptr} {d : Side} {c : Color} {a b : Tree Ptr} :
    Linked s par (Tree.join d c a x b) ↔
      x.IsNode ∧ s.color x = c ∧ s.parent x = par ∧
        s.child d x = rootPtr a ∧ s.child d.flip x = rootPtr b ∧
        Linked s x a ∧ Linked s x b := by
  cases d with
  | left => exact Iff.rfl
  | right =>
      simp only [Tree.join, Linked, Side.flip]
      tauto

/-- The parent of whatever fills the hole of a context. -/
def holeParent : List (Frame Ptr) → Ptr
  | [] => .nil
  | f :: _ => f.elem

/-- The structs of a context are linked as in the context, with {lit}`p` in the hole. -/
def LinkedAbove (s : Rbt) : List (Frame Ptr) → Ptr → Prop
  | [], p => s.root = p
  | f :: k, p =>
      f.elem.IsNode ∧ s.color f.elem = f.color ∧ s.parent f.elem = holeParent k ∧
        s.child f.side f.elem = p ∧ s.child f.side.flip f.elem = rootPtr f.sibling ∧
        Linked s f.elem f.sibling ∧ LinkedAbove s k f.elem

/-- A linked tree splits at any focus into a linked context and a linked subtree. -/
theorem linked_plug {s : Rbt} {k : List (Frame Ptr)} :
    ∀ {t : Tree Ptr}, (s.root = rootPtr (plug k t) ∧ Linked s .nil (plug k t)) ↔
      LinkedAbove s k (rootPtr t) ∧ Linked s (holeParent k) t := by
  induction k with
  | nil => intro t; exact Iff.rfl
  | cons f k ih =>
      intro t
      rw [plug, ih, Frame.fill, rootPtr_join, linked_join, LinkedAbove, holeParent]
      tauto

/-! ## Frame rules -/

/-- Two states have the same links and colour at {lit}`q`. -/
def SameLinks (s s' : Rbt) (q : Ptr) : Prop :=
  s'.color q = s.color q ∧ s'.parent q = s.parent q ∧ ∀ d, s'.child d q = s.child d q

theorem Linked.congr {s s' : Rbt} {t : Tree Ptr} :
    ∀ {par : Ptr}, (∀ q ∈ t.toList, SameLinks s s' q) → Linked s par t → Linked s' par t := by
  induction t with
  | leaf => intro par _ _; trivial
  | node c l x r ihl ihr =>
      intro par hq h
      rcases h with ⟨hx, hc, hp, hl, hr, hll, hlr⟩
      rcases hq x (by simp [Tree.toList]) with ⟨hc', hp', hd'⟩
      refine ⟨hx, by rw [hc', hc], by rw [hp', hp], by rw [hd', hl], by rw [hd', hr], ?_, ?_⟩
      · exact ihl (fun q hm => hq q (by simp [Tree.toList, hm])) hll
      · exact ihr (fun q hm => hq q (by simp [Tree.toList, hm])) hlr

/-- A subtree whose root gets a new parent and is otherwise unchanged. -/
theorem Linked.reparent {s s' : Rbt} {t : Tree Ptr} {par par' : Ptr}
    (hnodup : t.toList.Nodup)
    (hroot : ∀ q ∈ t.toList, q = rootPtr t →
      s'.color q = s.color q ∧ s'.parent q = par' ∧ ∀ d, s'.child d q = s.child d q)
    (hrest : ∀ q ∈ t.toList, q ≠ rootPtr t → SameLinks s s' q)
    (h : Linked s par t) : Linked s' par' t := by
  cases t with
  | leaf => trivial
  | node c l x r =>
      rcases h with ⟨hx, hc, -, hl, hr, hll, hlr⟩
      rcases hroot x (by simp [Tree.toList]) rfl with ⟨hc', hp', hd'⟩
      have hnd := (nodup_join (d := .left) (c := c)).mp hnodup
      refine ⟨hx, by rw [hc', hc], hp', by rw [hd', hl], by rw [hd', hr], ?_, ?_⟩
      · refine hll.congr fun q hm => hrest q (by simp [Tree.toList, hm]) ?_
        intro heq
        rw [heq] at hm
        exact hnd.1 hm
      · refine hlr.congr fun q hm => hrest q (by simp [Tree.toList, hm]) ?_
        intro heq
        rw [heq] at hm
        exact hnd.2.1 hm

theorem LinkedAbove.congr {s s' : Rbt} {k : List (Frame Ptr)} :
    ∀ {p : Ptr}, s'.root = s.root → (∀ q ∈ around k, SameLinks s s' q) →
      LinkedAbove s k p → LinkedAbove s' k p := by
  induction k with
  | nil => intro p hroot _ h; exact hroot.trans h
  | cons f k ih =>
      intro p hroot hq h
      rcases h with ⟨hx, hc, hp, hl, hr, hsib, habove⟩
      rcases hq f.elem (by simp) with ⟨hc', hp', hd'⟩
      refine ⟨hx, by rw [hc', hc], by rw [hp', hp], by rw [hd', hl], by rw [hd', hr], ?_, ?_⟩
      · exact hsib.congr fun q hm => hq q (by simp [hm])
      · exact ih hroot (fun q hm => hq q (by simp [hm])) habove

theorem Linked.isNode {s : Rbt} {t : Tree Ptr} :
    ∀ {par q : Ptr}, Linked s par t → q ∈ t.toList → q.IsNode := by
  induction t with
  | leaf => intro par q _ h; simp [Tree.toList] at h
  | node c l x r ihl ihr =>
      intro par q h hq
      rcases h with ⟨hx, -, -, -, -, hl, hr⟩
      simp only [Tree.toList, List.mem_append, List.mem_cons] at hq
      rcases hq with hq | rfl | hq
      · exact ihl hl hq
      · exact hx
      · exact ihr hr hq

theorem LinkedAbove.isNode {s : Rbt} {k : List (Frame Ptr)} :
    ∀ {p q : Ptr}, LinkedAbove s k p → q ∈ around k → q.IsNode := by
  induction k with
  | nil => intro p q _ h; simp at h
  | cons f k ih =>
      intro p q h hq
      rcases h with ⟨hx, -, -, -, -, hsib, habove⟩
      rcases mem_around_cons.mp hq with rfl | hq | hq
      · exact hx
      · exact hsib.isNode hq
      · exact ih habove hq

/-! ## States that represent a tree -/

/-- A recorded event of a correct run: no rotation has the sentinel for its pivot, every
sibling of a fixup is a node, and the sentinel is never painted red. -/
def Event.Ok : Event → Prop
  | .rotate p => p ≠ .nil
  | .sibling p => p.IsNode
  | .paint p c => p = .nil → c = .black

/-- The struct {lit}`s` represents the tree {lit}`t` of pointers. -/
structure Rep (s : Rbt) (t : Tree Ptr) : Prop where
  root : s.root = rootPtr t
  linked : Linked s .nil t
  nodup : t.toList.Nodup
  nilBlack : s.color .nil = .black
  traceOk : ∀ e ∈ s.trace, e.Ok

/-- {lit}`s'` differs from {lit}`s` in links and colours of real nodes only. -/
structure SameData (s s' : Rbt) : Prop where
  key : ∀ q, s'.key q = s.key q
  carrier : ∀ q, s'.carrier q = s.carrier q
  size : s'.size = s.size
  nilParent : s'.parent .nil = s.parent .nil

theorem SameData.refl (s : Rbt) : SameData s s :=
  ⟨fun _ => rfl, fun _ => rfl, rfl, rfl⟩

theorem SameData.trans {s₁ s₂ s₃ : Rbt} (h₁ : SameData s₁ s₂) (h₂ : SameData s₂ s₃) :
    SameData s₁ s₃ :=
  ⟨fun q => (h₂.key q).trans (h₁.key q), fun q => (h₂.carrier q).trans (h₁.carrier q),
    h₂.size.trans h₁.size, h₂.nilParent.trans h₁.nilParent⟩

namespace Rep

variable {s : Rbt} {k : List (Frame Ptr)} {t : Tree Ptr}

theorem split (h : Rep s (plug k t)) :
    LinkedAbove s k (rootPtr t) ∧ Linked s (holeParent k) t :=
  linked_plug.mp ⟨h.root, h.linked⟩

theorem isNode (h : Rep s t) {q : Ptr} (hq : q ∈ t.toList) : q.IsNode :=
  h.linked.isNode hq

/-- The colour of the pointer at a focus is the colour of the subtree. -/
theorem color_focus (h : Rep s (plug k t)) : s.color (rootPtr t) = t.rootColor := by
  cases t with
  | leaf => exact h.nilBlack
  | node c l x r => exact h.split.2.2.1

/-- The links of the node at a focus. -/
theorem links_focus {d : Side} {c : Color} {a b : Tree Ptr} {x : Ptr}
    (h : Rep s (plug k (Tree.join d c a x b))) :
    x.IsNode ∧ s.color x = c ∧ s.parent x = holeParent k ∧
      s.child d x = rootPtr a ∧ s.child d.flip x = rootPtr b := by
  rcases linked_join.mp h.split.2 with ⟨hx, hc, hp, ha, hb, -, -⟩
  exact ⟨hx, hc, hp, ha, hb⟩

/-- The links of the node above a focus. -/
theorem links_frame {f : Frame Ptr} (h : Rep s (plug (f :: k) t)) :
    f.elem.IsNode ∧ s.color f.elem = f.color ∧ s.parent f.elem = holeParent k ∧
      s.child f.side f.elem = rootPtr t ∧ s.child f.side.flip f.elem = rootPtr f.sibling := by
  rcases h.split.1 with ⟨hx, hc, hp, ha, hb, -, -⟩
  exact ⟨hx, hc, hp, ha, hb⟩

end Rep

/-! ## The effect of a rotation on each field -/

/-- The pointers a rotation works on: {lit}`y` is the child that moves up, {lit}`b` its
subtree that changes sides and {lit}`par` the node above. -/
structure RotateFacts (s : Rbt) (d : Side) (x y b par : Ptr) : Prop where
  far : s.child d.flip x = y
  inner : s.child d y = b
  up : s.parent x = par
  x_ne_y : x ≠ y
  b_ne_x : b ≠ x
  par_ne_x : par ≠ x

/-- Hang {lit}`y` below {lit}`par` in the place of {lit}`x`, or make it the root. -/
def relink (s : Rbt) (par x y : Ptr) : Rbt :=
  if par = .nil then { s with root := y }
  else if x = s.child .left par then s.setChild .left par y
  else s.setChild .right par y

section Relink

variable (s : Rbt) (par x y q : Ptr) (e : Side)

@[simp] theorem relink_parent : (relink s par x y).parent q = s.parent q := by
  unfold relink
  split_ifs <;> simp

@[simp] theorem relink_color : (relink s par x y).color q = s.color q := by
  unfold relink
  split_ifs <;> simp

@[simp] theorem relink_key : (relink s par x y).key q = s.key q := by
  unfold relink
  split_ifs <;> simp

@[simp] theorem relink_carrier : (relink s par x y).carrier q = s.carrier q := by
  unfold relink
  split_ifs <;> simp

@[simp] theorem relink_size : (relink s par x y).size = s.size := by
  unfold relink
  split_ifs <;> simp

@[simp] theorem relink_trace : (relink s par x y).trace = s.trace := by
  unfold relink
  split_ifs <;> simp

@[simp] theorem relink_root :
    (relink s par x y).root = if par = .nil then y else s.root := by
  unfold relink
  split_ifs <;> simp

theorem relink_child :
    (relink s par x y).child e q =
      if q = par ∧ par ≠ .nil ∧ e = (if x = s.child .left par then .left else .right) then y
      else s.child e q := by
  unfold relink
  split_ifs with h₁ h₂ h₃ <;> simp_all

end Relink

section Rotate

variable {s : Rbt} {d : Side} {x y b par : Ptr}

/-- The stores of a rotation with the pointers it reads named in advance. -/
theorem RotateFacts.eq (h : RotateFacts s d x y b par) :
    smpRotate d s x =
      let s₁ := (s.log (.rotate y)).setChild d.flip x b
      let s₂ := if b ≠ .nil then s₁.setParent b x else s₁
      ((relink (s₂.setParent y par) par x y).setChild d y x).setParent x y := by
  have hyx : y ≠ x := Ne.symm h.x_ne_y
  have hxb : x ≠ b := Ne.symm h.b_ne_x
  simp only [smpRotate, relink, h.far, h.inner, Rbt.log_child, Rbt.setChild_child, hyx,
    false_and, if_false]
  by_cases hb : b = .nil
  · simp [hb, h.up, h.x_ne_y]
  · simp [hb, h.up, h.x_ne_y, hxb]

theorem RotateFacts.parent (h : RotateFacts s d x y b par) (q : Ptr) :
    (smpRotate d s x).parent q =
      if q = x then y else if q = y then par
      else if q = b ∧ b ≠ .nil then x else s.parent q := by
  rw [h.eq]
  by_cases hb : b = .nil <;> simp [hb]

theorem RotateFacts.child (h : RotateFacts s d x y b par) (e : Side) (q : Ptr) :
    (smpRotate d s x).child e q =
      if q = y ∧ e = d then x
      else if q = par ∧ par ≠ .nil ∧
          e = (if x = s.child .left par then .left else .right) then y
      else if q = x ∧ e = d.flip then b
      else s.child e q := by
  rw [h.eq]
  have hpx := h.par_ne_x
  by_cases hb : b = .nil <;> simp [hb, relink_child, hpx]

theorem RotateFacts.root (h : RotateFacts s d x y b par) :
    (smpRotate d s x).root = if par = .nil then y else s.root := by
  rw [h.eq]
  by_cases hb : b = .nil <;> simp [hb]

theorem RotateFacts.trace (h : RotateFacts s d x y b par) :
    (smpRotate d s x).trace = .rotate y :: s.trace := by
  rw [h.eq]
  by_cases hb : b = .nil <;> simp [hb]

theorem RotateFacts.color (h : RotateFacts s d x y b par) (q : Ptr) :
    (smpRotate d s x).color q = s.color q := by
  rw [h.eq]
  by_cases hb : b = .nil <;> simp [hb]

theorem RotateFacts.sameData (h : RotateFacts s d x y b par) (hx : x ≠ .nil)
    (hy : y ≠ .nil) : SameData s (smpRotate d s x) := by
  refine ⟨?_, ?_, ?_, ?_⟩
  · intro q
    rw [h.eq]
    by_cases hb : b = .nil <;> simp [hb]
  · intro q
    rw [h.eq]
    by_cases hb : b = .nil <;> simp [hb]
  · rw [h.eq]
    by_cases hb : b = .nil <;> simp [hb]
  · rw [h.parent]
    simp [Ne.symm hx, Ne.symm hy]
    tauto

end Rotate

/-! ## Rotating the represented tree -/

theorem rootPtr_eq_nil_or_mem (t : Tree Ptr) : rootPtr t = .nil ∨ rootPtr t ∈ t.toList := by
  cases t with
  | leaf => exact Or.inl rfl
  | node c l x r => exact Or.inr (by simp [rootPtr, Tree.toList])

theorem rootPtr_mem {t : Tree Ptr} (h : t ≠ .leaf) : rootPtr t ∈ t.toList := by
  cases t with
  | leaf => exact absurd rfl h
  | node c l x r => simp [rootPtr, Tree.toList]

theorem holeParent_eq_nil_or_mem (k : List (Frame Ptr)) :
    holeParent k = .nil ∨ holeParent k ∈ around k := by
  cases k with
  | nil => exact Or.inl rfl
  | cons f k => exact Or.inr (by simp [holeParent])

/-- A node outside a tree is not its root. -/
theorem Ptr.IsNode.ne_rootPtr {q : Ptr} {t : Tree Ptr} (hq : q.IsNode) (hout : q ∉ t.toList) :
    q ≠ rootPtr t := by
  intro heq
  rcases rootPtr_eq_nil_or_mem t with hnil | hmem
  · exact hq.ne_nil (heq.trans hnil)
  · exact hout (heq ▸ hmem)

/-- A node outside a context does not own its hole. -/
theorem Ptr.IsNode.ne_holeParent {q : Ptr} {k : List (Frame Ptr)} (hq : q.IsNode)
    (hout : q ∉ around k) : q ≠ holeParent k := by
  intro heq
  rcases holeParent_eq_nil_or_mem k with hnil | hmem
  · exact hq.ne_nil (heq.trans hnil)
  · exact hout (heq ▸ hmem)

/-- Move the focus to the far child of a join. -/
theorem plug_join_far (k : List (Frame Ptr)) (d : Side) (c : Color) (a b : Tree Ptr)
    (x : Ptr) :
    plug k (Tree.join d c a x b) = plug (⟨d.flip, c, x, a⟩ :: k) b := by
  rw [plug, Frame.fill, Tree.join_flip]

/-- A node below a frame is on the side where the frame's owner points at it: the functions
look at the left child only. -/
theorem side_eq_ite {s : Rbt} {f : Frame Ptr} {x : Ptr} (hin : s.child f.side f.elem = x)
    (hsib : s.child f.side.flip f.elem = rootPtr f.sibling) (hne : x ≠ rootPtr f.sibling) :
    f.side = if x = s.child .left f.elem then Side.left else Side.right := by
  cases hside : f.side with
  | left =>
      rw [hside] at hin
      rw [if_pos hin.symm]
  | right =>
      rw [hside] at hsib
      have hleft : s.child .left f.elem = rootPtr f.sibling := hsib
      rw [hleft, if_neg hne]

theorem RotateFacts.sameLinks {s : Rbt} {d : Side} {x y b par q : Ptr}
    (h : RotateFacts s d x y b par) (hx : q ≠ x) (hy : q ≠ y) (hb : q ≠ b)
    (hpar : q ≠ par) : SameLinks s (smpRotate d s x) q := by
  refine ⟨h.color q, ?_, ?_⟩
  · rw [h.parent]
    simp [hx, hy, hb]
  · intro e
    rw [h.child]
    simp [hx, hy, hpar]

namespace Rep

variable {s : Rbt} {k : List (Frame Ptr)} {d : Side} {cx cy : Color}
  {a b e : Tree Ptr} {x y : Ptr}

/-- The pointers of a rotation at a focus are as the rotation expects them. -/
theorem rotateFacts (h : Rep s (plug k (Tree.join d cx a x (Tree.join d cy b y e)))) :
    RotateFacts s d x y (rootPtr b) (holeParent k) := by
  have hlx := h.links_focus
  have hnd := h.nodup
  rw [plug_join_far] at h
  have hly := h.links_focus
  rw [nodup_plug, nodup_join] at hnd
  rcases hnd with ⟨⟨-, hxfar, -⟩, -, haround⟩
  rw [Tree.mem_toList_join] at hxfar
  have hxa : x ∉ around k := haround x (by simp)
  refine ⟨by simpa using hlx.2.2.2.2, hly.2.2.2.1, hlx.2.2.1, ?_, ?_, ?_⟩
  · exact fun heq => hxfar (Or.inl heq)
  · exact (hlx.1.ne_rootPtr fun hb => hxfar (Or.inr (Or.inl hb))).symm
  · exact (hlx.1.ne_holeParent hxa).symm

/-- The node above a rotation gets the risen child in the place of the old root. -/
theorem rotate_above (h : Rep s (plug k (Tree.join d cx a x (Tree.join d cy b y e)))) :
    LinkedAbove (smpRotate d s x) k y := by
  have hfacts := h.rotateFacts
  have hnd := h.nodup
  have habove := h.split.1
  have hx := h.links_focus.1
  rw [nodup_plug] at hnd
  have hout : ∀ q, q ∈ around k → q ≠ x ∧ q ≠ y ∧ q ≠ rootPtr b := by
    intro q hq
    have hqt : q ∉ (Tree.join d cx a x (Tree.join d cy b y e)).toList :=
      fun hmem => hnd.2.2 q hmem hq
    simp only [Tree.mem_toList_join, not_or] at hqt
    exact ⟨hqt.1, hqt.2.2.1, (habove.isNode hq).ne_rootPtr hqt.2.2.2.1⟩
  cases k with
  | nil =>
      change (smpRotate d s x).root = y
      rw [hfacts.root]
      simp [holeParent]
  | cons f k =>
      rcases habove with ⟨hf, hc, hp, hin, hsibPtr, hsib, habove⟩
      rcases hout f.elem (by simp) with ⟨hfx, hfy, hfb⟩
      have hnd' := nodup_around_cons.mp hnd.2.1
      have hxr : x ≠ rootPtr f.sibling := by
        apply hx.ne_rootPtr
        intro hs
        exact (hout x (by simp [hs])).1 rfl
      rw [rootPtr_join] at hin
      have hside := side_eq_ite hin hsibPtr hxr
      refine ⟨hf, ?_, ?_, ?_, ?_, ?_, ?_⟩
      · rw [hfacts.color, hc]
      · rw [hfacts.parent]
        simp [hfx, hfy, hfb, hp]
      · rw [hfacts.child, holeParent, ← hside]
        simp [hfy, hf.ne_nil]
      · rw [hfacts.child, holeParent, ← hside]
        simp [hfy, hfx, Side.flip_ne, hsibPtr]
      · refine hsib.congr fun q hq => ?_
        rcases hout q (by simp [hq]) with ⟨hqx, hqy, hqb⟩
        refine hfacts.sameLinks hqx hqy hqb fun heq => hnd'.1 ?_
        rw [holeParent] at heq
        exact heq ▸ hq
      · refine habove.congr ?_ fun q hq => ?_
        · rw [hfacts.root]
          simp [holeParent, hf.ne_nil]
        · rcases hout q (by simp [hq]) with ⟨hqx, hqy, hqb⟩
          refine hfacts.sameLinks hqx hqy hqb fun heq => hnd'.2.1 ?_
          rw [holeParent] at heq
          exact heq ▸ hq

/-- The two rotated nodes and the three subtrees below them. -/
theorem rotate_below (h : Rep s (plug k (Tree.join d cx a x (Tree.join d cy b y e)))) :
    Linked (smpRotate d s x) (holeParent k) (Tree.join d cy (Tree.join d cx a x b) y e) := by
  have hfacts := h.rotateFacts
  have hnd := h.nodup
  have hlinked := h.split.2
  rw [nodup_plug, nodup_join, nodup_join] at hnd
  simp only [Tree.mem_toList_join, not_or] at hnd
  rcases hnd with ⟨⟨hxa, ⟨hxy, hxb, hxe⟩, hna, ⟨hyb, hye, hnb, hne, hbe⟩, hafar⟩, -, haround⟩
  rcases linked_join.mp hlinked with ⟨hx, hcx, -, hxnear, -, hla, hlfar⟩
  rcases linked_join.mp hlfar with ⟨hy, hcy, -, -, hyfar, hlb, hle⟩
  have hparx : ∀ q, (q = x ∨ q ∈ a.toList) ∨ q = y ∨ q ∈ b.toList ∨ q ∈ e.toList →
      q.IsNode → q ≠ holeParent k := by
    intro q hq hnode
    apply hnode.ne_holeParent
    apply haround q
    tauto
  have hyx : y ≠ x := Ne.symm hxy
  refine linked_join.mpr ⟨hy, ?_, ?_, ?_, ?_, linked_join.mpr ⟨hx, ?_, ?_, ?_, ?_, ?_, ?_⟩, ?_⟩
  · rw [hfacts.color, hcy]
  · rw [hfacts.parent]
    simp [hyx]
  · rw [hfacts.child]
    simp
  · rw [hfacts.child]
    simp [Side.flip_ne, hyx, hparx y (by simp) hy, hyfar]
  · rw [hfacts.color, hcx]
  · rw [hfacts.parent]
    simp
  · rw [hfacts.child]
    simp [hxy, Ne.symm (Side.flip_ne d), hparx x (by simp) hx, hxnear]
  · rw [hfacts.child]
    simp [Side.flip_ne, hparx x (by simp) hx]
  · refine hla.congr fun q hq => ?_
    have hnode := hla.isNode hq
    have hfar := hafar q hq
    exact hfacts.sameLinks (fun heq => hxa (heq ▸ hq)) hfar.1
      (hnode.ne_rootPtr hfar.2.1) (hparx q (by simp [hq]) hnode)
  · refine hlb.reparent hnb (fun q hq heq => ?_) fun q hq hne => ?_
    · have hnode := hlb.isNode hq
      have hqx : q ≠ x := fun heq => hxb (heq ▸ hq)
      have hqy : q ≠ y := fun heq => hyb (heq ▸ hq)
      refine ⟨hfacts.color q, ?_, fun e => ?_⟩
      · rw [hfacts.parent]
        simp [hqx, hqy, ← heq, hnode.ne_nil]
      · rw [hfacts.child]
        simp [hqx, hqy, hparx q (by simp [hq]) hnode]
    · have hnode := hlb.isNode hq
      exact hfacts.sameLinks (fun heq => hxb (heq ▸ hq)) (fun heq => hyb (heq ▸ hq)) hne
        (hparx q (by simp [hq]) hnode)
  · refine hle.congr fun q hq => ?_
    have hnode := hle.isNode hq
    exact hfacts.sameLinks (fun heq => hxe (heq ▸ hq)) (fun heq => hye (heq ▸ hq))
      (hnode.ne_rootPtr fun hqb => hbe q hqb hq) (hparx q (by simp [hq]) hnode)

/-- A rotation of the struct rotates the tree at the focus; colours stay with their
nodes. -/
theorem rotate (h : Rep s (plug k (Tree.join d cx a x (Tree.join d cy b y e)))) :
    Rep (smpRotate d s x) (plug k (Tree.join d cy (Tree.join d cx a x b) y e)) ∧
      SameData s (smpRotate d s x) := by
  have hfacts := h.rotateFacts
  have hx := h.links_focus.1
  have hy : y.IsNode := by
    refine h.isNode ?_
    simp
  have hplug := linked_plug.mpr ⟨by rw [rootPtr_join]; exact h.rotate_above, h.rotate_below⟩
  refine ⟨⟨hplug.1, hplug.2, ?_, ?_, ?_⟩, hfacts.sameData hx.ne_nil hy.ne_nil⟩
  · rw [toList_plug, Tree.toList_rotate d cy cx cx cy, ← toList_plug]
    exact h.nodup
  · rw [hfacts.color]
    exact h.nilBlack
  · intro ev hev
    rw [hfacts.trace, List.mem_cons] at hev
    rcases hev with rfl | hev
    · exact hy.ne_nil
    · exact h.traceOk ev hev

/-- A colour store recolours the node at the focus. -/
theorem paint {c : Color} (c' : Color) (h : Rep s (plug k (Tree.join d c a x b))) :
    Rep (s.paint x c') (plug k (Tree.join d c' a x b)) ∧ SameData s (s.paint x c') := by
  have hx := h.links_focus.1
  have hnd := h.nodup
  rw [nodup_plug, nodup_join] at hnd
  rcases hnd with ⟨⟨hxa, hxb, -⟩, -, haround⟩
  have hsame : ∀ q, q ≠ x → SameLinks s (s.paint x c') q := by
    intro q hq
    simp [SameLinks, hq]
  rcases linked_join.mp h.split.2 with ⟨hnode, -, hp, hl, hr, hll, hlr⟩
  have hplug := linked_plug.mpr
    (show LinkedAbove (s.paint x c') k (rootPtr (Tree.join d c' a x b)) ∧
        Linked (s.paint x c') (holeParent k) (Tree.join d c' a x b) by
      refine ⟨?_, linked_join.mpr ⟨hnode, by simp, by simpa, by simpa, by simpa, ?_, ?_⟩⟩
      · have habove := h.split.1
        rw [rootPtr_join] at habove ⊢
        refine habove.congr (Rbt.paint_root s x c') fun q hq => hsame q fun heq => ?_
        exact haround x (by simp) (heq ▸ hq)
      · exact hll.congr fun q hq => hsame q fun heq => hxa (heq ▸ hq)
      · exact hlr.congr fun q hq => hsame q fun heq => hxb (heq ▸ hq))
  refine ⟨⟨hplug.1, hplug.2, ?_, ?_, ?_⟩, ⟨by simp, by simp, by simp, by simp⟩⟩
  · rw [toList_plug, Tree.toList_join_recolor d c' c, ← toList_plug]
    exact h.nodup
  · simp [Ne.symm hx.ne_nil, h.nilBlack]
  · intro ev hev
    rw [Rbt.paint_trace, List.mem_cons] at hev
    rcases hev with rfl | hev
    · exact fun hnil => absurd hnil hx.ne_nil
    · exact h.traceOk ev hev

/-- Recolour the far child of a join. -/
theorem paint_far {c cu : Color} {l r : Tree Ptr} (c' : Color)
    (h : Rep s (plug k (Tree.join d c a x (.node cu l y r)))) :
    Rep (s.paint y c') (plug k (Tree.join d c a x (.node c' l y r))) ∧
      SameData s (s.paint y c') := by
  rw [plug_join_far] at h ⊢
  exact Rep.paint (d := .left) c' h

/-- The colour of the far child of a join. -/
theorem color_far {c : Color} (h : Rep s (plug k (Tree.join d c a x b))) :
    s.color (rootPtr b) = b.rootColor := by
  rw [plug_join_far] at h
  exact h.color_focus

end Rep
end RbTree
end Smpcil
