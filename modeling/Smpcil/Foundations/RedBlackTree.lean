import Mathlib.Algebra.Order.Ring.Nat
import Mathlib.Data.List.Nodup
import Mathlib.Data.List.Perm.Basic
import Mathlib.Tactic.Common

/-!
# Red-black trees with a focus

Binary search trees coloured red and black, over arbitrary elements, together with
a one-hole context.  The bottom-up repairs after an insertion or a deletion walk
one path of the tree, so their states are a context and the subtree in its hole.
Left and right are handled at once: {lit}`join d` builds a node whose child on side
{lit}`d` is given first.

Main results:

- Definition {lit}`Balanced`: the colour and black-height invariant of a subtree.
- Definition {lit}`Hole`: what a context expects of the subtree in its hole, with
  {lit}`Hole.plug` as its defining property.
- Theorems {lit}`Hole.redFrame` and {lit}`Balanced.sibling_node`: what an insertion and
  a deletion repair find above their focus.
- Theorem {lit}`Balanced.two_pow_le`: a subtree is at most logarithmically deep.
-/

namespace RedBlack

/-- The two colours of a node. -/
inductive Color where
  | red
  | black
deriving DecidableEq, Repr

/-- The two sides of a node. -/
inductive Side where
  | left
  | right
deriving DecidableEq, Repr

/-- The other side. -/
def Side.flip : Side → Side
  | .left => .right
  | .right => .left

@[simp]
theorem Side.flip_flip (d : Side) : d.flip.flip = d := by
  cases d <;> rfl

theorem Side.flip_ne (d : Side) : d.flip ≠ d := by
  cases d <;> simp [Side.flip]

theorem Side.eq_flip_of_ne {d e : Side} (h : e ≠ d) : e = d.flip := by
  cases d <;> cases e <;> simp_all [Side.flip]

/-- A coloured binary tree. -/
inductive Tree (α : Type) where
  | leaf
  | node (color : Color) (left : Tree α) (elem : α) (right : Tree α)
deriving DecidableEq, Repr

variable {α : Type}

namespace Tree

/-- The colour of the root; a leaf counts as black. -/
def rootColor : Tree α → Color
  | leaf => .black
  | node c _ _ _ => c

/-- The elements in order. -/
def toList : Tree α → List α
  | leaf => []
  | node _ l x r => l.toList ++ x :: r.toList

/-- The number of nodes. -/
def size : Tree α → Nat
  | leaf => 0
  | node _ l _ r => l.size + r.size + 1

/-- The number of nodes on the longest path from the root. -/
def height : Tree α → Nat
  | leaf => 0
  | node _ l _ r => max l.height r.height + 1

/-- Recolour the root black. -/
def blacken : Tree α → Tree α
  | leaf => leaf
  | node _ l x r => node .black l x r

/-- The node whose child on side {lit}`d` is {lit}`near`. -/
def join (d : Side) (c : Color) (near : Tree α) (x : α) (far : Tree α) : Tree α :=
  match d with
  | .left => node c near x far
  | .right => node c far x near

theorem join_flip (d : Side) (c : Color) (near far : Tree α) (x : α) :
    join d.flip c near x far = join d c far x near := by
  cases d <;> rfl

/-- Every node is a join on either side. -/
theorem exists_join (d : Side) (c : Color) (l r : Tree α) (x : α) :
    ∃ near far, node c l x r = join d c near x far := by
  cases d
  · exact ⟨l, r, rfl⟩
  · exact ⟨r, l, rfl⟩

@[simp]
theorem rootColor_join (d : Side) (c : Color) (near far : Tree α) (x : α) :
    (join d c near x far).rootColor = c := by
  cases d <;> rfl

@[simp]
theorem blacken_join (d : Side) (c : Color) (near far : Tree α) (x : α) :
    (join d c near x far).blacken = join d .black near x far := by
  cases d <;> rfl

@[simp]
theorem join_ne_leaf (d : Side) (c : Color) (near far : Tree α) (x : α) :
    join d c near x far ≠ leaf := by
  cases d <;> simp [join]

@[simp]
theorem size_join (d : Side) (c : Color) (near far : Tree α) (x : α) :
    (join d c near x far).size = near.size + far.size + 1 := by
  cases d <;> simp [join, size, Nat.add_comm]

@[simp]
theorem toList_blacken (t : Tree α) : t.blacken.toList = t.toList := by
  cases t <;> rfl

theorem blacken_of_black {t : Tree α} (h : t.rootColor = .black) : t.blacken = t := by
  cases t with
  | leaf => rfl
  | node c l x r =>
      simp only [rootColor] at h
      subst h
      rfl

theorem length_toList (t : Tree α) : t.toList.length = t.size := by
  induction t with
  | leaf => rfl
  | node c l x r ihl ihr => simp [toList, size, ihl, ihr]; omega

/-- Up to order, a join holds its element and those of its two children. -/
theorem toList_join_perm (d : Side) (c : Color) (near far : Tree α) (x : α) :
    ((join d c near x far).toList).Perm (x :: (near.toList ++ far.toList)) := by
  cases d with
  | left => exact List.perm_middle
  | right =>
      exact List.perm_middle.trans (List.Perm.cons x List.perm_append_comm)

@[simp]
theorem mem_toList_join {d : Side} {c : Color} {near far : Tree α} {x y : α} :
    y ∈ (join d c near x far).toList ↔ y = x ∨ y ∈ near.toList ∨ y ∈ far.toList := by
  rw [(toList_join_perm d c near far x).mem_iff]
  simp

/-- Rotating a node keeps the order of the elements, whatever the colours. -/
theorem toList_rotate (d : Side) (c₁ c₂ c₃ c₄ : Color) (a b e : Tree α) (x y : α) :
    (join d c₁ (join d c₂ a x b) y e).toList = (join d c₃ a x (join d c₄ b y e)).toList := by
  cases d <;> simp [join, toList]

theorem toList_join_recolor (d : Side) (c c' : Color) (a b : Tree α) (x : α) :
    (join d c a x b).toList = (join d c' a x b).toList := by
  cases d <;> rfl

end Tree

open RedBlack.Tree

/-! ## One-hole contexts -/

/-- One step of the path above a hole: a node whose child on {lit}`side` is the hole. -/
structure Frame (α : Type) where
  side : Side
  color : Color
  elem : α
  sibling : Tree α

/-- Put a subtree into the hole of a frame. -/
def Frame.fill (f : Frame α) (t : Tree α) : Tree α :=
  join f.side f.color t f.elem f.sibling

/-- Put a subtree into the hole of a context, whose innermost frame comes first. -/
def plug : List (Frame α) → Tree α → Tree α
  | [], t => t
  | f :: k, t => plug k (f.fill t)

/-- The elements left of the hole, in order. -/
def before : List (Frame α) → List α
  | [] => []
  | f :: k =>
      match f.side with
      | .left => before k
      | .right => before k ++ f.sibling.toList ++ [f.elem]

/-- The elements right of the hole, in order. -/
def after : List (Frame α) → List α
  | [] => []
  | f :: k =>
      match f.side with
      | .left => f.elem :: f.sibling.toList ++ after k
      | .right => after k

theorem toList_plug (k : List (Frame α)) (t : Tree α) :
    (plug k t).toList = before k ++ t.toList ++ after k := by
  induction k generalizing t with
  | nil => simp [plug, before, after]
  | cons f k ih =>
      rw [plug, ih]
      cases hs : f.side <;> simp [Frame.fill, join, before, after, toList, hs]

theorem plug_append (k k' : List (Frame α)) (t : Tree α) :
    plug (k ++ k') t = plug k' (plug k t) := by
  induction k generalizing t with
  | nil => rfl
  | cons f k ih => exact ih (f.fill t)

/-- A context is no deeper than the tree around its hole is large. -/
theorem length_add_size_le (k : List (Frame α)) (t : Tree α) :
    k.length + t.size ≤ (plug k t).size := by
  induction k generalizing t with
  | nil => simp [plug]
  | cons f k ih =>
      have hrest := ih (f.fill t)
      rw [Frame.fill, size_join] at hrest
      rw [plug, Frame.fill, List.length_cons]
      omega

/-- The elements on both sides of the hole. -/
def around (k : List (Frame α)) : List α := before k ++ after k

@[simp]
theorem around_nil : around ([] : List (Frame α)) = [] := rfl

/-- Up to order, a frame adds its element and its sibling to what lies around the hole. -/
theorem around_cons_perm (f : Frame α) (k : List (Frame α)) :
    (around (f :: k)).Perm (f.elem :: (f.sibling.toList ++ around k)) := by
  unfold around
  cases hs : f.side with
  | left =>
      simp only [before, after, hs, List.cons_append]
      refine List.perm_middle.trans (List.Perm.cons f.elem ?_)
      rw [← List.append_assoc, ← List.append_assoc]
      exact List.perm_append_comm.append_right _
  | right =>
      simp only [before, after, hs]
      rw [List.append_assoc, List.singleton_append]
      refine List.perm_middle.trans (List.Perm.cons f.elem ?_)
      rw [← List.append_assoc]
      exact List.perm_append_comm.append_right _

@[simp]
theorem mem_around_cons {f : Frame α} {k : List (Frame α)} {x : α} :
    x ∈ around (f :: k) ↔ x = f.elem ∨ x ∈ f.sibling.toList ∨ x ∈ around k := by
  rw [(around_cons_perm f k).mem_iff]
  simp

theorem toList_plug_perm (k : List (Frame α)) (t : Tree α) :
    ((plug k t).toList).Perm (t.toList ++ around k) := by
  rw [toList_plug, around, ← List.append_assoc]
  exact List.perm_append_comm.append_right _

@[simp]
theorem mem_toList_plug {k : List (Frame α)} {t : Tree α} {x : α} :
    x ∈ (plug k t).toList ↔ x ∈ t.toList ∨ x ∈ around k := by
  rw [(toList_plug_perm k t).mem_iff, List.mem_append]

/-! ## Distinct elements -/

theorem nodup_join {d : Side} {c : Color} {a b : Tree α} {x : α} :
    (join d c a x b).toList.Nodup ↔
      x ∉ a.toList ∧ x ∉ b.toList ∧ a.toList.Nodup ∧ b.toList.Nodup ∧
        ∀ y ∈ a.toList, y ∉ b.toList := by
  rw [(toList_join_perm d c a b x).nodup_iff, List.nodup_cons, List.nodup_append',
    List.disjoint_left]
  simp [and_assoc]

theorem nodup_plug {k : List (Frame α)} {t : Tree α} :
    (plug k t).toList.Nodup ↔
      t.toList.Nodup ∧ (around k).Nodup ∧ ∀ y ∈ t.toList, y ∉ around k := by
  rw [(toList_plug_perm k t).nodup_iff, List.nodup_append', List.disjoint_left]

theorem nodup_around_cons {f : Frame α} {k : List (Frame α)} :
    (around (f :: k)).Nodup ↔
      f.elem ∉ f.sibling.toList ∧ f.elem ∉ around k ∧ f.sibling.toList.Nodup ∧
        (around k).Nodup ∧ ∀ y ∈ f.sibling.toList, y ∉ around k := by
  rw [(around_cons_perm f k).nodup_iff, List.nodup_cons, List.nodup_append',
    List.disjoint_left]
  simp [and_assoc]

/-- Every element of a tree sits at the top of some focused subtree. -/
theorem exists_plug_of_mem {t : Tree α} {x : α} (h : x ∈ t.toList) :
    ∃ k c l r, t = plug k (node c l x r) := by
  induction t with
  | leaf => simp [toList] at h
  | node c l y r ihl ihr =>
      simp only [toList, List.mem_append, List.mem_cons] at h
      rcases h with h | rfl | h
      · obtain ⟨k, c', l', r', rfl⟩ := ihl h
        exact ⟨k ++ [⟨.left, c, y, r⟩], c', l', r', by rw [plug_append]; rfl⟩
      · exact ⟨[], c, l, r, rfl⟩
      · obtain ⟨k, c', l', r', rfl⟩ := ihr h
        exact ⟨k ++ [⟨.right, c, y, l⟩], c', l', r', by rw [plug_append]; rfl⟩

/-! ## The balance invariant -/

/-- {lit}`Balanced t c n`: the root of {lit}`t` has colour {lit}`c`, no red node has a
red child, and every path to a leaf has {lit}`n` black nodes. -/
inductive Balanced : Tree α → Color → Nat → Prop where
  | leaf : Balanced .leaf .black 0
  | red {l r : Tree α} {x : α} {n : Nat} :
      Balanced l .black n → Balanced r .black n → Balanced (.node .red l x r) .red n
  | black {l r : Tree α} {x : α} {c₁ c₂ : Color} {n : Nat} :
      Balanced l c₁ n → Balanced r c₂ n → Balanced (.node .black l x r) .black (n + 1)

namespace Balanced

theorem rootColor_eq {t : Tree α} {c : Color} {n : Nat} (h : Balanced t c n) :
    t.rootColor = c := by
  cases h <;> rfl

theorem joinRed {d : Side} {a b : Tree α} {x : α} {n : Nat}
    (ha : Balanced a .black n) (hb : Balanced b .black n) :
    Balanced (join d .red a x b) .red n := by
  cases d
  · exact .red ha hb
  · exact .red hb ha

theorem joinBlack {d : Side} {a b : Tree α} {x : α} {c₁ c₂ : Color} {n : Nat}
    (ha : Balanced a c₁ n) (hb : Balanced b c₂ n) :
    Balanced (join d .black a x b) .black (n + 1) := by
  cases d
  · exact .black ha hb
  · exact .black hb ha

theorem of_joinRed {d : Side} {c : Color} {a b : Tree α} {x : α} {n : Nat}
    (h : Balanced (join d .red a x b) c n) :
    c = .red ∧ Balanced a .black n ∧ Balanced b .black n := by
  cases d <;> cases h <;> exact ⟨rfl, by assumption, by assumption⟩

theorem of_joinBlack {d : Side} {c : Color} {a b : Tree α} {x : α} {n : Nat}
    (h : Balanced (join d .black a x b) c n) :
    c = .black ∧ ∃ m c₁ c₂, n = m + 1 ∧ Balanced a c₁ m ∧ Balanced b c₂ m := by
  cases d with
  | left =>
      cases h with
      | black ha hb => exact ⟨rfl, _, _, _, rfl, ha, hb⟩
  | right =>
      cases h with
      | black hb ha => exact ⟨rfl, _, _, _, rfl, ha, hb⟩

/-- Blackening a red root adds one black node to every path. -/
theorem blacken_red {t : Tree α} {n : Nat} (h : Balanced t .red n) :
    Balanced t.blacken .black (n + 1) := by
  cases h with
  | red hl hr => exact .black hl hr

/-- A subtree of positive black height is a real node; this is the sibling that a
deletion repair works on. -/
theorem sibling_node {t : Tree α} {c : Color} {n : Nat} (h : Balanced t c (n + 1))
    (d : Side) : ∃ near y far, t = join d c near y far := by
  cases t with
  | leaf => cases h
  | node c' l y r =>
      obtain ⟨near, far, hj⟩ := exists_join d c' l r y
      refine ⟨near, y, far, ?_⟩
      rw [hj, ← h.rootColor_eq]
      rfl

/-- Black height bounds the size from below. -/
theorem two_pow_le_size {t : Tree α} {c : Color} {n : Nat} (h : Balanced t c n) :
    2 ^ n ≤ t.size + 1 := by
  induction h with
  | leaf => simp [Tree.size]
  | red _ _ ihl ihr => simp only [Tree.size]; omega
  | black _ _ ihl ihr => simp only [Tree.size, Nat.pow_succ]; omega

/-- Black height bounds the depth from above; a red root costs one more level. -/
theorem height_le {t : Tree α} {c : Color} {n : Nat} (h : Balanced t c n) :
    t.height ≤ 2 * n + (if c = .red then 1 else 0) := by
  induction h with
  | leaf => simp [Tree.height]
  | red _ _ ihl ihr => simp [Tree.height] at *; omega
  | @black l r x c₁ c₂ n _ _ ihl ihr =>
      have h₁ : l.height ≤ 2 * n + 1 := by split at ihl <;> omega
      have h₂ : r.height ≤ 2 * n + 1 := by split at ihr <;> omega
      simp only [Tree.height]
      simp
      omega

/-- A black-rooted balanced tree of {lit}`s` nodes has depth at most
{lit}`2 * log2 (s + 1)`. -/
theorem two_pow_le {t : Tree α} {n : Nat} (h : Balanced t .black n) :
    2 ^ ((t.height + 1) / 2) ≤ t.size + 1 := by
  have hheight := h.height_le
  simp at hheight
  calc 2 ^ ((t.height + 1) / 2) ≤ 2 ^ n := Nat.pow_le_pow_right (by omega) (by omega)
    _ ≤ t.size + 1 := h.two_pow_le_size

end Balanced

/-- {lit}`Hole k c n`: filling the hole of {lit}`k` with a subtree of root colour
{lit}`c` and black height {lit}`n` gives a balanced tree with a black root. -/
inductive Hole : List (Frame α) → Color → Nat → Prop where
  | root {n : Nat} : Hole [] .black n
  | red {f : Frame α} {k : List (Frame α)} {n : Nat} : f.color = .red →
      Balanced f.sibling .black n → Hole k .red n → Hole (f :: k) .black n
  | black {f : Frame α} {k : List (Frame α)} {c c' : Color} {n : Nat} : f.color = .black →
      Balanced f.sibling c' n → Hole k .black (n + 1) → Hole (f :: k) c n

namespace Hole

/-- The defining property of a hole. -/
theorem plug {k : List (Frame α)} {c : Color} {n : Nat} (h : Hole k c n) :
    ∀ {t : Tree α}, Balanced t c n → ∃ m, Balanced (plug k t) .black m := by
  induction h with
  | root => intro t ht; exact ⟨_, ht⟩
  | @red f k n hcol hsib _ ih =>
      intro t ht
      refine ih ?_
      rw [Frame.fill, hcol]
      exact ht.joinRed hsib
  | @black f k c c' n hcol hsib _ ih =>
      intro t ht
      refine ih ?_
      rw [Frame.fill, hcol]
      exact ht.joinBlack hsib

/-- Where a red subtree fits, a black one of the same black height fits too. -/
theorem black_of_red {k : List (Frame α)} {n : Nat} (h : Hole k .red n) :
    Hole k .black n := by
  cases h with
  | black hcol hsib hrest => exact .black hcol hsib hrest

/-- Any colour fits below a black frame. -/
theorem of_blackFrame {f : Frame α} {k : List (Frame α)} {c c' : Color} {n : Nat}
    (h : Hole (f :: k) c n) (hf : f.color = .black) : Hole (f :: k) c' n := by
  cases h with
  | red hcol _ _ => rw [hf] at hcol; cases hcol
  | black _ hsib hrest => exact .black hf hsib hrest

/-- What lies above a red frame: since the root of the tree is black there is a
black grandparent, and an uncle of the same black height. -/
theorem redFrame {f : Frame α} {k : List (Frame α)} {c : Color} {n : Nat}
    (h : Hole (f :: k) c n) (hf : f.color = .red) :
    Balanced f.sibling .black n ∧ ∃ g k' c', k = g :: k' ∧ g.color = .black ∧
      Balanced g.sibling c' n ∧ Hole k' .black (n + 1) := by
  cases h with
  | black hcol _ _ => rw [hf] at hcol; cases hcol
  | red _ hsib hrest =>
      refine ⟨hsib, ?_⟩
      cases hrest with
      | black hcol hsib' hrest' => exact ⟨_, _, _, rfl, hcol, hsib', hrest'⟩

/-- What lies above a black frame. -/
theorem blackFrame {f : Frame α} {k : List (Frame α)} {c : Color} {n : Nat}
    (h : Hole (f :: k) c n) (hf : f.color = .black) :
    ∃ c', Balanced f.sibling c' n ∧ Hole k .black (n + 1) := by
  cases h with
  | red hcol _ _ => rw [hf] at hcol; cases hcol
  | black _ hsib hrest => exact ⟨_, hsib, hrest⟩

end Hole

/-- Every focus of a balanced tree splits it into a balanced subtree and a context
with a fitting hole. -/
theorem Balanced.split {k : List (Frame α)} :
    ∀ {t : Tree α} {m : Nat}, Balanced (RedBlack.plug k t) .black m →
      ∃ c n, Balanced t c n ∧ Hole k c n := by
  induction k with
  | nil => intro t m h; exact ⟨.black, m, h, .root⟩
  | cons f k ih =>
      intro t m h
      obtain ⟨c, n, hfill, hhole⟩ := ih h
      cases hcol : f.color with
      | red =>
          rw [Frame.fill, hcol] at hfill
          obtain ⟨rfl, ht, hs⟩ := hfill.of_joinRed
          exact ⟨.black, n, ht, .red hcol hs hhole⟩
      | black =>
          rw [Frame.fill, hcol] at hfill
          obtain ⟨rfl, p, c₁, c₂, rfl, ht, hs⟩ := hfill.of_joinBlack
          exact ⟨c₁, p, ht, .black hcol hs hhole⟩

/-- A subtree one black node short on every path: blackening it completes it, or it
is black and has nothing left to blacken. -/
inductive Short : Tree α → Nat → Prop where
  | black {t : Tree α} {n : Nat} : Balanced t .black n → Short t n
  | red {t : Tree α} {n : Nat} : t.rootColor = .red →
      Balanced t.blacken .black (n + 1) → Short t n

theorem Short.of_balanced {t : Tree α} {c : Color} {n : Nat} (h : Balanced t c n) :
    Short t n := by
  cases c with
  | red => exact .red h.rootColor_eq h.blacken_red
  | black => exact .black h

end RedBlack
