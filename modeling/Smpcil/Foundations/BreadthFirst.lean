import Smpcil.Foundations.RedBlackTree

/-!
# Breadth-first walks

A walk over a tree that keeps the subtrees still to come in a queue.  Each subtree that
waits takes one cell, and a cell whose subtree has had its turn is kept for later ones.

Main results:

- Theorem {lit}`nodesOf_step`: one step of the walk takes one element off the forest.
- Definition {lit}`newCells`: how many new cells a walk takes.
-/

namespace RedBlack

variable {α : Type}

namespace Tree

/-- The tree, if it is not empty. -/
def kids : Tree α → List (Tree α)
  | leaf => []
  | node c l x r => [node c l x r]

/-- The subtrees below the root that are not empty. -/
def children : Tree α → List (Tree α)
  | leaf => []
  | node _ l _ r => l.kids ++ r.kids

end Tree

/-- The elements of a forest. -/
def nodesOf (ts : List (Tree α)) : List α := ts.flatMap Tree.toList

@[simp]
theorem nodesOf_nil : nodesOf ([] : List (Tree α)) = [] := rfl

@[simp]
theorem nodesOf_cons (t : Tree α) (ts : List (Tree α)) :
    nodesOf (t :: ts) = t.toList ++ nodesOf ts := rfl

@[simp]
theorem nodesOf_append (ts us : List (Tree α)) : nodesOf (ts ++ us) = nodesOf ts ++ nodesOf us := by
  simp [nodesOf]

@[simp]
theorem nodesOf_kids (t : Tree α) : nodesOf t.kids = t.toList := by
  cases t with
  | leaf => rfl
  | node c l x r => simp [Tree.kids]

theorem nodesOf_perm {ts us : List (Tree α)} (h : ts.Perm us) : (nodesOf ts).Perm (nodesOf us) :=
  h.flatMap_right Tree.toList

/-- A forest of trees that are not empty has an element. -/
theorem nodesOf_eq_nil {ts : List (Tree α)} (h : ∀ u ∈ ts, u ≠ .leaf) :
    nodesOf ts = [] ↔ ts = [] := by
  cases ts with
  | nil => simp
  | cons t ts =>
      have hne := h t List.mem_cons_self
      cases t with
      | leaf => exact absurd rfl hne
      | node c l x r => simp [Tree.toList]

theorem ne_leaf_of_mem_kids {t u : Tree α} (h : u ∈ t.kids) : u ≠ .leaf ∧ u = t := by
  cases t with
  | leaf => simp [Tree.kids] at h
  | node c l x r =>
      rw [Tree.kids, List.mem_singleton] at h
      subst h
      exact ⟨by simp, rfl⟩

/-- One step of the walk: the root of the first tree, and its subtrees behind the others. -/
theorem nodesOf_step (c : Color) (l r : Tree α) (x : α) (ts : List (Tree α)) :
    (nodesOf (.node c l x r :: ts)).Perm (x :: nodesOf (ts ++ (Tree.node c l x r).children)) := by
  have hleft : nodesOf (.node c l x r :: ts) = l.toList ++ x :: (r.toList ++ nodesOf ts) := by
    simp [Tree.toList]
  have hright : nodesOf (ts ++ (Tree.node c l x r).children) =
      nodesOf ts ++ (l.toList ++ r.toList) := by
    simp [Tree.children]
  rw [hleft, hright]
  refine List.perm_middle.trans (List.Perm.cons x ?_)
  rw [← List.append_assoc]
  exact List.perm_append_comm

/-- How many new cells the walk over a forest takes when {lit}`i` cells are kept. -/
def newCells : List (Tree α) → Nat → Nat
  | [], _ => 0
  | t :: ts, i =>
      (t.children.length - i) + newCells (ts ++ t.children) (i - t.children.length + 1)
termination_by ts _ => (ts.map fun t => 2 * t.size + 1).sum
decreasing_by
  cases t with
  | leaf => simp [Tree.children]
  | node c l x r =>
      have hkids : ∀ u : Tree α, (u.kids.map fun t => 2 * t.size + 1).sum ≤ 2 * u.size + 1 := by
        intro u
        cases u <;> simp [Tree.kids]
      have hl := hkids l
      have hr := hkids r
      simp only [Tree.children, List.map_append, List.sum_append, List.map_cons, List.sum_cons,
        Tree.size]
      omega

@[simp]
theorem newCells_nil (i : Nat) : newCells ([] : List (Tree α)) i = 0 := by
  simp [newCells]

theorem newCells_cons (t : Tree α) (ts : List (Tree α)) (i : Nat) :
    newCells (t :: ts) i =
      (t.children.length - i) + newCells (ts ++ t.children) (i - t.children.length + 1) := by
  rw [newCells]

end RedBlack
