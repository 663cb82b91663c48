import Smpcil.Teardown.Cells
import Smpcil.Tree.Linked

/-!
# The children of a node

What the two calls that enter the children of a node do: which of the children wait, which of
them have got no cell, and how many cells were requested for that.

Main results:

- Definition {lit}`Forest`: the cells in use stand for the trees still to come.
- Definition {lit}`Entered`: the outcome of entering some trees.
- Theorem {lit}`Forest.children_entered`: the two children of a node.
-/

namespace Smpcil
namespace Teardown

open RedBlack
export RedBlack (Tree Tree.node)
open RbTree (Ptr Rbt rootPtr rootPtr_leaf)
open Queue

/-! ## Pointers -/

@[simp]
theorem ofVoid_toVoid (p : Ptr) : ofVoid (toVoid p) = p := by
  cases p <;> rfl

theorem toVoid_injective : Function.Injective toVoid := by
  intro p q h
  rw [← ofVoid_toVoid p, h, ofVoid_toVoid]

/-! ## Forests -/

/-- The cell in the hand of the walk and those of the first queue stand for the trees
{lit}`ts`, in order. -/
structure Forest (answers : Answers) (s : State) (hand bs is : List Nat) (ts : List (Tree Ptr)) :
    Prop where
  cells : Cells answers s hand bs is
  data : (hand ++ bs).map (fun c => (s.heap.qnode c).data) = ts.map fun t => toVoid (rootPtr t)

/-- The trees {lit}`us` were to be entered.  Those of {lit}`es` wait, and those of
{lit}`lost` have got no cell. -/
structure Entered (answers : Answers) (s s' : State) (is is' : List Nat)
    (us es lost : List (Tree Ptr)) : Prop where
  same : SameWork s s'
  perm : (es ++ lost).Perm us
  all : lost = [] → es = us
  idle : is'.length = is.length - us.length
  requests : s'.heap.requests = s.heap.requests + (us.length - is.length)
  granted : lost = [] ↔
    ∀ i, s.heap.requests ≤ i → i < s'.heap.requests → answers i ≠ none

variable {answers : Answers} {s s' s₁ s₂ : State} {hand bs is is₁ is₂ : List Nat}
  {ts us us₁ us₂ es₁ es₂ lost₁ lost₂ : List (Tree Ptr)} {rnode : Ptr}

theorem SameWork.trans (h₁ : SameWork s s₁) (h₂ : SameWork s₁ s₂) : SameWork s s₂ :=
  ⟨h₂.rbt.trans h₁.rbt, h₂.log.trans h₁.log, h₁.busy.trans h₂.busy, h₁.idle.trans h₂.idle⟩

theorem SameWork.refl (s : State) : SameWork s s := ⟨rfl, rfl, .refl _, .refl _⟩

/-- Nothing is entered. -/
theorem Entered.nil (answers : Answers) (s : State) (is : List Nat) :
    Entered answers s s is is [] [] [] where
  same := .refl s
  perm := .refl _
  all := fun _ => rfl
  idle := rfl
  requests := by simp
  granted := by simp only [true_iff]; omega

/-- Trees are entered after others. -/
theorem Entered.append (h₁ : Entered answers s s₁ is is₁ us₁ es₁ lost₁)
    (h₂ : Entered answers s₁ s₂ is₁ is₂ us₂ es₂ lost₂) :
    Entered answers s s₂ is is₂ (us₁ ++ us₂) (es₁ ++ es₂) (lost₁ ++ lost₂) := by
  have hidle := h₁.idle
  have hreq₁ := h₁.requests
  have hreq₂ := h₂.requests
  constructor
  case same => exact h₁.same.trans h₂.same
  case perm =>
    have hswap : (es₁ ++ es₂ ++ (lost₁ ++ lost₂)).Perm (es₁ ++ lost₁ ++ (es₂ ++ lost₂)) := by
      rw [List.append_assoc, List.append_assoc]
      exact List.Perm.append_left es₁ (List.perm_append_comm_assoc _ _ _)
    exact hswap.trans (h₁.perm.append h₂.perm)
  case all =>
    intro hlost
    rcases List.append_eq_nil_iff.mp hlost with ⟨hl₁, hl₂⟩
    rw [h₁.all hl₁, h₂.all hl₂]
  case idle =>
    rw [h₂.idle, hidle, List.length_append]
    omega
  case requests =>
    rw [hreq₂, hreq₁, hidle, List.length_append]
    omega
  case granted =>
    rw [List.append_eq_nil_iff, h₁.granted, h₂.granted]
    constructor
    · rintro ⟨hfirst, hsecond⟩ i hlo hhi
      by_cases hi : i < s₁.heap.requests
      · exact hfirst i hlo hi
      · exact hsecond i (Nat.le_of_not_lt hi) hhi
    · intro hall
      refine ⟨fun i hlo hhi => hall i hlo ?_, fun i hlo hhi => hall i ?_ hhi⟩
      · omega
      · omega

/-- The end of a forest grows by a tree whose cell waits behind the others. -/
theorem Forest.snoc {c : Nat} {u : Tree Ptr} (h : Forest answers s hand bs is ts)
    (hcells : Cells answers s' hand (bs ++ [c]) is₁) (hwaits : Waits s s' hand bs (rootPtr u) c) :
    Forest answers s' hand (bs ++ [c]) is₁ (ts ++ [u]) := by
  refine ⟨hcells, ?_⟩
  have hothers : (hand ++ bs).map (fun c => (s'.heap.qnode c).data) =
      (hand ++ bs).map (fun c => (s.heap.qnode c).data) :=
    List.map_congr_left fun b hb => hwaits.others b hb
  calc (hand ++ (bs ++ [c])).map (fun c => (s'.heap.qnode c).data)
      = (hand ++ bs).map (fun c => (s'.heap.qnode c).data) ++ [(s'.heap.qnode c).data] := by simp
    _ = ts.map (fun t => toVoid (rootPtr t)) ++ [toVoid (rootPtr u)] := by
        rw [hothers, h.data, hwaits.data]
    _ = (ts ++ [u]).map fun t => toVoid (rootPtr t) := by simp

/-- A tree that is not empty is entered. -/
theorem Forest.tree_entered (h : Forest answers s hand bs is ts) (hs : Sound answers)
    (u : Tree Ptr) :
    ∃ st s' bs' is' es lost, smpRnodeEnterQueue answers s (rootPtr u) = (st, s') ∧
      Entered answers s s' is is' [u] es lost ∧ Forest answers s' hand bs' is' (ts ++ es) := by
  cases is with
  | cons c is =>
      rcases h.cells.enterKept hs (rootPtr u) with ⟨st, s', hrun, hsame, hcells, hwaits, hreq⟩
      refine ⟨st, s', bs ++ [c], is, [u], [], hrun, ?_, h.snoc hcells hwaits⟩
      constructor
      case same => exact hsame
      case perm => exact .refl _
      case all => exact fun _ => rfl
      case idle => simp
      case requests => simp [hreq]
      case granted =>
        rw [hreq]
        simp only [true_iff]
        omega
  | nil =>
      cases hanswer : answers s.heap.requests with
      | some c =>
          rcases h.cells.enterNew hs hanswer (rootPtr u) with
            ⟨st, s', hrun, hsame, hcells, hwaits, hreq⟩
          refine ⟨st, s', bs ++ [c], [], [u], [], hrun, ?_, h.snoc hcells hwaits⟩
          constructor
          case same => exact hsame
          case perm => exact .refl _
          case all => exact fun _ => rfl
          case idle => simp
          case requests => simp [hreq]
          case granted =>
            simp only [true_iff]
            intro i hlo hhi
            have hi : i = s.heap.requests := by omega
            simp [hi, hanswer]
      | none =>
          rcases h.cells.enterLost hanswer (rootPtr u) with
            ⟨st, s', hrun, hsame, hcells, hqnode, hreq⟩
          refine ⟨st, s', bs, [], [], [u], hrun, ?_, hcells, ?_⟩
          · constructor
            case same => exact hsame
            case perm => exact .refl _
            case all => simp
            case idle => simp
            case requests => simp [hreq]
            case granted =>
              simp only [List.cons_ne_nil, false_iff]
              intro hall
              exact hall _ (Nat.le_refl _) (by omega) hanswer
          · rw [hqnode, List.append_nil]
            exact h.data

/-- A child is entered, if there is one. -/
theorem Forest.child_entered (h : Forest answers s hand bs is ts) (hs : Sound answers) {d : Side}
    {u : Tree Ptr} (htouch : .free .rnode (toVoid rnode) ∉ s.heap.log)
    (hchild : s.rbt.child d rnode = rootPtr u) (hnode : u ≠ .leaf → rootPtr u ≠ .nil) :
    ∃ s' bs' is' es lost, enterChild answers d s rnode = .ok s' ∧
      Entered answers s s' is is' u.kids es lost ∧ Forest answers s' hand bs' is' (ts ++ es) := by
  cases u with
  | leaf =>
      have hrun : enterChild answers d s rnode = .ok s := by
        simp [enterChild, touchNode, htouch, hchild]
      exact ⟨s, bs, is, [], [], hrun, .nil answers s is, by rwa [List.append_nil]⟩
  | node c l x r =>
      have hne : rootPtr (.node c l x r) ≠ .nil := hnode (by simp)
      rcases h.tree_entered hs (.node c l x r) with
        ⟨st, s', bs', is', es, lost, henter, hentered, hforest⟩
      have hrun : enterChild answers d s rnode = .ok s' := by
        simp only [enterChild, touchNode, if_neg htouch, Exec.ok_bind, if_pos hne, hchild,
          henter, Exec.pure_eq]
      exact ⟨s', bs', is', es, lost, hrun, hentered, hforest⟩

/-- Both children of a node are entered. -/
theorem Forest.children_entered (h : Forest answers s hand bs is ts) (hs : Sound answers)
    {c : Color} {l r : Tree Ptr} {x : Ptr} (htouch : .free .rnode (toVoid x) ∉ s.heap.log)
    {par : Ptr} (hlinked : RbTree.Linked s.rbt par (.node c l x r)) :
    ∃ s₁ s₂ bs' is' es lost, enterChild answers .left s x = .ok s₁ ∧
      enterChild answers .right s₁ x = .ok s₂ ∧
      Entered answers s s₂ is is' (Tree.node c l x r).children es lost ∧
      Forest answers s₂ hand bs' is' (ts ++ es) := by
  rcases hlinked with ⟨-, -, -, hl, hr, hll, hlr⟩
  have hnode : ∀ u : Tree Ptr, RbTree.Linked s.rbt x u → u ≠ .leaf → rootPtr u ≠ .nil := by
    intro u hu hne
    cases u with
    | leaf => exact absurd rfl hne
    | node c l y r => exact hu.1.ne_nil
  rcases h.child_entered hs htouch hl (hnode l hll) with
    ⟨s₁, bs₁, is₁, es₁, lost₁, hrun₁, hentered₁, hforest₁⟩
  have htouch₁ : .free .rnode (toVoid x) ∉ s₁.heap.log := hentered₁.same.log ▸ htouch
  have hr₁ : s₁.rbt.child .right x = rootPtr r := hentered₁.same.rbt ▸ hr
  rcases hforest₁.child_entered hs htouch₁ hr₁ (hnode r hlr) with
    ⟨s₂, bs₂, is₂, es₂, lost₂, hrun₂, hentered₂, hforest₂⟩
  refine ⟨s₁, s₂, bs₂, is₂, es₁ ++ es₂, lost₁ ++ lost₂, hrun₁, hrun₂,
    hentered₁.append hentered₂, ?_⟩
  rwa [← List.append_assoc]

end Teardown
end Smpcil
