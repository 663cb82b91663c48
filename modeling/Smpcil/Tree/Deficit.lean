import Smpcil.Tree.Correctness
import Smpcil.Foundations.RedBlackPaths

/-!
# The repair of a tree with a deficit

`smp_delete_fixup` on every tree that is red-black but for one position, through which
every path has one black node too few.  The position is the hole of a context; what fills
it is a node or, with its parent field set, the sentinel.

Main results:

- Definition {lit}`HoldsTree`: the conditions of a red-black tree but for its paths.
- Theorem {lit}`smpDeleteFixup_repairs`: the repair terminates, always finds a sibling, and
  leaves a red-black tree of the same nodes and keys in the same order.
-/

namespace Smpcil
namespace RbTree

open RedBlack KeyOrder

variable {keyCmp : VoidPtr → VoidPtr → Int} {s s' : Rbt} {k : List (Frame Ptr)} {t : Tree Ptr}
  {n fuel : Nat}

/-- The struct holds the tree {lit}`t` of distinct nodes, linked to their children and
parents and sorted by key; the sentinel and the root are black, and no red node has a red
child. -/
structure HoldsTree (keyCmp : VoidPtr → VoidPtr → Int) (s : Rbt) (t : Tree Ptr) : Prop where
  root : s.root = rootPtr t
  linked : Linked s .nil t
  nodup : t.toList.Nodup
  nilBlack : s.color .nil = .black
  rootBlack : t.rootColor = .black
  noRedRed : t.NoRedRed
  sorted : Sorted keyCmp (keysOf s t)

/-- With an empty record of events such a struct represents its tree. -/
theorem HoldsTree.rep (h : HoldsTree keyCmp s t) : Rep { s with trace := [] } t where
  root := h.root
  linked := Linked.congr (s := s) (fun _ _ => ⟨rfl, rfl, fun _ => rfl⟩) h.linked
  nodup := h.nodup
  nilBlack := h.nilBlack
  traceOk := by simp

/-- A balanced tree that is represented and sorted is held. -/
theorem Rep.holdsTree (h : Rep s t) (hbal : Balanced t .black n)
    (hsorted : Sorted keyCmp (keysOf s t)) : HoldsTree keyCmp s t where
  root := h.root
  linked := h.linked
  nodup := h.nodup
  nilBlack := h.nilBlack
  rootBlack := hbal.rootColor_eq
  noRedRed := hbal.noRedRed
  sorted := hsorted

/-- On every tree in which the paths through one position, and only these, have one black
node too few, the repair terminates; from an empty record of events it records only
siblings that are nodes and no red sentinel, and it leaves a red-black tree of the same
nodes with the same keys in the same order. -/
theorem smpDeleteFixup_repairs (h : HoldsTree keyCmp s (plug k t))
    (hnil : t = .leaf → s.parent .nil = holeParent k)
    (hshort : Tree.ShortThrough (address k) (plug k t) n) (hfuel : k.length < fuel) :
    ∃ s' t' m, smpDeleteFixup fuel { s with trace := [] } (rootPtr t) = .ok s' ∧
      (∀ p, Event.sibling p ∈ s'.trace → p.IsNode) ∧
      (∀ c, Event.paint .nil c ∈ s'.trace → c = .black) ∧
      t'.toList = (plug k t).toList ∧ (∀ p, s'.key p = s.key p) ∧
      HoldsTree keyCmp s' t' ∧ t'.EvenPaths m := by
  rcases short_of_paths h.rootBlack h.noRedRed hshort with ⟨j, hfocus, hhole⟩
  rcases smpDeleteFixup_spec h.rep hnil hfocus hhole hfuel with
    ⟨s', t', m, hrun, hdata, hrep, horder, hbal⟩
  have hkeys : ∀ p, s'.key p = s.key p := hdata.key
  have hsorted : Sorted keyCmp (keysOf s' t') := by
    have hsame : keysOf s' t' = keysOf s (plug k t) := by
      rw [keysOf, keysOf, horder]
      exact List.map_congr_left fun p _ => hkeys p
    rw [hsame]
    exact h.sorted
  refine ⟨s', t', m, hrun, ?_, ?_, horder, hkeys, hrep.holdsTree hbal hsorted, hbal.evenPaths⟩
  · intro p hp
    exact hrep.traceOk _ hp
  · intro c hc
    exact hrep.traceOk _ hc rfl

/-! ## A sample -/

/-- A black root with a black right child; the sentinel stands for the left child. -/
def sampleShort : Rbt where
  mem
    | .node 2 => ⟨.nil, .nil, .node 3, 2, NULL, .black⟩
    | .node 3 => ⟨.node 2, .nil, .nil, 3, NULL, .black⟩
    | _ => ⟨.node 2, .nil, .nil, NULL, NULL, .black⟩
  root := .node 2
  size := 2
  trace := []

/-- The place of the left child of the sample's root. -/
def sampleHole : List (Frame Ptr) :=
  [⟨.left, .black, .node 2, .node .black .leaf (.node 3) .leaf⟩]

theorem holdsTree_sampleShort : HoldsTree keyDiff sampleShort (plug sampleHole .leaf) where
  root := rfl
  linked := by
    refine ⟨⟨2, rfl⟩, rfl, rfl, rfl, rfl, trivial, ⟨3, rfl⟩, rfl, rfl, rfl, rfl, trivial, trivial⟩
  nodup := by decide
  nilBlack := rfl
  rootBlack := rfl
  noRedRed := by
    refine ⟨fun hred => ?_, trivial, fun hred => ?_, trivial, trivial⟩
    · cases hred
    · cases hred
  sorted := by
    simp [sampleHole, plug, Frame.fill, Tree.join, keysOf, Tree.toList, Sorted, sampleShort,
      Rbt.key, keyDiff]

/-- Through the left child of the sample's root leads one black node less. -/
theorem shortThrough_sampleHole :
    Tree.ShortThrough (address sampleHole) (plug sampleHole .leaf) 2 := by
  intro p m hp
  cases hp with
  | left hq =>
      cases hq
      rfl
  | right hq =>
      cases hq with
      | left hr =>
          cases hr
          rfl
      | right hr =>
          cases hr
          rfl

/-- The repair of the sample. -/
theorem smpDeleteFixup_repairs_sampleShort :
    ∃ s' t' m, smpDeleteFixup 2 sampleShort .nil = .ok s' ∧
      t'.toList = [.node 2, .node 3] ∧ HoldsTree keyDiff s' t' ∧ t'.EvenPaths m := by
  rcases @smpDeleteFixup_repairs keyDiff sampleShort sampleHole .leaf 2 2 holdsTree_sampleShort
    (fun _ => rfl) shortThrough_sampleHole (by decide) with
    ⟨s', t', m, hrun, -, -, horder, -, hholds, hpaths⟩
  exact ⟨s', t', m, hrun, horder, hholds, hpaths⟩

end RbTree
end Smpcil
