import Smpcil.Tree.Runs

/-!
# The tree is a stable sorted list of keys

The guarantees of `smp_rbt.c` over all runs: the shape of the tree, its refinement of a
sorted list of keys, and what a removal leaves alone.

Main results:

- Theorem {lit}`reachable_redBlack`: every reachable state is a sorted red-black tree,
  every operation terminates, and a removed node is no longer linked.
- Theorem {lit}`reachable_refines_sortedList`: the operations act on the inorder keys as
  on a stable sorted list.
- Theorem {lit}`smpRnodeRemove_frame`: which nodes and keys a removal leaves in place.
-/

namespace Smpcil
namespace RbTree

open RedBlack KeyOrder

variable {keyCmp : VoidPtr → VoidPtr → Int} {s : Rbt} {t : Tree Ptr} {fuel : Nat}

/-! ## Sample runs -/

/-- Keys compared by their difference, as the tests of the library compare integers. -/
def keyDiff (a b : VoidPtr) : Int := a - b

theorem totalPreorder_keyDiff : TotalPreorder keyDiff := by
  constructor
  · intro a b
    unfold keyDiff
    omega
  · intro a b c
    unfold keyDiff
    omega

/-- The state after an operation. -/
def Op.after (keyCmp : VoidPtr → VoidPtr → Int) (fuel : Nat) (s : Rbt) (op : Op) : Rbt :=
  match op.run keyCmp fuel s with
  | .ok (_, s') => s'
  | .error _ => s

theorem Reachable.after (hcmp : TotalPreorder keyCmp) (h : Reachable keyCmp s) {op : Op}
    (hop : op.Allowed s) (hfuel : s.size < fuel) :
    Reachable keyCmp (op.after keyCmp fuel s) := by
  rcases h.valid hcmp with ⟨t, hvalid⟩
  rcases valid_step hcmp hvalid hop hfuel with ⟨r, s', t', hrun, -⟩
  have hafter : op.after keyCmp fuel s = s' := by simp [Op.after, hrun]
  rw [hafter]
  exact h.step op fuel hop hrun

/-- A node whose key the inorder visit does not show is not in the tree. -/
theorem Reachable.not_inTree (hcmp : TotalPreorder keyCmp) (h : Reachable keyCmp s) {p : Ptr}
    {keys : List VoidPtr} (hkeys : smpRbtInorder (s.size + 1) s = .ok keys)
    (hp : s.key p ∉ keys) : ¬ InTree s p := by
  rcases h.valid hcmp with ⟨t, hvalid⟩
  have hsize := hvalid.size_tree
  rw [smpRbtInorder_spec hvalid.rep (show t.size < s.size + 1 by omega),
    Except.ok.injEq] at hkeys
  subst hkeys
  intro hmem
  exact hp (List.mem_map_of_mem (hvalid.rep.inTree_iff.mp hmem))

/-- An empty tree, over memory whose nodes hold the key {lit}`0`. -/
def sampleEmpty : Rbt := smpRbtCreate fun _ => smpRnodeCreate 0

/-- The tree after the insertion of a node with the given key, which is its address too. -/
def sampleInsert (s : Rbt) (key : Nat) : Rbt :=
  Op.after keyDiff 4 s (.insert key (smpRnodeCreate key))

/-- A root with two children, of the keys 1, 2 and 3. -/
def sampleThree : Rbt := sampleInsert (sampleInsert (sampleInsert sampleEmpty 2) 1) 3

theorem Reachable.sampleInsert (h : Reachable keyDiff s) (key : Nat) (keys : List VoidPtr)
    (hkeys : smpRbtInorder (s.size + 1) s = .ok keys) (hkey : s.key (.node key) ∉ keys)
    (hsize : s.size < 4) : Reachable keyDiff (sampleInsert s key) :=
  h.after totalPreorder_keyDiff (h.not_inTree totalPreorder_keyDiff hkeys hkey) hsize

theorem reachable_sampleThree : Reachable keyDiff sampleThree := by
  have h₀ : Reachable keyDiff sampleEmpty := .create _
  have h₁ := h₀.sampleInsert 2 [] (by decide) (by decide) (by decide)
  have h₂ := h₁.sampleInsert 1 [2] (by decide) (by decide) (by decide)
  exact h₂.sampleInsert 3 [1, 2] (by decide) (by decide) (by decide)

/-! ## The shape of the tree -/

/-- In every reachable state the nodes reachable from the root are a finite binary tree
of distinct nodes with correct parent fields, coloured as a red-black tree and sorted by
key.  No rotation of the run so far had the sentinel for its pivot child, and every operation
terminates.  An insertion puts its node into the tree; a removal takes one node out of it,
hands that node back, and leaves it linked from no node of the tree. -/
theorem reachable_redBlack (hcmp : TotalPreorder keyCmp) (h : Reachable keyCmp s) :
    (∃ t n, Rep s t ∧ (∀ p, InTree s p ↔ p ∈ t.toList) ∧ s.parent s.root = .nil ∧
        s.color .nil = .black ∧ s.color s.root = .black ∧ Balanced t .black n ∧
        Sorted keyCmp (keysOf s t) ∧ smpRbtSize s = t.toList.length) ∧
      (∀ p, Event.rotate p ∈ s.trace → p ≠ .nil) ∧
      (∀ (op : Op) fuel, op.Allowed s → s.size < fuel →
        ∃ r s', op.run keyCmp fuel s = .ok (r, s')) ∧
      ∀ (op : Op) fuel r s', op.Allowed s → op.run keyCmp fuel s = .ok (r, s') →
        op.Moves keyCmp s s' r := by
  rcases h.valid hcmp with ⟨t, hvalid⟩
  rcases hvalid.balanced with ⟨n, hbal⟩
  refine ⟨⟨t, n, hvalid.rep, fun p => hvalid.rep.inTree_iff, hvalid.rootParent,
    hvalid.rep.nilBlack, hvalid.rootBlack, hbal, hvalid.sorted, hvalid.size⟩, ?_, ?_, ?_⟩
  · intro p hp
    exact hvalid.rep.traceOk _ hp
  · intro op fuel hop hfuel
    rcases valid_step hcmp hvalid hop hfuel with ⟨r, s', t', hrun, -⟩
    exact ⟨r, s', hrun⟩
  · intro op fuel r s' hop hrun
    rcases valid_step hcmp hvalid hop (Nat.lt_succ_self s.size) with
      ⟨r', s'', t', hrun', -, hmoves⟩
    have heq := Op.run_unique hrun hrun'
    simp only [Prod.mk.injEq] at heq
    rcases heq with ⟨rfl, rfl⟩
    exact hmoves

/-- The root of the sample tree. -/
theorem inTree_sampleThree : InTree sampleThree (.node 2) :=
  ⟨⟨2, rfl⟩, (show sampleThree.root = .node 2 by decide) ▸ Relation.ReflTransGen.refl⟩

/-- The guarantees at the root with two children, whose removal hands back the next node. -/
theorem reachable_redBlack_sampleThree :
    (∃ t n, Rep sampleThree t ∧ Balanced t .black n ∧
      smpRbtSize sampleThree = t.toList.length) ∧
    TakenOut sampleThree ((Op.remove 2).after keyDiff 4 sampleThree) (.node 3) := by
  have hredBlack := reachable_redBlack totalPreorder_keyDiff reachable_sampleThree
  have hrun : (Op.remove 2).run keyDiff 4 sampleThree =
      .ok (.node (.node 3), (Op.remove 2).after keyDiff 4 sampleThree) := rfl
  rcases hredBlack with ⟨⟨t, n, hrep, -, -, -, -, hbal, -, hsize⟩, -, -, hmoves⟩
  rcases hmoves (.remove 2) 4 _ _ inTree_sampleThree hrun with ⟨out, heq, htaken⟩
  cases heq
  exact ⟨⟨t, n, hrep, hbal, hsize⟩, htaken⟩

/-! ## Refinement of a sorted list -/

/-- The operations on the tree {lit}`t` of {lit}`s` act on its inorder keys as on a stable
sorted list. -/
structure RefinesSortedList (keyCmp : VoidPtr → VoidPtr → Int) (s : Rbt) (t : Tree Ptr) :
    Prop where
  rep : Rep s t
  unique : ∀ u, Rep s u → u = t
  sorted : Sorted keyCmp (keysOf s t)
  insert : ∀ nd cell fuel, ¬ InTree s (.node nd) → s.size < fuel →
    ∃ s' t', Op.run keyCmp fuel s (.insert nd cell) = .ok (.status .ok, s') ∧ Rep s' t' ∧
      keysOf s' t' = insertStable keyCmp cell.key (keysOf s t) ∧
      ∃ l₁ l₂, keysOf s t = l₁ ++ l₂ ∧ keysOf s' t' = l₁ ++ cell.key :: l₂ ∧
        (∀ a ∈ l₁, keyCmp a cell.key ≤ 0) ∧ ∀ b ∈ l₂, 0 < keyCmp b cell.key
  remove : ∀ nd fuel, InTree s (.node nd) → s.size < fuel →
    ∃ out s' t', Op.run keyCmp fuel s (.remove nd) = .ok (.node out, s') ∧ Rep s' t' ∧
      TakenOut s s' out ∧
      keysOf s' t' = (keysOf s t).eraseIdx (t.toList.idxOf (.node nd)) ∧
      s'.key out = s.key (.node nd)
  findRemove : ∀ key fuel, s.size < fuel →
    (Op.run keyCmp fuel s (.findRemove key) = .ok (.node .null, s) ∧
        (key = NULL ∨ ∀ a ∈ keysOf s t, keyCmp a key ≠ 0)) ∨
      ∃ nd out s' t', Op.run keyCmp fuel s (.findRemove key) = .ok (.node out, s') ∧
        key ≠ NULL ∧ nd ∈ t.toList ∧ keyCmp (s.key nd) key = 0 ∧ Rep s' t' ∧
        TakenOut s s' out ∧
        keysOf s' t' = (keysOf s t).eraseIdx (t.toList.idxOf nd) ∧ s'.key out = s.key nd
  find : ∀ key fuel, s.size < fuel → ∃ p, smpRnodeFind keyCmp fuel s key = .ok p ∧
    (p ≠ .null ↔ ∃ a ∈ keysOf s t, keyCmp a key = 0) ∧
    (p ≠ .null → p ∈ t.toList ∧ keyCmp (s.key p) key = 0)
  min : ∀ fuel, s.size < fuel → ∃ p, smpRnodeMin fuel s = .ok p ∧
    (p = .null ↔ keysOf s t = []) ∧
    (p ≠ .null → t.toList.head? = some p ∧ (keysOf s t).head? = some (s.key p))
  max : ∀ fuel, s.size < fuel → ∃ p, smpRnodeMax fuel s = .ok p ∧
    (p = .null ↔ keysOf s t = []) ∧
    (p ≠ .null → t.toList.getLast? = some p ∧ (keysOf s t).getLast? = some (s.key p))
  inorder : ∀ fuel, s.size < fuel → smpRbtInorder fuel s = .ok (keysOf s t)

/-- The search of a valid tree. -/
theorem Valid.find (hcmp : TotalPreorder keyCmp) (h : Valid keyCmp s t) (key : VoidPtr)
    (hfuel : s.size < fuel) : ∃ p, smpRnodeFind keyCmp fuel s key = .ok p ∧
      (p ≠ .null ↔ ∃ a ∈ keysOf s t, keyCmp a key = 0) ∧
      (p ≠ .null → p ∈ t.toList ∧ keyCmp (s.key p) key = 0) := by
  have hsize := h.size_tree
  rcases smpRnodeFind_spec key hcmp h.rep h.sorted (show t.size < fuel by omega) with
    ⟨p, hrun, ⟨rfl, hnone⟩ | ⟨hp, heq⟩⟩
  · refine ⟨.null, hrun, ⟨fun hne => absurd rfl hne, ?_⟩, fun hne => absurd rfl hne⟩
    rintro ⟨a, ha, heq⟩
    rcases List.mem_map.mp ha with ⟨q, hq, rfl⟩
    exact absurd heq (hnone q hq)
  · exact ⟨p, hrun, ⟨fun _ => ⟨s.key p, List.mem_map_of_mem hp, heq⟩,
      fun _ => (h.rep.isNode hp).ne_null⟩, fun _ => ⟨hp, heq⟩⟩

/-- What {lit}`smpRnodeMin` and {lit}`smpRnodeMax` find, in terms of the keys: {lit}`e` is the
end of a list. -/
theorem Valid.ends (h : Valid keyCmp s t) {e : ∀ {α : Type}, List α → Option α} {p : Ptr}
    (hmap : e (t.toList.map s.key) = (e t.toList).map s.key)
    (hmem : ∀ {q}, e t.toList = some q → q ∈ t.toList)
    (hp : (t.toList = [] ∧ p = .null) ∨ e t.toList = some p) :
    (p = .null ↔ keysOf s t = []) ∧
      (p ≠ .null → e t.toList = some p ∧ e (keysOf s t) = some (s.key p)) := by
  rcases hp with ⟨hempty, rfl⟩ | hp
  · refine ⟨⟨fun _ => by simp [keysOf, hempty], fun _ => rfl⟩, fun hne => absurd rfl hne⟩
  · have hnode := h.rep.isNode (hmem hp)
    refine ⟨⟨fun hnull => absurd hnull hnode.ne_null, fun hempty => ?_⟩, fun _ => ⟨hp, ?_⟩⟩
    · have hin := hmem hp
      rw [List.map_eq_nil_iff.mp hempty] at hin
      simp at hin
    · rw [keysOf, hmap, hp]
      rfl

/-- The tree refines a stable sorted list of keys: in every reachable state its inorder
keys are sorted, an insertion puts the new key behind all keys of its rank, a removal
erases the key at the position of its node and hands back a node that holds it, and the
read-only operations agree with the list. -/
theorem reachable_refines_sortedList (hcmp : TotalPreorder keyCmp) (h : Reachable keyCmp s) :
    ∃ t, RefinesSortedList keyCmp s t := by
  rcases h.valid hcmp with ⟨t, hvalid⟩
  have hsize := hvalid.size_tree
  refine ⟨t, ?_⟩
  constructor
  case rep => exact hvalid.rep
  case unique => exact fun u hu => hvalid.rep.unique hu
  case sorted => exact hvalid.sorted
  case insert =>
    intro nd cell fuel hout hfuel
    have hnot : Ptr.node nd ∉ t.toList := fun hmem => hout (hvalid.rep.inTree_iff.mpr hmem)
    rcases valid_insert hcmp hvalid cell hnot hfuel with
      ⟨s', t', hrun, hvalid', -, -, l₁, l₂, hkeys, hkeys', hle, hlt⟩
    refine ⟨s', t', hrun, hvalid'.rep, ?_, l₁, l₂, hkeys, hkeys', hle, hlt⟩
    rw [hkeys, hkeys', insertStable_append hle hlt]
  case remove =>
    intro nd fuel hin hfuel
    rcases valid_remove hvalid (hvalid.rep.inTree_iff.mp hin) hfuel with
      ⟨out, s', t', hrun, hrem, hvalid'⟩
    exact ⟨out, s', t', hrun, hvalid'.rep, hrem.takenOut hvalid,
      hrem.eraseKey hvalid.rep.nodup, hrem.keyOut⟩
  case findRemove =>
    intro key fuel hfuel
    rcases valid_findRemove hcmp hvalid key hfuel with
      ⟨hrun, hnone⟩ | ⟨nd, out, s', t', hrun, hkey, hnd, heq, hrem, hvalid'⟩
    · refine Or.inl ⟨hrun, hnone.imp id fun hnone a ha => ?_⟩
      rcases List.mem_map.mp ha with ⟨q, hq, rfl⟩
      exact hnone q hq
    · exact Or.inr ⟨nd, out, s', t', hrun, hkey, hnd, heq, hvalid'.rep, hrem.takenOut hvalid,
        hrem.eraseKey hvalid.rep.nodup, hrem.keyOut⟩
  case find => exact fun key fuel hfuel => hvalid.find hcmp key hfuel
  case min =>
    intro fuel hfuel
    rcases smpRnodeMin_spec hvalid.rep (show t.size < fuel by omega) with ⟨p, hrun, hp⟩
    exact ⟨p, hrun, hvalid.ends (e := List.head?) List.head?_map List.mem_of_head? hp⟩
  case max =>
    intro fuel hfuel
    rcases smpRnodeMax_spec hvalid.rep (show t.size < fuel by omega) with ⟨p, hrun, hp⟩
    exact ⟨p, hrun, hvalid.ends (e := List.getLast?) List.getLast?_map List.mem_of_getLast? hp⟩
  case inorder =>
    intro fuel hfuel
    exact smpRbtInorder_spec hvalid.rep (by omega)

/-- The refinement at the root with two children. -/
theorem reachable_refines_sortedList_sampleThree :
    ∃ t, RefinesSortedList keyDiff sampleThree t :=
  reachable_refines_sortedList totalPreorder_keyDiff reachable_sampleThree

/-! ## What a removal leaves alone -/

/-- A removal leaves every other node but the one it hands back in the tree, with its key
and its carrier, and hands back a node that holds the key of the node asked for.  With a
missing child that is the node itself.  With two children it is the next node in order;
the node asked for then stays in the tree and takes over the key of that next node. -/
theorem smpRnodeRemove_frame (hcmp : TotalPreorder keyCmp) (h : Reachable keyCmp s) {nd : Nat}
    (hnd : InTree s (.node nd)) (hfuel : s.size < fuel) :
    ∃ out s', smpRnodeRemove fuel s (.node nd) = .ok (out, s') ∧
      s'.key out = s.key (.node nd) ∧
      (∀ x, InTree s x → x ≠ .node nd → x ≠ out →
        InTree s' x ∧ s'.key x = s.key x ∧ s'.carrier x = s.carrier x) ∧
      (s.child .left (.node nd) = .nil ∨ s.child .right (.node nd) = .nil →
        out = .node nd ∧ s'.carrier out = s.carrier (.node nd)) ∧
      (s.child .left (.node nd) ≠ .nil → s.child .right (.node nd) ≠ .nil →
        out ≠ .node nd ∧ InTree s' (.node nd) ∧ s'.key (.node nd) = s.key out ∧
        ∃ t l₁ l₂, Rep s t ∧ t.toList = l₁ ++ .node nd :: out :: l₂) := by
  rcases h.valid hcmp with ⟨t, hvalid⟩
  rcases hvalid.balanced with ⟨n, hbal⟩
  have hsize := hvalid.size_tree
  rcases smpRnodeRemove_spec hvalid.rep hbal (hvalid.rep.inTree_iff.mp hnd)
    (show t.size < fuel by omega) with ⟨out, s', t', hrun, hrem⟩
  refine ⟨out, s', hrun, hrem.keyOut, ?_, ?_, ?_⟩
  · intro x hx hxnd hxout
    exact ⟨((hrem.takenOut hvalid).others x).mpr ⟨hx, hxout⟩, hrem.key x hxnd hxout,
      hrem.carrier x⟩
  · intro hchild
    have hout := hrem.which.mpr hchild
    exact ⟨hout, by rw [hrem.carrier, hout]⟩
  · intro hleft hright
    have hout : out ≠ .node nd := fun heq => (hrem.which.mp heq).elim hleft hright
    refine ⟨hout, ?_, hrem.keyNd hout, ?_⟩
    · rcases hrem.place with ⟨l₁, l₂, -, ⟨heq, -⟩ | ⟨l₃, -, ht'⟩⟩
      · exact absurd heq hout
      · exact hrem.rep.inTree_iff.mpr (by simp [ht'])
    · rcases hrem.place with ⟨l₁, l₂, ht, ⟨heq, -⟩ | ⟨l₃, rfl, -⟩⟩
      · exact absurd heq hout
      · exact ⟨t, l₁, l₃, hvalid.rep, ht⟩

/-- A removal changes no carrier: where the node asked for takes over the key of the next node,
each of the two keeps its own. -/
theorem smpRnodeRemove_carrier (hcmp : TotalPreorder keyCmp) (h : Reachable keyCmp s) {nd : Nat}
    (hnd : InTree s (.node nd)) {out : Ptr} {s' : Rbt}
    (hrun : smpRnodeRemove fuel s (.node nd) = .ok (out, s')) (q : Ptr) :
    s'.carrier q = s.carrier q := by
  rcases h.valid hcmp with ⟨t, hvalid⟩
  rcases hvalid.balanced with ⟨n, hbal⟩
  rcases smpRnodeRemove_spec hvalid.rep hbal (hvalid.rep.inTree_iff.mp hnd)
    (Nat.lt_succ_self t.size) with ⟨out', s'', t', hrun', hrem⟩
  have hmore := smpRnodeRemove_mono (Nat.le_max_left fuel (t.size + 1)) hrun
  have hmore' := smpRnodeRemove_mono (Nat.le_max_right fuel (t.size + 1)) hrun'
  rw [hmore, Except.ok.injEq, Prod.mk.injEq] at hmore'
  rw [hmore'.2]
  exact hrem.carrier q

/-- The node of the largest key of the sample tree. -/
theorem inTree_sampleThree_right : InTree sampleThree (.node 3) := by
  refine ⟨⟨3, rfl⟩, ?_⟩
  have hroot : sampleThree.root = .node 2 := by decide
  have hright : sampleThree.child .right (.node 2) = .node 3 := by decide
  have hstep := ChildOf.mk (s := sampleThree) .right (p := .node 2) ⟨2, rfl⟩
  rw [hright] at hstep
  rw [hroot]
  exact Relation.ReflTransGen.single hstep

/-- What the removal of the root of the sample tree leaves alone. -/
theorem smpRnodeRemove_frame_sampleThree :
    ∃ out s', smpRnodeRemove 4 sampleThree (.node 2) = .ok (out, s') ∧ s'.key out = 2 := by
  rcases smpRnodeRemove_frame totalPreorder_keyDiff reachable_sampleThree inTree_sampleThree
    (show sampleThree.size < 4 by decide) with ⟨out, s', hrun, hkey, -⟩
  exact ⟨out, s', hrun, hkey.trans (by decide)⟩

/-- Removing the root of the sample tree takes the node of its successor out of the tree
and changes the key of that node. -/
theorem smpRnodeRemove_moves_key :
    ¬ ∀ (keyCmp : VoidPtr → VoidPtr → Int) (s : Rbt), TotalPreorder keyCmp →
      Reachable keyCmp s → ∀ nd x fuel out s', InTree s (.node nd) → InTree s x →
      x ≠ .node nd → smpRnodeRemove fuel s (.node nd) = .ok (out, s') →
      (InTree s' x ∧ s'.key x = s.key x ∧ s'.carrier x = s.carrier x) ∧
        s'.key out = s.key (.node nd) ∧ s'.carrier out = s.carrier (.node nd) := by
  intro h
  have hrun : smpRnodeRemove 4 sampleThree (.node 2) =
      .ok (.node 3, (Op.remove 2).after keyDiff 4 sampleThree) := rfl
  have hkey := (h keyDiff sampleThree totalPreorder_keyDiff reachable_sampleThree 2 (.node 3) 4
    (.node 3) _ inTree_sampleThree inTree_sampleThree_right (by decide) hrun).1.2.1
  exact absurd hkey (by decide)

end RbTree
end Smpcil
