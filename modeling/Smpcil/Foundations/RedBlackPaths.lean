import Smpcil.Foundations.RedBlackTree
import Mathlib.Data.List.Induction

/-!
# The paths of a red-black tree

The textbook conditions on the paths from the root to the leaves, for a whole tree and for
a tree in which every path through one position has one black node too few.

Main results:

- Definitions {lit}`Tree.Path` and {lit}`Tree.NoRedRed`: the conditions of the textbook.
- Theorem {lit}`balanced_of_paths`: they are those of {lit}`Balanced`.
- Theorem {lit}`short_of_paths`: where the paths through a position are short, its subtree
  is short and the context around it expects one more black node.
-/

namespace RedBlack

variable {α : Type}

/-- The black nodes that a node of this colour counts for. -/
def Color.blacks : Color → Nat
  | .red => 0
  | .black => 1

namespace Tree

/-- {lit}`t.Path p n`: the sides {lit}`p` lead from the root to a leaf, past {lit}`n` black
nodes. -/
inductive Path : Tree α → List Side → Nat → Prop where
  | leaf : Path .leaf [] 0
  | left {c : Color} {l r : Tree α} {x : α} {p : List Side} {n : Nat} :
      Path l p n → Path (.node c l x r) (.left :: p) (n + c.blacks)
  | right {c : Color} {l r : Tree α} {x : α} {p : List Side} {n : Nat} :
      Path r p n → Path (.node c l x r) (.right :: p) (n + c.blacks)

/-- No red node has a red child. -/
def NoRedRed : Tree α → Prop
  | .leaf => True
  | .node c l _ r =>
      (c = .red → l.rootColor = .black ∧ r.rootColor = .black) ∧ l.NoRedRed ∧ r.NoRedRed

/-- Every path has {lit}`n` black nodes. -/
def EvenPaths (t : Tree α) (n : Nat) : Prop := ∀ p m, t.Path p m → m = n

/-- Every path has {lit}`n` black nodes, but those through the position {lit}`pos` have one
less. -/
def ShortThrough (pos : List Side) (t : Tree α) (n : Nat) : Prop :=
  ∀ p m, t.Path p m → (if pos <+: p then m + 1 else m) = n

variable {d : Side} {c : Color} {t near far : Tree α} {x : α} {p : List Side} {m n : Nat}

theorem Path.joinNear (h : near.Path p n) : (join d c near x far).Path (d :: p) (n + c.blacks) := by
  cases d with
  | left => exact .left h
  | right => exact .right h

theorem Path.joinFar (h : far.Path p n) :
    (join d c near x far).Path (d.flip :: p) (n + c.blacks) := by
  cases d with
  | left => exact .right h
  | right => exact .left h

/-- Every tree has a path. -/
theorem exists_path (t : Tree α) : ∃ p n, t.Path p n := by
  induction t with
  | leaf => exact ⟨[], 0, .leaf⟩
  | node c l x r ihl _ =>
      rcases ihl with ⟨p, n, h⟩
      exact ⟨_, _, .left h⟩

theorem noRedRed_join : (join d c near x far).NoRedRed ↔
    (c = .red → near.rootColor = .black ∧ far.rootColor = .black) ∧
      near.NoRedRed ∧ far.NoRedRed := by
  cases d with
  | left => exact Iff.rfl
  | right =>
      simp only [join, NoRedRed]
      tauto

end Tree

open RedBlack.Tree

variable {t : Tree α} {c : Color} {n : Nat}

/-- The conditions of the textbook make a tree balanced. -/
theorem balanced_of_paths (hcol : t.NoRedRed) (hpaths : t.EvenPaths n) :
    Balanced t t.rootColor n := by
  induction t generalizing n with
  | leaf =>
      rw [← hpaths [] 0 .leaf]
      exact .leaf
  | node c l x r ihl ihr =>
      rcases hcol with ⟨hred, hl, hr⟩
      rcases exists_path l with ⟨p, m, hp⟩
      have hm := hpaths _ _ (.left hp)
      have hleft : l.EvenPaths m := by
        intro q k hq
        have hk := hpaths _ _ (.left hq)
        omega
      have hright : r.EvenPaths m := by
        intro q k hq
        have hk := hpaths _ _ (.right hq)
        omega
      subst hm
      cases c with
      | red =>
          have hlb := ihl hl hleft
          have hrb := ihr hr hright
          rw [(hred rfl).1] at hlb
          rw [(hred rfl).2] at hrb
          exact .red hlb hrb
      | black => exact .black (ihl hl hleft) (ihr hr hright)

theorem Balanced.noRedRed (h : Balanced t c n) : t.NoRedRed := by
  induction h with
  | leaf => trivial
  | red hl hr ihl ihr => exact ⟨fun _ => ⟨hl.rootColor_eq, hr.rootColor_eq⟩, ihl, ihr⟩
  | black _ _ ihl ihr =>
      refine ⟨fun hred => ?_, ihl, ihr⟩
      cases hred

theorem Balanced.evenPaths (h : Balanced t c n) : t.EvenPaths n := by
  induction h with
  | leaf =>
      intro p m hp
      cases hp
      rfl
  | red _ _ ihl ihr =>
      intro p m hp
      cases hp with
      | left hq => exact ihl _ _ hq
      | right hq => exact ihr _ _ hq
  | black _ _ ihl ihr =>
      intro p m hp
      cases hp with
      | left hq => rw [ihl _ _ hq, Color.blacks]
      | right hq => rw [ihr _ _ hq, Color.blacks]

/-- The sides that lead from the root to the hole of a context. -/
def address (k : List (Frame α)) : List Side := (k.map Frame.side).reverse

/-- Where the paths through a position are short, an outer hole that fits the whole tree
leaves an inner one that expects one more black node than the subtree has. -/
theorem hole_of_paths {k outer : List (Frame α)} (hcol : (plug k t).NoRedRed)
    (hpaths : ShortThrough (address k) (plug k t) n) (houter : Hole outer (plug k t).rootColor n) :
    ∃ j, Balanced t t.rootColor j ∧ Hole (k ++ outer) t.rootColor (j + 1) := by
  -- from the outermost frame inwards
  induction k using List.reverseRecOn generalizing outer n with
  | nil =>
      rcases exists_path t with ⟨p, m, hp⟩
      have hm := hpaths _ _ hp
      simp only [address, List.map_nil, List.reverse_nil, List.nil_prefix, if_true] at hm
      refine ⟨m, balanced_of_paths hcol fun q i hq => ?_, hm ▸ houter⟩
      have hi := hpaths _ _ hq
      simp only [address, List.map_nil, List.reverse_nil, List.nil_prefix, if_true] at hi
      omega
  | append_singleton k f ih =>
      have haddress : address (k ++ [f]) = f.side :: address k := by simp [address]
      have hplug : plug (k ++ [f]) t = join f.side f.color (plug k t) f.elem f.sibling := by
        rw [plug_append]
        rfl
      rw [hplug] at hcol hpaths houter
      rw [haddress] at hpaths
      rw [rootColor_join] at houter
      rcases noRedRed_join.mp hcol with ⟨hred, hnear, hfar⟩
      rcases exists_path f.sibling with ⟨p, m, hp⟩
      -- the paths through the sibling all avoid the position
      have havoid : ∀ q i, f.sibling.Path q i → i + f.color.blacks = n := by
        intro q i hq
        have hi := hpaths _ _ (Path.joinFar (d := f.side) hq)
        rwa [if_neg (by simp [(Side.flip_ne f.side).symm])] at hi
      have hn := havoid p m hp
      have hsib : Balanced f.sibling f.sibling.rootColor m := by
        apply balanced_of_paths hfar
        intro q i hq
        have hi := havoid q i hq
        omega
      have hinner : ShortThrough (address k) (plug k t) m := by
        intro q i hq
        have hi := hpaths _ _ (Path.joinNear (d := f.side) hq)
        simp only [List.cons_prefix_cons, true_and] at hi
        split_ifs at hi ⊢ <;> omega
      rw [List.append_assoc, List.singleton_append]
      apply ih hnear hinner
      cases hc : f.color with
      | red =>
          rw [hc] at houter hn hred
          rw [(hred rfl).2] at hsib
          rw [(hred rfl).1]
          exact .red hc hsib (by rwa [← hn] at houter)
      | black =>
          rw [hc] at houter hn
          exact .black hc hsib (by rwa [← hn] at houter)

/-- A tree that is red-black but for one position, through which every path has one black
node too few. -/
theorem short_of_paths {k : List (Frame α)} (hroot : (plug k t).rootColor = .black)
    (hcol : (plug k t).NoRedRed) (hpaths : ShortThrough (address k) (plug k t) n) :
    ∃ j, Short t j ∧ Hole k .black (j + 1) := by
  have houter : Hole ([] : List (Frame α)) (plug k t).rootColor n := hroot ▸ .root
  rcases hole_of_paths hcol hpaths houter with ⟨j, hbal, hhole⟩
  rw [List.append_nil] at hhole
  refine ⟨j, Short.of_balanced hbal, ?_⟩
  cases hc : t.rootColor with
  | red =>
      rw [hc] at hhole
      exact hhole.black_of_red
  | black => rwa [hc] at hhole

end RedBlack
