import Mathlib.Data.List.Basic
import Mathlib.Tactic.Common

/-!
# Occurrences

The positions at which a list occurs in another one, overlapping ones included, and the
pieces a list falls into when it is cut at some of them.

Main results:

- Definition {lit}`occurrences`: all positions, in increasing order.
- Theorem {lit}`occursBelow_add`: a scan collects them position by position.
- Theorem {lit}`intercalate_cuts_iff`: the pieces can be joined again exactly when the
  cuts do not overlap.
- Theorem {lit}`not_infix_of_mem_cuts`: no piece but the last contains the separator.
-/

namespace Occurrences

variable {α : Type}

/-! ## Positions -/

section Positions

variable [DecidableEq α] {x y : List α} {j k p : Nat}

/-- The positions below {lit}`j` at which {lit}`x` occurs in {lit}`y`. -/
def occursBelow (x y : List α) (j : Nat) : List Nat :=
  (List.range j).filter fun p => x <+: y.drop p

/-- The positions at which {lit}`x` occurs in {lit}`y`. -/
def occurrences (x y : List α) : List Nat := occursBelow x y (y.length + 1)

theorem mem_occursBelow : p ∈ occursBelow x y j ↔ p < j ∧ x <+: y.drop p := by
  simp [occursBelow]

@[simp] theorem occursBelow_zero : occursBelow x y 0 = [] := rfl

/-- The positions come in increasing order. -/
theorem pairwise_occursBelow : (occursBelow x y j).Pairwise (· < ·) :=
  List.Pairwise.filter _ List.pairwise_lt_range

/-- Positions without an occurrence add nothing. -/
theorem occursBelow_eq (hjk : j ≤ k) (hnone : ∀ p, j ≤ p → p < k → ¬ x <+: y.drop p) :
    occursBelow x y k = occursBelow x y j := by
  obtain ⟨d, rfl⟩ : ∃ d, k = j + d := ⟨k - j, by omega⟩
  have hrest : ((List.range d).map (j + ·)).filter (fun p => x <+: y.drop p) = [] := by
    rw [List.filter_eq_nil_iff]
    intro p hp
    rcases List.mem_map.mp hp with ⟨s, hs, rfl⟩
    have hlt := List.mem_range.mp hs
    simpa using hnone (j + s) (by omega) (by omega)
  rw [occursBelow, List.range_add, List.filter_append, hrest, List.append_nil, occursBelow]

/-- One more position. -/
theorem occursBelow_succ :
    occursBelow x y (j + 1) = occursBelow x y j ++ if x <+: y.drop j then [j] else [] := by
  rw [occursBelow, List.range_succ, List.filter_append, occursBelow]
  congr 1
  by_cases h : x <+: y.drop j
  · simp [h]
  · simp [h]

/-- A shift that jumps over no occurrence adds at most the position it starts from. -/
theorem occursBelow_add {d : Nat} (hd : 1 ≤ d)
    (hnone : ∀ s, 1 ≤ s → s < d → ¬ x <+: y.drop (j + s)) :
    occursBelow x y (j + d) = occursBelow x y j ++ if x <+: y.drop j then [j] else [] := by
  rw [← occursBelow_succ]
  apply occursBelow_eq
  · omega
  · intro p h₁ h₂
    have hskip := hnone (p - j) (by omega) (by omega)
    rwa [show j + (p - j) = p by omega] at hskip

/-- The positions below a bound begin the positions below a larger one. -/
theorem occursBelow_prefix (hjk : j ≤ k) : occursBelow x y j <+: occursBelow x y k := by
  obtain ⟨d, rfl⟩ : ∃ d, k = j + d := ⟨k - j, by omega⟩
  rw [occursBelow, occursBelow, List.range_add, List.filter_append]
  exact List.prefix_append _ _

omit [DecidableEq α] in
/-- An occurrence lies inside the list. -/
theorem le_length_of_prefix (hx : x ≠ []) (h : x <+: y.drop p) : p + x.length ≤ y.length := by
  have hle := h.length_le
  have hpos := List.length_pos_iff.mpr hx
  rw [List.length_drop] at hle
  omega

/-- Behind the last alignment there is no further occurrence. -/
theorem occursBelow_eq_occurrences (hx : x ≠ []) (hj : y.length < j + x.length) :
    occursBelow x y j = occurrences x y := by
  have hnone : ∀ p, j ≤ p → ¬ x <+: y.drop p := by
    intro p hp h
    have hle := le_length_of_prefix hx h
    omega
  have hnone' : ∀ p, y.length + 1 ≤ p → ¬ x <+: y.drop p := by
    intro p hp h
    have hle := le_length_of_prefix hx h
    omega
  rw [occurrences, ← occursBelow_eq (Nat.le_max_left j (y.length + 1)) fun p hp _ => hnone p hp,
    ← occursBelow_eq (Nat.le_max_right j (y.length + 1)) fun p hp _ => hnone' p hp]

/-- What a scan has collected begins the list of all positions. -/
theorem occursBelow_prefix_occurrences (hx : x ≠ []) :
    occursBelow x y j <+: occurrences x y := by
  have hpos := List.length_pos_iff.mpr hx
  rw [← @occursBelow_eq_occurrences _ _ x y (max j (y.length + 1)) hx (by omega)]
  exact occursBelow_prefix (Nat.le_max_left j (y.length + 1))

theorem mem_occurrences (hx : x ≠ []) : p ∈ occurrences x y ↔ x <+: y.drop p := by
  rw [occurrences, mem_occursBelow]
  constructor
  · exact fun h => h.2
  · intro h
    have hle := le_length_of_prefix hx h
    exact ⟨by omega, h⟩

theorem pairwise_occurrences : (occurrences x y).Pairwise (· < ·) := pairwise_occursBelow

/-- The first positions of an increasing list contain every smaller one. -/
theorem mem_of_prefix_of_lt {l l' : List Nat} {q : Nat} (hl : l <+: l')
    (hsorted : l'.Pairwise (· < ·)) (hp : p ∈ l) (hq : q ∈ l') (hlt : q < p) : q ∈ l := by
  rcases hl with ⟨r, rfl⟩
  rcases List.mem_append.mp hq with hin | hin
  · exact hin
  · have hpq := (List.pairwise_append.mp hsorted).2.2 p hp q hin
    omega

end Positions

/-! ## Pieces -/

/-- The pieces of {lit}`y` from {lit}`a` on: it is cut at the given positions, and at each
of them {lit}`d` elements are left out. -/
def cuts (d : Nat) (y : List α) : Nat → List Nat → List (List α)
  | a, [] => [y.drop a]
  | a, p :: ps => (y.drop a).take (p - a) :: cuts d y (p + d) ps

variable {x y : List α} {a : Nat} {ps : List Nat}

theorem cuts_ne_nil {d : Nat} : cuts d y a ps ≠ [] := by
  cases ps <;> simp [cuts]

@[simp] theorem length_cuts {d : Nat} : (cuts d y a ps).length = ps.length + 1 := by
  induction ps generalizing a with
  | nil => rfl
  | cons p ps ih => simp [cuts, ih]

/-- Where a piece begins: at the start, or behind the cut before it. -/
def cutStart (d a : Nat) (ps : List Nat) : Nat → Nat
  | 0 => a
  | r + 1 => ps.getD r 0 + d

/-- A piece that ends at a cut. -/
theorem getElem?_cuts_of_lt {d r : Nat} (hr : r < ps.length) : (cuts d y a ps)[r]? =
    some ((y.drop (cutStart d a ps r)).take (ps.getD r 0 - cutStart d a ps r)) := by
  induction ps generalizing a r with
  | nil => simp at hr
  | cons p ps ih =>
      cases r with
      | zero => simp [cuts, cutStart]
      | succ r =>
          rw [cuts, List.getElem?_cons_succ, @ih (p + d) r (by simpa using hr)]
          cases r with
          | zero => simp [cutStart]
          | succ r => simp [cutStart]

/-- The last piece. -/
theorem getElem?_cuts_length {d : Nat} :
    (cuts d y a ps)[ps.length]? = some (y.drop (cutStart d a ps ps.length)) := by
  induction ps generalizing a with
  | nil => simp [cuts, cutStart]
  | cons p ps ih =>
      rw [cuts, List.length_cons, List.getElem?_cons_succ, ih]
      cases ps with
      | nil => simp [cutStart]
      | cons q ps => simp [cutStart]

/-- Between any two pieces stands the separator. -/
theorem le_length_intercalate {ls : List (List α)} :
    (ls.length - 1) * x.length ≤ (x.intercalate ls).length := by
  induction ls with
  | nil => simp
  | cons l ls ih =>
      by_cases hnil : ls = []
      · simp [hnil]
      · obtain ⟨k, hk⟩ : ∃ k, ls.length = k + 1 :=
          ⟨ls.length - 1, by have := List.length_pos_iff.mpr hnil; omega⟩
        rw [List.intercalate_cons_of_ne_nil hnil]
        simp only [List.length_append, List.length_cons, hk, Nat.add_sub_cancel] at ih ⊢
        rw [Nat.succ_mul]
        omega

/-- Joining the pieces, the first one apart. -/
theorem intercalate_cuts_cons {d p : Nat} :
    x.intercalate (cuts d y a (p :: ps)) =
      (y.drop a).take (p - a) ++ x ++ x.intercalate (cuts d y (p + d) ps) := by
  rw [cuts, List.intercalate_cons_of_ne_nil cuts_ne_nil]

/-- Cuts at occurrences that do not overlap can be undone. -/
theorem intercalate_cuts (hocc : ∀ p ∈ ps, x <+: y.drop p) (hge : ∀ p ∈ ps, a ≤ p)
    (happ : ps.Pairwise fun p q => p + x.length ≤ q) :
    x.intercalate (cuts x.length y a ps) = y.drop a := by
  induction ps generalizing a with
  | nil => simp [cuts]
  | cons p ps ih =>
      rw [List.pairwise_cons] at happ
      have hrest := @ih (p + x.length) (fun q hq => hocc q (List.mem_cons_of_mem _ hq))
        happ.1 happ.2
      have hle := hge p List.mem_cons_self
      -- the occurrence and what follows it are the rest of the list from there
      have htail : x ++ y.drop (p + x.length) = y.drop p := by
        rcases hocc p List.mem_cons_self with ⟨t, ht⟩
        rw [← List.drop_drop, ← ht, List.drop_left]
      rw [intercalate_cuts_cons, hrest, List.append_assoc, htail]
      have hdrop : y.drop p = (y.drop a).drop (p - a) := by
        rw [List.drop_drop]
        congr 1
        omega
      rw [hdrop, List.take_append_drop]

/-- The joined pieces are at least as long as the list, and longer if cuts overlap. -/
theorem length_intercalate_cuts (hx : 0 < x.length) (hin : ∀ p ∈ ps, p + x.length ≤ y.length) :
    y.length - a ≤ (x.intercalate (cuts x.length y a ps)).length ∧
      ((x.intercalate (cuts x.length y a ps)).length = y.length - a → a ≤ y.length →
        (∀ p ∈ ps, a ≤ p) ∧ ps.Pairwise fun p q => p + x.length ≤ q) := by
  induction ps generalizing a with
  | nil => simp [cuts]
  | cons p ps ih =>
      rcases @ih (p + x.length) fun q hq => hin q (List.mem_cons_of_mem _ hq) with ⟨hle, heq⟩
      have hp := hin p List.mem_cons_self
      rw [intercalate_cuts_cons]
      simp only [List.length_append, List.length_take, List.length_drop]
      constructor
      · omega
      · intro hlen ha
        have hap : a ≤ p := by omega
        rcases heq (by omega) hp with ⟨hge, happ⟩
        refine ⟨?_, List.pairwise_cons.mpr ⟨hge, happ⟩⟩
        intro q hq
        rcases List.mem_cons.mp hq with rfl | hq
        · exact hap
        · have hpq := hge q hq
          omega

/-- The pieces between occurrences can be joined again exactly when the occurrences do not
overlap. -/
theorem intercalate_cuts_iff (hx : x ≠ []) (hocc : ∀ p ∈ ps, x <+: y.drop p) :
    x.intercalate (cuts x.length y 0 ps) = y ↔ ps.Pairwise fun p q => p + x.length ≤ q := by
  constructor
  · intro h
    have hlen := (@length_intercalate_cuts _ x y 0 ps (List.length_pos_iff.mpr hx)
      fun p hp => le_length_of_prefix hx (hocc p hp)).2
    rw [h] at hlen
    exact (hlen (by omega) (by omega)).2
  · intro h
    exact intercalate_cuts hocc (fun p _ => Nat.zero_le p) h

/-- Cut at its first occurrences, a list has no piece that contains the separator, but for
the last one. -/
theorem not_infix_of_mem_cuts {l : List α} (hx : x ≠ []) (hsorted : ps.Pairwise (· < ·))
    (hback : ∀ p ∈ ps, a ≤ p + x.length)
    (hall : ∀ p ∈ ps, ∀ q, a ≤ q → q < p → x <+: y.drop q → q ∈ ps)
    (hl : l ∈ (cuts x.length y a ps).dropLast) : ¬ x <:+: l := by
  induction ps generalizing a with
  | nil => simp [cuts] at hl
  | cons p ps ih =>
      rw [cuts, List.dropLast_cons_of_ne_nil cuts_ne_nil, List.mem_cons] at hl
      rw [List.pairwise_cons] at hsorted
      rcases hl with rfl | hl
      · -- an occurrence inside the first piece would come before the first cut
        intro hinfix
        rcases hinfix with ⟨u, v, huv⟩
        have hlen := congrArg List.length huv
        have hpos := List.length_pos_iff.mpr hx
        simp only [List.length_append, List.length_take, List.length_drop] at hlen
        have hocc : x <+: y.drop (a + u.length) := by
          have htake : x <+: (((y.drop a).take (p - a)).drop u.length) := by
            rw [← huv, List.append_assoc, List.drop_left]
            exact List.prefix_append _ _
          rw [List.drop_take, List.drop_drop] at htake
          exact htake.trans (List.take_prefix _ _)
        rcases List.mem_cons.mp (hall p List.mem_cons_self _ (by omega) (by omega) hocc) with
          heq | hin
        · omega
        · have hlt := hsorted.1 _ hin
          omega
      · have hap := hback p List.mem_cons_self
        apply ih hsorted.2 ?_ ?_ hl
        · intro q hq
          have hpq := hsorted.1 q hq
          omega
        · intro q hq r h₁ h₂ hocc
          have hpos := List.length_pos_iff.mpr hx
          rcases List.mem_cons.mp (hall q (List.mem_cons_of_mem _ hq) r (by omega) h₂ hocc) with
            heq | hin
          · omega
          · exact hin

end Occurrences
