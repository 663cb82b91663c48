import Smpcil.Foundations.Occurrences
import Smpcil.Foundations.Trimming

/-!
# Tokens cut off in place

A string in a buffer is cut into tokens by a sequence of separators: each of them ends the
token at its leftmost occurrence in what is left of the string, by a terminator over the
first element of the occurrence.

Main results:

- Definition {lit}`Rest.tokens`: the tokens, with their positions.
- Theorem {lit}`Rest.stringAt_tokens`: when all cuts are made, every token is a terminated
  string at its position, and so is what is left.
- Theorem {lit}`Rest.getElem?_blank_cuts`: nothing else changes.
- Theorem {lit}`Rest.tokens_empty`: nothing is cut off an empty string.
-/

namespace Tokens

open Occurrences
open Strings (StringAt stringAt_iff_getElem?)

variable {α : Type} {z : α}

/-! ## The leftmost occurrence -/

section Leftmost

variable [DecidableEq α] {d s : List α} {j : Nat}

/-- Where {lit}`d` occurs first in {lit}`s`. -/
def leftmost (d s : List α) : Option Nat := (occurrences d s).head?

theorem leftmost_eq_some (hd : d ≠ []) :
    leftmost d s = some j ↔ d <+: s.drop j ∧ ∀ k < j, ¬ d <+: s.drop k := by
  rw [leftmost, occurrences, occursBelow, List.head?_filter, List.find?_range_eq_some]
  simp only [decide_eq_true_eq, List.mem_range, Bool.not_eq_true', decide_eq_false_iff_not]
  constructor
  case mp => exact fun h => ⟨h.1, h.2.2⟩
  case mpr =>
    rintro ⟨hocc, hfirst⟩
    have hle := le_length_of_prefix hd hocc
    exact ⟨hocc, by omega, hfirst⟩

theorem leftmost_eq_none (hd : d ≠ []) : leftmost d s = none ↔ ∀ k, ¬ d <+: s.drop k := by
  rw [leftmost, List.head?_eq_none_iff, List.eq_nil_iff_forall_not_mem]
  exact forall_congr' fun k => not_congr (mem_occurrences hd)

/-- The leftmost occurrence lies inside the list. -/
theorem le_length_of_leftmost (hd : d ≠ []) (h : leftmost d s = some j) :
    j + d.length ≤ s.length :=
  le_length_of_prefix hd ((leftmost_eq_some hd).mp h).1

theorem leftmost_nil (hd : d ≠ []) : leftmost d [] = none := by
  rw [leftmost_eq_none hd]
  intro k hk
  rw [List.drop_nil, List.prefix_nil] at hk
  exact hd hk

end Leftmost

/-! ## Cutting tokens off -/

/-- What is left of a string, and where it begins. -/
structure Rest (α : Type) where
  pos : Nat
  text : List α

namespace Rest

variable [DecidableEq α]

/-- The token that ends at the separator {lit}`d`. -/
def token (r : Rest α) (d : List α) : List α :=
  match leftmost d r.text with
  | some j => r.text.take j
  | none => r.text

/-- The position where the token is cut off, if there is a separator. -/
def cut (r : Rest α) (d : List α) : List Nat :=
  match leftmost d r.text with
  | some j => [r.pos + j]
  | none => []

/-- What is left behind the separator. -/
def next (r : Rest α) (d : List α) : Rest α :=
  match leftmost d r.text with
  | some j => ⟨r.pos + j + d.length, r.text.drop (j + d.length)⟩
  | none => ⟨r.pos + r.text.length, []⟩

/-- The tokens that a sequence of separators cuts off, with their positions. -/
def tokens : Rest α → List (List α) → List (Nat × List α)
  | _, [] => []
  | r, d :: ds => (r.pos, r.token d) :: (r.next d).tokens ds

/-- All positions where a token is cut off. -/
def cuts : Rest α → List (List α) → List Nat
  | _, [] => []
  | r, d :: ds => r.cut d ++ (r.next d).cuts ds

/-- What is left behind a sequence of separators. -/
def after (r : Rest α) (ds : List (List α)) : Rest α := ds.foldl next r

variable {r : Rest α} {d : List α} {ds : List (List α)} {buf : List α}

/-- Nothing is cut off an empty string. -/
theorem tokens_empty (h : r.text = []) (hds : ∀ d ∈ ds, d ≠ []) :
    r.tokens ds = List.replicate ds.length (r.pos, []) ∧ r.cuts ds = [] ∧ r.after ds = r := by
  induction ds with
  | nil => exact ⟨rfl, rfl, rfl⟩
  | cons d ds ih =>
      have hnone : leftmost d r.text = none := by
        rw [h]
        exact leftmost_nil (hds d List.mem_cons_self)
      have hnext : r.next d = r := by
        rcases r with ⟨pos, text⟩
        simp only [next, hnone]
        rw [show text = [] from h]
        rfl
      rcases ih fun e he => hds e (List.mem_cons_of_mem d he) with ⟨htokens, hcuts, hafter⟩
      refine ⟨?_, ?_, ?_⟩
      · rw [tokens, hnext, htokens, token, hnone, h]
        rfl
      · rw [cuts, hnext, hcuts, cut, hnone]
        rfl
      · rw [after, List.foldl_cons, hnext]
        exact hafter

/-- Tokens are cut off to the right of where the string begins. -/
theorem pos_le_next : r.pos ≤ (r.next d).pos := by
  unfold next
  split
  · show r.pos ≤ r.pos + _ + d.length
    omega
  · exact Nat.le_add_right _ _

theorem pos_le_of_mem_cuts {p : Nat} (hp : p ∈ r.cuts ds) : r.pos ≤ p := by
  induction ds generalizing r with
  | nil => cases hp
  | cons d ds ih =>
      rw [cuts, List.mem_append] at hp
      rcases hp with hp | hp
      · unfold cut at hp
        split at hp
        · rw [List.mem_singleton] at hp
          omega
        · cases hp
      · exact pos_le_next.trans (ih hp)

/-- What is left ends where the string ends. -/
theorem pos_add_length_next (hd : d ≠ []) :
    (r.next d).pos + (r.next d).text.length = r.pos + r.text.length := by
  cases hocc : leftmost d r.text with
  | none =>
      simp only [next, hocc]
      rfl
  | some j =>
      have hin := le_length_of_leftmost hd hocc
      simp only [next, hocc, List.length_drop]
      omega

/-- All cuts are made inside the string. -/
theorem lt_of_mem_cuts (hds : ∀ d ∈ ds, d ≠ []) {p : Nat} (hp : p ∈ r.cuts ds) :
    p < r.pos + r.text.length := by
  induction ds generalizing r with
  | nil => cases hp
  | cons d ds ih =>
      have hd := hds d List.mem_cons_self
      rw [cuts, List.mem_append] at hp
      rcases hp with hp | hp
      · have hpos := List.length_pos_iff.mpr hd
        cases hocc : leftmost d r.text with
        | none =>
            simp only [cut, hocc] at hp
            cases hp
        | some j =>
            have hin := le_length_of_leftmost hd hocc
            simp only [cut, hocc, List.mem_singleton] at hp
            omega
      · rw [← pos_add_length_next hd]
        exact ih (fun e he => hds e (List.mem_cons_of_mem d he)) hp

/-- A token ends before the cuts behind it. -/
theorem pos_add_token_lt (hd : d ≠ []) (hds : ∀ e ∈ ds, e ≠ []) :
    ∀ p ∈ (r.next d).cuts ds, r.pos + (r.token d).length < p := by
  intro p hp
  have hpos := List.length_pos_iff.mpr hd
  cases hocc : leftmost d r.text with
  | none =>
      have hempty : (r.next d).text = [] := by
        simp only [next, hocc]
      rw [(tokens_empty hempty hds).2.1] at hp
      cases hp
  | some j =>
      have hle := pos_le_of_mem_cuts hp
      have hin := le_length_of_leftmost hd hocc
      simp only [next, hocc] at hle
      simp only [token, hocc, List.length_take]
      omega

end Rest

/-! ## Terminators in a buffer -/

/-- The buffer with terminators at the given positions. -/
def blank (z : α) (buf : List α) (ps : List Nat) : List α := ps.foldl (fun b p => b.set p z) buf

@[simp] theorem blank_nil {buf : List α} : blank z buf [] = buf := rfl

theorem blank_append {buf : List α} {ps qs : List Nat} :
    blank z buf (ps ++ qs) = blank z (blank z buf ps) qs := List.foldl_append

/-- Only the given positions change. -/
theorem getElem?_blank {buf : List α} {ps : List Nat} {k : Nat} :
    (blank z buf ps)[k]? = if k ∈ ps then buf[k]?.map fun _ => z else buf[k]? := by
  induction ps generalizing buf with
  | nil => simp
  | cons p ps ih =>
      rw [show blank z buf (p :: ps) = blank z (buf.set p z) ps from rfl, ih,
        List.getElem?_set]
      by_cases hp : p = k
      · subst hp
        by_cases hlt : p < buf.length
        · simp [hlt]
        · simp [hlt]
      · have hne : k ≠ p := Ne.symm hp
        simp [hp, hne]

/-- Terminators behind a string leave it as it is. -/
theorem stringAt_blank {buf s : List α} {i : Nat} {ps : List Nat} (h : StringAt z buf i s)
    (hps : ∀ p ∈ ps, i + s.length < p) : StringAt z (blank z buf ps) i s := by
  rw [stringAt_iff_getElem?] at h ⊢
  have hout : ∀ k ≤ s.length, (blank z buf ps)[i + k]? = buf[i + k]? := by
    intro k hk
    rw [getElem?_blank, if_neg]
    intro hmem
    have hlt := hps _ hmem
    omega
  constructor
  · intro k hk
    rw [hout k hk.le]
    exact h.1 k hk
  · rw [hout _ (Nat.le_refl _)]
    exact h.2

namespace Rest

variable [DecidableEq α] {r : Rest α} {d : List α} {ds : List (List α)} {buf : List α}

/-- One token is cut off. -/
theorem stringAt_cut (h : StringAt z buf r.pos r.text) (hd : d ≠ []) :
    StringAt z (blank z buf (r.cut d)) r.pos (r.token d) ∧
      StringAt z (blank z buf (r.cut d)) (r.next d).pos (r.next d).text := by
  rw [stringAt_iff_getElem?] at h
  cases hocc : leftmost d r.text with
  | none =>
      simp only [cut, token, next, hocc, blank_nil, stringAt_iff_getElem?]
      exact ⟨h, fun k hk => absurd hk (Nat.not_lt_zero k), h.2⟩
  | some j =>
      have hin := le_length_of_leftmost hd hocc
      have hpos := List.length_pos_iff.mpr hd
      have hlt : j < r.text.length := by omega
      have hout : ∀ k, k ≠ j → (blank z buf [r.pos + j])[r.pos + k]? = buf[r.pos + k]? := by
        intro k hk
        rw [getElem?_blank, if_neg]
        rw [List.mem_singleton]
        omega
      simp only [cut, token, next, hocc, stringAt_iff_getElem?, List.length_take,
        List.length_drop]
      refine ⟨⟨?_, ?_⟩, ?_, ?_⟩
      · intro k hk
        rw [hout k (by omega), h.1 k (by omega), List.getElem_take]
      · rw [Nat.min_eq_left hlt.le, getElem?_blank, if_pos List.mem_cons_self, h.1 j hlt]
        rfl
      · intro k hk
        have hk' : j + d.length + k < r.text.length := by omega
        rw [Nat.add_assoc, Nat.add_assoc, ← Nat.add_assoc j, hout _ (by omega), h.1 _ hk',
          List.getElem_drop]
      · have hend : r.pos + j + d.length + (r.text.length - (j + d.length)) =
            r.pos + r.text.length := by omega
        rw [hend, hout _ (by omega)]
        exact h.2

/-- When all cuts are made, every token is at its position, and so is what is left. -/
theorem stringAt_tokens (h : StringAt z buf r.pos r.text) (hds : ∀ d ∈ ds, d ≠ []) :
    (∀ t ∈ r.tokens ds, StringAt z (blank z buf (r.cuts ds)) t.1 t.2) ∧
      StringAt z (blank z buf (r.cuts ds)) (r.after ds).pos (r.after ds).text := by
  induction ds generalizing r buf with
  | nil => exact ⟨fun t ht => absurd ht List.not_mem_nil, h⟩
  | cons d ds ih =>
      have hd := hds d List.mem_cons_self
      have hrest : ∀ e ∈ ds, e ≠ [] := fun e he => hds e (List.mem_cons_of_mem d he)
      rcases stringAt_cut h hd with ⟨htoken, hnext⟩
      rcases ih hnext hrest with ⟨htokens, hafter⟩
      rw [cuts, blank_append]
      constructor
      · intro t ht
        rw [tokens, List.mem_cons] at ht
        rcases ht with rfl | ht
        · exact stringAt_blank htoken (pos_add_token_lt hd hrest)
        · exact htokens t ht
      · exact hafter

/-- Only the cuts change the buffer. -/
theorem getElem?_blank_cuts (h : StringAt z buf r.pos r.text) (hds : ∀ d ∈ ds, d ≠ []) {k : Nat} :
    (blank z buf (r.cuts ds))[k]? = if k ∈ r.cuts ds then some z else buf[k]? := by
  rw [getElem?_blank]
  by_cases hk : k ∈ r.cuts ds
  · have hlow := pos_le_of_mem_cuts hk
    have hhigh := lt_of_mem_cuts hds hk
    have hchar := (stringAt_iff_getElem?.mp h).1 (k - r.pos) (by omega)
    rw [show r.pos + (k - r.pos) = k by omega] at hchar
    rw [if_pos hk, if_pos hk, hchar, Option.map_some]
  · rw [if_neg hk, if_neg hk]

end Rest

end Tokens
