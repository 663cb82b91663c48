import Smpcil.Foundations.Tokens

/-!
# Separators that do not overlap

Cutting tokens off with one separator, against cutting a list at the occurrences of the
separator.

Main results:

- Theorem {lit}`Rest.rests_eq`: at occurrences that do not overlap, the tokens and what is
  left of the string are the pieces between them.
- Theorem {lit}`Unbordered.apart`: the occurrences of a list without a border never overlap.
- Theorem {lit}`exists_overlap`: every other list overlaps itself.
-/

namespace Tokens

open Occurrences

variable {α : Type} {d y : List α} {a i : Nat} {ps : List Nat}

/-! ## Tokens at given positions -/

namespace Rest

variable [DecidableEq α]

/-- The tokens that are cut off, with their positions, and behind them what is left. -/
def rests (r : Rest α) (ds : List (List α)) : List (Nat × List α) :=
  r.tokens ds ++ [((r.after ds).pos, (r.after ds).text)]

@[simp] theorem rests_nil {r : Rest α} : r.rests [] = [(r.pos, r.text)] := rfl

@[simp] theorem rests_cons {r : Rest α} {ds : List (List α)} :
    r.rests (d :: ds) = (r.pos, r.token d) :: (r.next d).rests ds := rfl

/-- The separator is found at the first of the given positions. -/
theorem leftmost_drop {p : Nat} (hd : d ≠ []) (hocc : d <+: y.drop p) (hge : a ≤ p)
    (hfirst : ∀ q, a ≤ q → q < p → ¬ d <+: y.drop q) :
    leftmost d (y.drop a) = some (p - a) := by
  rw [leftmost_eq_some hd]
  constructor
  · rwa [List.drop_drop, Nat.add_sub_cancel' hge]
  · intro k hk hin
    rw [List.drop_drop] at hin
    exact hfirst (a + k) (Nat.le_add_right a k) (by omega) hin

/-- Cut at the first occurrences, which do not overlap, a string falls into the tokens and
what is left. -/
theorem rests_eq (hd : d ≠ []) (hocc : ∀ p ∈ ps, d <+: y.drop p) (hge : ∀ p ∈ ps, a ≤ p)
    (happ : ps.Pairwise fun p q => p + d.length ≤ q)
    (hall : ∀ p ∈ ps, ∀ q, a ≤ q → q < p → d <+: y.drop q → q ∈ ps) :
    ((Rest.mk (i + a) (y.drop a)).rests (List.replicate ps.length d)).map Prod.fst =
        (i + a) :: ps.map (fun p => i + (p + d.length)) ∧
      ((Rest.mk (i + a) (y.drop a)).rests (List.replicate ps.length d)).map Prod.snd =
        Occurrences.cuts d.length y a ps := by
  induction ps generalizing a with
  | nil => exact ⟨rfl, rfl⟩
  | cons p ps ih =>
      rw [List.pairwise_cons] at happ
      have hap := hge p List.mem_cons_self
      have hpos := List.length_pos_iff.mpr hd
      have hfirst : ∀ q, a ≤ q → q < p → ¬ d <+: y.drop q := by
        intro q haq hqp hq
        rcases List.mem_cons.mp (hall p List.mem_cons_self q haq hqp hq) with rfl | hmem
        · exact Nat.lt_irrefl q hqp
        · have hle := happ.1 q hmem
          omega
      have hleft := leftmost_drop hd (hocc p List.mem_cons_self) hap hfirst
      have hnext : (Rest.mk (i + a) (y.drop a)).next d =
          ⟨i + (p + d.length), y.drop (p + d.length)⟩ := by
        simp only [next, hleft, List.drop_drop, Rest.mk.injEq]
        constructor
        · omega
        · congr 1
          omega
      have htoken : (Rest.mk (i + a) (y.drop a)).token d = (y.drop a).take (p - a) := by
        simp only [token, hleft]
      rcases @ih (p + d.length) (fun q hq => hocc q (List.mem_cons_of_mem p hq)) happ.1 happ.2
        (by
          intro q hq t hpt htq ht
          rcases List.mem_cons.mp
            (hall q (List.mem_cons_of_mem p hq) t (by omega) htq ht) with rfl | hmem
          · omega
          · exact hmem) with ⟨hfst, hsnd⟩
      rw [List.length_cons, List.replicate_succ, rests_cons, hnext, htoken]
      simp only [List.map_cons, hfst, hsnd, true_and]
      rfl

end Rest

/-! ## Borders -/

/-- No proper beginning of the list is its end as well. -/
def Unbordered (d : List α) : Prop := ∀ b, b ≠ [] → b <+: d → b <:+ d → b = d

/-- Two occurrences that overlap have a border in common. -/
theorem exists_border {p q : Nat} (hp : d <+: y.drop p) (hq : d <+: y.drop q) (hpq : p < q)
    (hover : q < p + d.length) : ∃ b, b ≠ [] ∧ b <+: d ∧ b <:+ d ∧ b ≠ d := by
  have hlen : (d.drop (q - p)).length = d.length - (q - p) := List.length_drop
  refine ⟨d.drop (q - p), ?_, ?_, List.drop_suffix _ _, ?_⟩
  · intro hnil
    rw [hnil, List.length_nil] at hlen
    omega
  · have hin : d.drop (q - p) <+: y.drop q := by
      rcases hp with ⟨s, hs⟩
      rw [show q = p + (q - p) by omega, ← List.drop_drop, ← hs, Nat.add_sub_cancel_left,
        List.drop_append_of_le_length (by omega)]
      exact List.prefix_append _ s
    exact List.prefix_of_prefix_length_le hin hq (by omega)
  · intro heq
    rw [heq] at hlen
    omega

/-- A list of one element has no border. -/
theorem unbordered_singleton (c : α) : Unbordered [c] := by
  intro b hb hpre _
  rcases List.prefix_cons_iff.mp hpre with rfl | ⟨t, rfl, ht⟩
  · exact absurd rfl hb
  · rw [List.prefix_nil.mp ht]

/-- The occurrences of a list without a border do not overlap. -/
theorem Unbordered.apart [DecidableEq α] (h : Unbordered d) (hd : d ≠ []) :
    (occurrences d y).Pairwise fun p q => p + d.length ≤ q := by
  apply pairwise_occurrences.imp_of_mem
  intro p q hp hq hpq
  by_contra hover
  rcases exists_border ((mem_occurrences hd).mp hp) ((mem_occurrences hd).mp hq) hpq
    (Nat.not_le.mp hover) with ⟨b, hb, hpre, hsuf, hne⟩
  exact hne (h b hb hpre hsuf)

/-- A list with a border occurs twice, with an overlap, in a list made of it. -/
theorem exists_overlap (h : ¬ Unbordered d) :
    ∃ t x, t ≠ [] ∧ t.length < d.length ∧ x.length = t.length ∧ t ++ d = d ++ x ∧
      ∀ c ∈ t, c ∈ d := by
  simp only [Unbordered, not_forall] at h
  rcases h with ⟨b, hb, ⟨x, hx⟩, ⟨t, ht⟩, hne⟩
  have hlen : t.length + b.length = d.length := by rw [← ht, List.length_append]
  have hlen' : b.length + x.length = d.length := by rw [← hx, List.length_append]
  have hpos := List.length_pos_iff.mpr hb
  refine ⟨t, x, ?_, by omega, by omega, ?_, ?_⟩
  · rintro rfl
    exact hne ht
  · calc t ++ d = t ++ (b ++ x) := by rw [hx]
      _ = d ++ x := by rw [← List.append_assoc, ht]
  · intro c hc
    rw [← ht]
    exact List.mem_append_left b hc

/-- Where the list overlaps itself, the second token is all that is left. -/
theorem Rest.rests_overlap [DecidableEq α] {x : List α} (hd : d ≠ []) (hx : x.length < d.length) :
    ((Rest.mk i (d ++ x)).rests [d, d])[1]? = some (i + d.length, x) := by
  have hleft : leftmost d (d ++ x) = some 0 := by
    rw [leftmost_eq_some hd]
    exact ⟨List.prefix_append d x, fun k hk => absurd hk (Nat.not_lt_zero k)⟩
  have hnone : leftmost d x = none := by
    rw [leftmost_eq_none hd]
    intro k hk
    have hle := le_length_of_prefix hd hk
    omega
  have hnext : (Rest.mk i (d ++ x)).next d = ⟨i + d.length, x⟩ := by
    simp only [next, hleft, Nat.add_zero, Nat.zero_add, List.drop_left]
  rw [rests_cons, hnext, rests_cons, List.getElem?_cons_succ, List.getElem?_cons_zero]
  simp only [token, hnone]

/-- Such a list occurs first at the beginning, and again before its own end. -/
theorem occurrences_overlap [DecidableEq α] {t x : List α} (hd : d ≠ []) (ht : t ≠ [])
    (htx : t ++ d = d ++ x) :
    ∃ q rest, occurrences d (t ++ d) = 0 :: q :: rest ∧ q ≤ t.length := by
  have hzero : 0 ∈ occurrences d (t ++ d) := by
    rw [mem_occurrences hd, List.drop_zero, htx]
    exact List.prefix_append d x
  have hagain : t.length ∈ occurrences d (t ++ d) := by
    apply (mem_occurrences hd).mpr
    simp
  have hsorted : (occurrences d (t ++ d)).Pairwise (· < ·) := pairwise_occurrences
  have hpos := List.length_pos_iff.mpr ht
  generalize occurrences d (t ++ d) = l at hzero hagain hsorted
  cases l with
  | nil => cases hzero
  | cons p l =>
      rw [List.pairwise_cons] at hsorted
      obtain rfl : p = 0 := by
        rcases List.mem_cons.mp hzero with heq | hmem
        · exact heq.symm
        · exact absurd (hsorted.1 0 hmem) (Nat.not_lt_zero p)
      have hmem : t.length ∈ l := by
        rcases List.mem_cons.mp hagain with heq | hmem
        · omega
        · exact hmem
      cases l with
      | nil => cases hmem
      | cons q rest =>
          refine ⟨q, rest, rfl, ?_⟩
          rcases List.mem_cons.mp hmem with heq | hrest
          · exact heq.ge
          · exact ((List.pairwise_cons.mp hsorted.2).1 _ hrest).le

end Tokens
