import Smpcil.Foundations.Trimming
import Mathlib.Data.List.Forall2

/-!
# Strings packed back to back

Terminated strings that lie one behind the other in a list, and the copy that lays such
strings out but skips the empty ones, terminator included.

Main results:

- Theorem {lit}`forall₂_stringAt_iff`: strings are at their offsets precisely if the packed
  strings are there.
- Theorem {lit}`packed_injective`: strings can be told from what they are packed to.
- Theorem {lit}`layOut_blank`: laid out over terminators, strings are packed.
- Theorem {lit}`layOut_append_singleton`: the last string is laid out last.
-/

namespace Strings

variable {α : Type} {z : α}

/-! ## Overwriting a part of a list -/

/-- The list with the elements from position {lit}`i` on overwritten by {lit}`bs`. -/
def overlay (l : List α) (i : Nat) (bs : List α) : List α :=
  l.take i ++ bs ++ l.drop (i + bs.length)

@[simp]
theorem overlay_nil {l : List α} {i : Nat} : overlay l i [] = l := by
  simp [overlay]

theorem length_overlay {l bs : List α} {i : Nat} (h : i + bs.length ≤ l.length) :
    (overlay l i bs).length = l.length := by
  simp only [overlay, List.length_append, List.length_take, List.length_drop]
  omega

/-- Overwriting behind a part that stays. -/
theorem overlay_append {pre l bs : List α} :
    overlay (pre ++ l) pre.length bs = pre ++ overlay l 0 bs := by
  simp [overlay]

/-- Overwriting a part by another of its length. -/
theorem overlay_zero {old l bs : List α} (h : old.length = bs.length) :
    overlay (old ++ l) 0 bs = bs ++ l := by
  simp [overlay, ← h]

/-- Storing one element and then those behind it overwrites them all. -/
theorem overlay_set {l bs : List α} {i : Nat} {c : α} (h : i < l.length) :
    overlay (l.set i c) (i + 1) bs = overlay l i (c :: bs) := by
  have htake : (l.set i c).take (i + 1) = l.take i ++ [c] := by
    rw [List.take_add_one, List.take_set_of_le (Nat.le_refl i), List.getElem?_set_self h,
      Option.toList_some]
  have hdrop : (l.set i c).drop (i + 1 + bs.length) = l.drop (i + (c :: bs).length) := by
    rw [List.drop_set_of_lt (by omega), List.length_cons]
    congr 1
    omega
  rw [overlay, overlay, htake, hdrop]
  simp

/-! ## Packing -/

/-- The strings one behind the other, each with its terminator. -/
def packed (z : α) (ss : List (List α)) : List α := ss.flatMap (fun s => s ++ [z])

@[simp]
theorem packed_nil : packed z [] = [] := rfl

@[simp]
theorem packed_cons {s : List α} {ss : List (List α)} :
    packed z (s :: ss) = s ++ z :: packed z ss := by
  simp [packed]

theorem packed_append {ss ts : List (List α)} :
    packed z (ss ++ ts) = packed z ss ++ packed z ts := by
  simp [packed]

/-- Packed empty strings are terminators. -/
theorem packed_replicate_nil {k : Nat} :
    packed z (List.replicate k []) = List.replicate k z := by
  induction k with
  | zero => rfl
  | succ k ih => rw [List.replicate_succ, packed_cons, ih, List.replicate_succ, List.nil_append]

/-- The strings can be told from what they are packed to. -/
theorem packed_injective {ss ts : List (List α)} (hss : ∀ s ∈ ss, z ∉ s) (hts : ∀ t ∈ ts, z ∉ t)
    (h : packed z ss = packed z ts) : ss = ts := by
  induction ss generalizing ts with
  | nil =>
      cases ts with
      | nil => rfl
      | cons t ts => simp at h
  | cons s ss ih =>
      cases ts with
      | nil => simp at h
      | cons t ts =>
          rw [packed_cons, packed_cons] at h
          rcases append_cons_inj_of_not_mem (hss s (by simp)) (hts t (by simp)) h with
            ⟨rfl, hrest⟩
          rw [ih (fun s hs => hss s (by simp [hs])) (fun t ht => hts t (by simp [ht])) hrest]

/-- What is left of packed strings behind their first bytes is a packed end of them. -/
theorem exists_drop_packed {ss : List (List α)} {n : Nat} (hn : n < (packed z ss).length) :
    ∃ front u t rest, ss = front ++ (u ++ t) :: rest ∧
      (packed z ss).drop n = packed z (t :: rest) := by
  induction ss generalizing n with
  | nil => simp at hn
  | cons s ss ih =>
      rw [packed_cons, List.length_append, List.length_cons] at hn
      by_cases hle : n ≤ s.length
      · refine ⟨[], s.take n, s.drop n, ss, by simp, ?_⟩
        rw [packed_cons, packed_cons, List.drop_append_of_le_length hle]
      · rcases @ih (n - (s.length + 1)) (by omega) with ⟨front, u, t, rest, hss, hdrop⟩
        refine ⟨s :: front, u, t, rest, by rw [hss, List.cons_append], ?_⟩
        have hsplit : packed z (s :: ss) = (s ++ [z]) ++ packed z ss := by simp
        have hn' : n = (s ++ [z]).length + (n - (s.length + 1)) := by simp; omega
        rw [hsplit, hn', List.drop_length_add_append, hdrop]

/-- A packed end of strings is what is left of them behind the bytes in front of it. -/
theorem drop_packed {front rest : List (List α)} {u t : List α} {n : Nat}
    (hn : n + (packed z (t :: rest)).length = (packed z (front ++ (u ++ t) :: rest)).length) :
    (packed z (front ++ (u ++ t) :: rest)).drop n = packed z (t :: rest) := by
  have hsplit : packed z (front ++ (u ++ t) :: rest) =
      (packed z front ++ u) ++ packed z (t :: rest) := by
    simp [packed_append]
  rw [hsplit, List.length_append, Nat.add_right_cancel_iff] at hn
  rw [hsplit, hn, List.drop_left]

/-- The positions of strings that lie one behind the other from {lit}`o` on. -/
def offsets (o : Nat) : List (List α) → List Nat
  | [] => []
  | s :: ss => o :: offsets (o + s.length + 1) ss

/-- Strings are at their offsets precisely if the packed strings are there. -/
theorem forall₂_stringAt_iff {l : List α} {o : Nat} {ss : List (List α)} :
    List.Forall₂ (StringAt z l) (offsets o ss) ss ↔ packed z ss <+: l.drop o := by
  induction ss generalizing o with
  | nil => simp [offsets]
  | cons s ss ih =>
      rw [offsets, List.forall₂_cons, ih, packed_cons, stringAt_iff]
      constructor
      case mp =>
        rintro ⟨⟨rest, hs⟩, hrest⟩
        have hdrop : l.drop (o + s.length + 1) = rest := by
          rw [Nat.add_assoc, ← List.drop_drop, hs, ← List.drop_drop, List.drop_left]
          rfl
        rw [hdrop] at hrest
        rw [hs]
        exact (List.prefix_append_right_inj s).mpr (List.cons_prefix_cons.mpr ⟨rfl, hrest⟩)
      case mpr =>
        rintro ⟨rest, h⟩
        have hs : l.drop o = s ++ z :: (packed z ss ++ rest) := by
          rw [← h, List.append_assoc, List.cons_append]
        have hdrop : l.drop (o + s.length + 1) = packed z ss ++ rest := by
          rw [Nat.add_assoc, ← List.drop_drop, hs, ← List.drop_drop, List.drop_left]
          rfl
        exact ⟨⟨_, hs⟩, by rw [hdrop]; exact List.prefix_append _ _⟩

/-! ## Laying strings out -/

/-- The list with the strings laid out from position {lit}`o` on, each behind the one
before; an empty string leaves even the place of its terminator as it is. -/
def layOut (z : α) (l : List α) (o : Nat) : List (List α) → List α
  | [] => l
  | s :: ss =>
      layOut z (if s = [] then l else overlay l o (s ++ [z])) (o + s.length + 1) ss

/-- Laid out from position {lit}`o` on, every string that is not empty ends, terminator
included, before position {lit}`m`. -/
def Fits (m o : Nat) : List (List α) → Prop
  | [] => True
  | s :: ss => (s = [] ∨ o + s.length + 1 ≤ m) ∧ Fits m (o + s.length + 1) ss

theorem fits_of_length_le {m o : Nat} {ss : List (List α)}
    (h : o + (packed z ss).length ≤ m) : Fits m o ss := by
  induction ss generalizing o with
  | nil => trivial
  | cons s ss ih =>
      simp only [packed_cons, List.length_append, List.length_cons] at h
      exact ⟨Or.inr (by omega), ih (by omega)⟩

theorem length_layOut {l : List α} {o : Nat} {ss : List (List α)} (h : Fits l.length o ss) :
    (layOut z l o ss).length = l.length := by
  induction ss generalizing l o with
  | nil => rfl
  | cons s ss ih =>
      rw [layOut]
      by_cases hs : s = []
      · rw [if_pos hs]
        exact ih h.2
      · have hfit := h.1.resolve_left hs
        have hlen : (overlay l o (s ++ [z])).length = l.length :=
          length_overlay (by simp; omega)
        rw [if_neg hs, ih (by rw [hlen]; exact h.2), hlen]

/-- Laid out over terminators, strings are packed. -/
theorem layOut_blank {pre post : List α} {m : Nat} {ss : List (List α)}
    (h : (packed z ss).length ≤ m) :
    layOut z (pre ++ (List.replicate m z ++ post)) pre.length ss =
      pre ++ (packed z ss ++ (List.replicate (m - (packed z ss).length) z ++ post)) := by
  induction ss generalizing pre m with
  | nil => simp [layOut]
  | cons s ss ih =>
      simp only [packed_cons, List.length_append, List.length_cons] at h
      obtain ⟨k, rfl⟩ : ∃ k, m = (s ++ [z]).length + k :=
        ⟨m - (s ++ [z]).length, by simp; omega⟩
      have hstep : (if s = [] then pre ++ (List.replicate ((s ++ [z]).length + k) z ++ post)
          else overlay (pre ++ (List.replicate ((s ++ [z]).length + k) z ++ post)) pre.length
            (s ++ [z])) = (pre ++ (s ++ [z])) ++ (List.replicate k z ++ post) := by
        rw [List.replicate_add]
        by_cases hs : s = []
        · subst hs
          simp
        · rw [if_neg hs, overlay_append, List.append_assoc (List.replicate _ z),
            overlay_zero (by simp)]
          simp
      have hpos : pre.length + s.length + 1 = (pre ++ (s ++ [z])).length := by
        simp only [List.length_append, List.length_cons, List.length_nil]
        omega
      rw [layOut, hstep, hpos, ih (by simp at h; omega)]
      have hcount : (s ++ [z]).length + k - (packed z (s :: ss)).length =
          k - (packed z ss).length := by
        simp only [packed_cons, List.length_append, List.length_cons, List.length_nil]
        omega
      rw [hcount]
      simp

/-- The last string is laid out last. -/
theorem layOut_append_singleton {l : List α} {o : Nat} {ss : List (List α)} {t : List α} :
    layOut z l o (ss ++ [t]) =
      if t = [] then layOut z l o ss
      else overlay (layOut z l o ss) (o + (packed z ss).length) (t ++ [z]) := by
  induction ss generalizing l o with
  | nil => simp [layOut]
  | cons s ss ih =>
      rw [List.cons_append, layOut, ih, layOut, packed_cons, List.length_append,
        List.length_cons]
      have hpos : o + s.length + 1 + (packed z ss).length =
          o + (s.length + ((packed z ss).length + 1)) := by omega
      rw [hpos]

/-- Of strings that are packed into all but the last position, only the last one can fail
to fit, by its terminator. -/
theorem fits_append_singleton_iff {m o : Nat} {ss : List (List α)} {t : List α}
    (h : o + (packed z ss).length + t.length = m) : Fits m o (ss ++ [t]) ↔ t = [] := by
  induction ss generalizing o with
  | nil =>
      simp only [packed_nil, List.length_nil, Nat.add_zero] at h
      simp only [List.nil_append, Fits, and_true]
      constructor
      · rintro (ht | hle)
        · exact ht
        · omega
      · exact Or.inl
  | cons s ss ih =>
      simp only [packed_cons, List.length_append, List.length_cons] at h
      rw [List.cons_append, Fits, ih (by omega)]
      constructor
      · exact And.right
      · intro ht
        exact ⟨Or.inr (by omega), ht⟩

end Strings
