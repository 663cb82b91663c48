import Mathlib.Data.List.DropRight
import Mathlib.Tactic.Common

/-!
# Terminated strings and trimming

Strings in a buffer that a terminator ends, and what is left of a list when the elements
with a given property are taken off both its ends.

Main results:

- Theorem {lit}`StringAt.unique`: a position holds one terminated string.
- Theorem {lit}`trim_append`: a list that neither starts nor ends in the property is what
  is left of it behind a leading run.
-/

namespace Strings

variable {α : Type} {z : α} {p : α → Bool}

/-! ## Terminated strings -/

/-- Position {lit}`i` of {lit}`buf` holds the string {lit}`s`, ended by {lit}`z`. -/
def StringAt (z : α) (buf : List α) (i : Nat) (s : List α) : Prop :=
  s ++ [z] <+: buf.drop i

instance [DecidableEq α] (z : α) (buf : List α) (i : Nat) (s : List α) :
    Decidable (StringAt z buf i s) :=
  inferInstanceAs (Decidable (s ++ [z] <+: buf.drop i))

theorem stringAt_iff {buf : List α} {i : Nat} {s : List α} :
    StringAt z buf i s ↔ ∃ rest, buf.drop i = s ++ z :: rest := by
  constructor
  case mp =>
    rintro ⟨rest, h⟩
    exact ⟨rest, by rw [← h, List.append_assoc, List.singleton_append]⟩
  case mpr =>
    rintro ⟨rest, h⟩
    exact ⟨rest, by rw [h, List.append_assoc, List.singleton_append]⟩

/-- A string is at a position with all its elements and the terminator behind them. -/
theorem stringAt_iff_getElem? {buf : List α} {i : Nat} {s : List α} :
    StringAt z buf i s ↔
      (∀ k (hk : k < s.length), buf[i + k]? = some s[k]) ∧ buf[i + s.length]? = some z := by
  rw [StringAt, List.prefix_iff_getElem?]
  simp only [List.getElem?_drop, List.length_append, List.length_singleton]
  constructor
  case mp =>
    intro h
    constructor
    · intro k hk
      rw [h k (by omega), List.getElem_append_left hk]
    · rw [h s.length (by omega), List.getElem_append_right (Nat.le_refl _)]
      simp
  case mpr =>
    rintro ⟨hchars, hend⟩ k hk
    by_cases hlt : k < s.length
    · rw [hchars k hlt, List.getElem_append_left hlt]
    · obtain rfl : k = s.length := by omega
      rw [hend, List.getElem_append_right (Nat.le_refl _)]
      simp

/-- A terminator that occurs in neither string ends them at the same place. -/
theorem append_cons_inj_of_not_mem {s t r r' : List α} (hs : z ∉ s) (ht : z ∉ t)
    (h : s ++ z :: r = t ++ z :: r') : s = t ∧ r = r' := by
  induction s generalizing t with
  | nil =>
      cases t with
      | nil => simpa using h
      | cons c t =>
          simp only [List.nil_append, List.cons_append, List.cons.injEq] at h
          exact absurd (by simp [h.1]) ht
  | cons c s ih =>
      cases t with
      | nil =>
          simp only [List.nil_append, List.cons_append, List.cons.injEq] at h
          exact absurd (by simp [h.1]) hs
      | cons d t =>
          simp only [List.cons_append, List.cons.injEq] at h
          simp only [List.mem_cons, not_or] at hs ht
          have htail := ih hs.2 ht.2 h.2
          exact ⟨by rw [h.1, htail.1], htail.2⟩

/-- A position holds one terminated string. -/
theorem StringAt.unique {buf : List α} {i : Nat} {s t : List α} (hs : z ∉ s) (ht : z ∉ t)
    (h₁ : StringAt z buf i s) (h₂ : StringAt z buf i t) : s = t := by
  rcases stringAt_iff.mp h₁ with ⟨r, hr⟩
  rcases stringAt_iff.mp h₂ with ⟨r', hr'⟩
  exact (append_cons_inj_of_not_mem hs ht (hr.symm.trans hr')).1

/-- The terminator of a string comes first behind its characters. -/
theorem idxOf?_append_cons [BEq α] [LawfulBEq α] {s r : List α} (hs : z ∉ s) :
    (s ++ z :: r).idxOf? z = some s.length := by
  induction s with
  | nil => simp [List.idxOf?_cons]
  | cons c s ih =>
      simp only [List.mem_cons, not_or] at hs
      rw [List.cons_append, List.idxOf?_cons, ih hs.2]
      simp [Ne.symm hs.1]

/-! ## Ends of a list -/

/-- The list starts with an element that has the property. -/
def startsIn (p : α → Bool) (l : List α) : Bool := l.head?.any p

/-- The list ends with an element that has the property. -/
def endsIn (p : α → Bool) (l : List α) : Bool := l.getLast?.any p

@[simp]
theorem startsIn_nil : startsIn p [] = false := rfl

@[simp]
theorem startsIn_cons {c : α} {l : List α} : startsIn p (c :: l) = p c := rfl

@[simp]
theorem endsIn_nil : endsIn p [] = false := rfl

@[simp]
theorem endsIn_concat {l : List α} {c : α} : endsIn p (l ++ [c]) = p c := by
  simp [endsIn]

theorem endsIn_append {l m : List α} (hm : m ≠ []) : endsIn p (l ++ m) = endsIn p m := by
  simp [endsIn, List.getLast?_append_of_ne_nil _ hm]

theorem endsIn_cons {c : α} {l : List α} (hl : l ≠ []) : endsIn p (c :: l) = endsIn p l :=
  endsIn_append (l := [c]) hl

/-- A list whose elements all have the property ends in it, unless it is empty. -/
theorem endsIn_of_forall {l : List α} (hl : l ≠ []) (h : ∀ c ∈ l, p c) :
    endsIn p l = true := by
  rw [endsIn, List.getLast?_eq_some_getLast hl, Option.any_some]
  exact h _ (List.getLast_mem hl)

/-- A list without elements of the property does not end in it. -/
theorem endsIn_of_forall_not {l : List α} (h : ∀ c ∈ l, p c = false) : endsIn p l = false := by
  rcases List.eq_nil_or_concat l with rfl | ⟨init, c, rfl⟩
  · rfl
  · rw [List.concat_eq_append] at h ⊢
    rw [endsIn_concat]
    exact h c (by simp)

/-- A list that starts in a property starts in every weaker one. -/
theorem startsIn_mono {q : α → Bool} (hpq : ∀ c, p c → q c) {l : List α}
    (h : startsIn q l = false) : startsIn p l = false := by
  cases l with
  | nil => rfl
  | cons c l =>
      rw [startsIn_cons] at h ⊢
      exact Bool.eq_false_iff.mpr (fun hc => by simp [hpq c hc] at h)

/-- A list that ends in a property ends in every weaker one. -/
theorem endsIn_mono {q : α → Bool} (hpq : ∀ c, p c → q c) {l : List α}
    (h : endsIn q l = false) : endsIn p l = false := by
  rcases List.eq_nil_or_concat l with rfl | ⟨init, c, rfl⟩
  · rfl
  · rw [List.concat_eq_append, endsIn_concat] at h ⊢
    exact Bool.eq_false_iff.mpr (fun hc => by simp [hpq c hc] at h)

theorem startsIn_dropWhile {l : List α} : startsIn p (l.dropWhile p) = false := by
  induction l with
  | nil => rfl
  | cons c l ih =>
      by_cases hc : p c
      · rwa [List.dropWhile_cons_of_pos hc]
      · rw [List.dropWhile_cons_of_neg hc]
        simpa using hc

/-! ## Trimming -/

/-- The list without its leading and trailing runs of elements with the property. -/
def trim (p : α → Bool) (l : List α) : List α := (l.dropWhile p).rdropWhile p

theorem rdropWhile_of_endsIn {l : List α} (h : endsIn p l = false) : l.rdropWhile p = l := by
  rw [List.rdropWhile_eq_self_iff]
  intro hl
  rw [endsIn, List.getLast?_eq_some_getLast hl] at h
  simpa using h

theorem dropWhile_append_of_startsIn {a t : List α} (ha : ∀ c ∈ a, p c)
    (ht : startsIn p t = false) : (a ++ t).dropWhile p = t := by
  rw [List.dropWhile_append_of_pos ha]
  cases t with
  | nil => rfl
  | cons c t => exact List.dropWhile_cons_of_neg (by simpa using ht)

/-- A list that neither starts nor ends in the property is what trimming leaves of it
behind a run of elements with the property. -/
theorem trim_append {a t : List α} (ha : ∀ c ∈ a, p c) (hstart : startsIn p t = false)
    (hend : endsIn p t = false) : trim p (a ++ t) = t := by
  rw [trim, dropWhile_append_of_startsIn ha hstart, rdropWhile_of_endsIn hend]

theorem mem_of_mem_trim {l : List α} {c : α} (h : c ∈ trim p l) : c ∈ l :=
  List.dropWhile_subset p ((List.rdropWhile_prefix p _).subset h)

end Strings
