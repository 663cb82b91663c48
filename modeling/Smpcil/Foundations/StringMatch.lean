import Mathlib.Order.Bounds.Basic
import Mathlib.Tactic.Common
import Mathlib.Data.Int.Init

/-!
# String matching

The facts about patterns and texts that the Boyer–Moore search rests on.  A pattern
{lit}`x` of length {lit}`m` and a text {lit}`y` of length {lit}`n` are functions of an
integer index, read only inside their bounds.

Main results:

- Definition {lit}`IsSuffLen`: how far a prefix of the pattern ends like the pattern.
- Theorems {lit}`IsSuffLen.copy` and {lit}`IsSuffLen.of_window`: the two ways a suffix
  length is found from earlier ones.
- Theorem {lit}`safeShift_iff`: the shifts of the good-suffix rule from suffix lengths.
- Theorems {lit}`Mismatch.no_occurrence` and {lit}`Occurs.no_occurrence`: no shift of the
  search jumps over an occurrence.
- Theorems {lit}`IsSuffLen.isCommonSuffixLen` and {lit}`isLeast_period`: suffix lengths and
  safe shifts as suffixes and periods of a list.
-/

namespace StringMatch

variable {α : Type} {x y : Int → α} {m n : Int}

/-! ## Suffix lengths -/

/-- The longest common suffix of {lit}`x[0..i]` and {lit}`x` has {lit}`k` characters. -/
def IsSuffLen (x : Int → α) (m i k : Int) : Prop :=
  0 ≤ k ∧ k ≤ i + 1 ∧ (∀ t, 0 ≤ t → t < k → x (i - t) = x (m - 1 - t)) ∧
    (k = i + 1 ∨ x (i - k) ≠ x (m - 1 - k))

/-- Behind position {lit}`g` and up to {lit}`f` the pattern reads like its own end, and at
{lit}`g` it does not. -/
def Window (x : Int → α) (m f g : Int) : Prop :=
  (∀ t, g < t → t ≤ f → x t = x (t + (m - 1 - f))) ∧ (g < 0 ∨ x g ≠ x (g + (m - 1 - f)))

/-- There is only one longest common suffix. -/
theorem IsSuffLen.unique {i k k' : Int} (h : IsSuffLen x m i k) (h' : IsSuffLen x m i k') :
    k = k' := by
  have key : ∀ {a b : Int}, IsSuffLen x m i a → IsSuffLen x m i b → ¬ a < b := by
    intro a b ha hb hlt
    rcases ha.2.2.2 with heq | hne
    · have hle := hb.2.1
      omega
    · exact hne (hb.2.2.1 a ha.1 hlt)
  have h₁ := key h h'
  have h₂ := key h' h
  omega

/-- The whole pattern is its own longest suffix. -/
theorem isSuffLen_last (hm : 0 ≤ m) : IsSuffLen x m (m - 1) m :=
  ⟨hm, by omega, fun _ _ _ => rfl, Or.inl (by omega)⟩

/-- A suffix length that ends inside a window is that of the mirror position. -/
theorem IsSuffLen.copy {f g c k : Int} (hw : Window x m f g) (hcf : c ≤ f)
    (h : IsSuffLen x m (c + (m - 1 - f)) k) (hlt : k < c - g) (hg : -1 ≤ g) (hf : f < m) :
    IsSuffLen x m c k := by
  rcases h with ⟨hnonneg, -, hmatch, hend⟩
  -- inside the window the prefix reads like the mirror position
  have hmirror : ∀ t, 0 ≤ t → t < c - g → x (c - t) = x (c + (m - 1 - f) - t) := by
    intro t h₁ h₂
    rw [hw.1 (c - t) (by omega) (by omega)]
    congr 1
    omega
  refine ⟨hnonneg, by omega, ?_, ?_⟩
  · intro t h₁ h₂
    rw [hmirror t h₁ (by omega)]
    exact hmatch t h₁ h₂
  · refine Or.inr ?_
    rw [hmirror k hnonneg hlt]
    exact hend.resolve_left (by omega)

/-- A suffix length that fills a window starts the comparison at its left end. -/
theorem IsSuffLen.fill {f g c k : Int} (hw : Window x m f g) (hcf : c ≤ f)
    (h : IsSuffLen x m (c + (m - 1 - f)) k) (hge : c - g ≤ k) :
    ∀ t, g < t → t ≤ c → x t = x (t + (m - 1 - c)) := by
  intro t h₁ h₂
  have hmatch := h.2.2.1 (c - t) (by omega) (by omega)
  rw [hw.1 t h₁ (by omega), show t + (m - 1 - f) = c + (m - 1 - f) - (c - t) by omega, hmatch]
  congr 1
  omega

/-- The window that ends at a position is as long as its suffix length. -/
theorem IsSuffLen.of_window {g c : Int} (hw : Window x m c g) (hgc : g ≤ c) (hg : -1 ≤ g) :
    IsSuffLen x m c (c - g) := by
  refine ⟨by omega, by omega, ?_, ?_⟩
  · intro t h₁ h₂
    rw [hw.1 (c - t) (by omega) (by omega)]
    congr 1
    omega
  · by_cases hneg : g < 0
    · exact Or.inl (by omega)
    · refine Or.inr ?_
      have hne := hw.2.resolve_left hneg
      rwa [show c - (c - g) = g by omega, show m - 1 - (c - g) = g + (m - 1 - c) by omega]

/-! ## The good-suffix rule -/

/-- Moved right by {lit}`s`, the pattern agrees with what it matched behind {lit}`i` and
differs from its own character at {lit}`i`. -/
def SafeShift (x : Int → α) (m i s : Int) : Prop :=
  1 ≤ s ∧ s ≤ m ∧ (∀ k, i < k → k < m → s ≤ k → x (k - s) = x k) ∧ (s ≤ i → x (i - s) ≠ x i)

/-- A shift after which the beginning of the pattern lies on its end. -/
def BorderShift (suff : Int → Int) (m s : Int) : Prop :=
  1 ≤ s ∧ s < m ∧ suff (m - 1 - s) = m - s

/-- A shift by the whole pattern is always safe. -/
theorem safeShift_length {i : Int} (hi : 0 ≤ i) (him : i < m) : SafeShift x m i m :=
  ⟨by omega, Int.le_refl m, fun _ _ _ _ => by omega, fun _ => by omega⟩

/-- The safe shifts below the length, from the suffix lengths: the matched part occurs
again inside the pattern, or a part of it is a prefix of the pattern. -/
theorem safeShift_iff {suff : Int → Int} (hsuff : ∀ i, 0 ≤ i → i < m → IsSuffLen x m i (suff i))
    {p s : Int} (hpm : p < m) (hs : 1 ≤ s) (hsm : s < m) :
    SafeShift x m p s ↔
      (s ≤ p ∧ suff (m - 1 - s) = m - 1 - p) ∨ (p < s ∧ BorderShift suff m s) := by
  have hlen := hsuff (m - 1 - s) (by omega) (by omega)
  -- agreement behind `p` in terms of positions counted from the end
  have hcount : (∀ k, p < k → k < m → s ≤ k → x (k - s) = x k) ↔
      ∀ t, 0 ≤ t → t < m - 1 - p → t < m - s → x (m - 1 - s - t) = x (m - 1 - t) := by
    constructor
    · intro h t h₁ h₂ h₃
      have hk := h (m - 1 - t) (by omega) (by omega) (by omega)
      rwa [show m - 1 - t - s = m - 1 - s - t by omega] at hk
    · intro h k h₁ h₂ h₃
      have ht := h (m - 1 - k) (by omega) (by omega) (by omega)
      rwa [show m - 1 - s - (m - 1 - k) = k - s by omega,
        show m - 1 - (m - 1 - k) = k by omega] at ht
  rw [SafeShift, hcount]
  constructor
  · rintro ⟨-, -, hmatch, hdiff⟩
    by_cases hsp : s ≤ p
    · refine Or.inl ⟨hsp, hlen.unique ⟨by omega, by omega, ?_, Or.inr ?_⟩⟩
      · exact fun t h₁ h₂ => hmatch t h₁ h₂ (by omega)
      · have hne := hdiff hsp
        rwa [show m - 1 - s - (m - 1 - p) = p - s by omega, show m - 1 - (m - 1 - p) = p by omega]
    · refine Or.inr ⟨by omega, hs, hsm, hlen.unique ⟨by omega, by omega, ?_, Or.inl (by omega)⟩⟩
      exact fun t h₁ h₂ => hmatch t h₁ (by omega) h₂
  · rintro (⟨hsp, heq⟩ | ⟨hps, -, -, heq⟩)
    · rw [heq] at hlen
      refine ⟨hs, by omega, fun t h₁ h₂ _ => hlen.2.2.1 t h₁ h₂, fun _ => ?_⟩
      have hne := hlen.2.2.2.resolve_left (by omega)
      rwa [show m - 1 - s - (m - 1 - p) = p - s by omega,
        show m - 1 - (m - 1 - p) = p by omega] at hne
    · rw [heq] at hlen
      exact ⟨hs, by omega, fun t h₁ _ h₃ => hlen.2.2.1 t h₁ h₃, fun hle => by omega⟩

/-- The shifts among which the good-suffix table takes the least for {lit}`p`, when the
suffix lengths below {lit}`stop` have been entered. -/
def Candidate (suff : Int → Int) (m stop p s : Int) : Prop :=
  (p < s ∧ (BorderShift suff m s ∨ s = m)) ∨
    ∃ i, 0 ≤ i ∧ i < stop ∧ suff i = m - 1 - p ∧ s = m - 1 - i

/-- In the end the candidates are the safe shifts. -/
theorem candidate_iff_safeShift {suff : Int → Int}
    (hsuff : ∀ i, 0 ≤ i → i < m → IsSuffLen x m i (suff i)) {p s : Int} (hp : 0 ≤ p) (hpm : p < m) :
    Candidate suff m (m - 1) p s ↔ SafeShift x m p s := by
  constructor
  · rintro (⟨hps, hborder | rfl⟩ | ⟨i, hi, him, heq, rfl⟩)
    · exact (safeShift_iff hsuff hpm hborder.1 hborder.2.1).mpr (Or.inr ⟨hps, hborder⟩)
    · exact safeShift_length hp hpm
    · refine (safeShift_iff hsuff hpm (by omega) (by omega)).mpr ?_
      have hback : m - 1 - (m - 1 - i) = i := by omega
      by_cases hle : m - 1 - i ≤ p
      · exact Or.inl ⟨hle, by rw [hback, heq]⟩
      · -- the matched part would stick out, so it is all that is left of the pattern
        have hlen := (hsuff i hi (by omega)).2.1
        exact Or.inr ⟨by omega, by omega, by omega, by rw [hback]; omega⟩
  · intro h
    by_cases hsm : s = m
    · exact Or.inl ⟨by omega, Or.inr hsm⟩
    · have hs := h.1
      have hle := h.2.1
      rcases (safeShift_iff hsuff hpm hs (by omega)).mp h with ⟨hsp, heq⟩ | ⟨hps, hborder⟩
      · exact Or.inr ⟨m - 1 - s, by omega, by omega, heq, by omega⟩
      · exact Or.inl ⟨hps, Or.inl hborder⟩

/-- Entering a suffix length gives its place of the table a smaller shift. -/
theorem Candidate.least_succ_eq {suff : Int → Int} {i : Int} (hi : 0 ≤ i)
    (hle : suff i ≤ i + 1) :
    IsLeast {s | Candidate suff m (i + 1) (m - 1 - suff i) s} (m - 1 - i) := by
  constructor
  · exact Or.inr ⟨i, hi, by omega, by omega, rfl⟩
  · rintro s (⟨hps, -⟩ | ⟨i', -, hlt, -, rfl⟩)
    · omega
    · omega

/-- Entering a suffix length changes no other place of the table. -/
theorem Candidate.least_succ_ne {suff : Int → Int} {i p v : Int} (hne : p ≠ m - 1 - suff i)
    (h : IsLeast {s | Candidate suff m i p s} v) :
    IsLeast {s | Candidate suff m (i + 1) p s} v := by
  have hsame : ∀ s, Candidate suff m (i + 1) p s ↔ Candidate suff m i p s := by
    intro s
    constructor
    · rintro (hold | ⟨i', hi', hlt, heq, hs⟩)
      · exact Or.inl hold
      · have hlast : i' ≠ i := by
          rintro rfl
          omega
        exact Or.inr ⟨i', hi', by omega, heq, hs⟩
    · rintro (hold | ⟨i', hi', hlt, heq, hs⟩)
      · exact Or.inl hold
      · exact Or.inr ⟨i', hi', by omega, heq, hs⟩
  simpa only [hsame] using h

/-! ## The bad-character rule -/

/-- The last place of {lit}`c` among the first {lit}`i` characters, counted from the end of
the pattern; one before the first place if there is none. -/
def LastPlace (x : Int → α) (m i : Int) (c : α) (b : Int) : Prop :=
  IsGreatest {r | r = -1 ∨ (0 ≤ r ∧ r < i ∧ x r = c)} (m - 1 - b)

/-- The entry of the bad-character table. -/
def BadShift (x : Int → α) (m : Int) (c : α) (b : Int) : Prop := LastPlace x m (m - 1) c b

theorem lastPlace_zero (c : α) : LastPlace x m 0 c m := by
  refine ⟨Or.inl (by omega), ?_⟩
  rintro r (rfl | ⟨h₁, h₂, -⟩)
  · omega
  · omega

theorem LastPlace.succ_eq {i : Int} (hi : 0 ≤ i) : LastPlace x m (i + 1) (x i) (m - 1 - i) := by
  refine ⟨Or.inr ⟨by omega, by omega, ?_⟩, ?_⟩
  · congr 1
    omega
  · rintro r (rfl | ⟨-, h₂, -⟩)
    · omega
    · omega

theorem LastPlace.succ_ne {i b : Int} {c : α} (h : LastPlace x m i c b) (hne : x i ≠ c) :
    LastPlace x m (i + 1) c b := by
  rcases h with ⟨hmem, hmax⟩
  constructor
  · rcases hmem with heq | ⟨h₁, h₂, h₃⟩
    · exact Or.inl heq
    · exact Or.inr ⟨h₁, by omega, h₃⟩
  · rintro r (rfl | ⟨h₁, h₂, h₃⟩)
    · exact hmax (Or.inl rfl)
    · by_cases heq : r = i
      · exact absurd (heq ▸ h₃) hne
      · exact hmax (Or.inr ⟨h₁, by omega, h₃⟩)

theorem BadShift.le {c : α} {b : Int} (h : BadShift x m c b) : b ≤ m := by
  have hle := h.2 (Or.inl rfl)
  omega

/-! ## Alignments -/

/-- The pattern occurs in the text at {lit}`j`. -/
def Occurs (x : Int → α) (m : Int) (y : Int → α) (j : Int) : Prop :=
  ∀ i, 0 ≤ i → i < m → x i = y (i + j)

/-- Compared from its end at {lit}`j`, the pattern differs from the text first at
{lit}`i`. -/
def Mismatch (x : Int → α) (m : Int) (y : Int → α) (j i : Int) : Prop :=
  0 ≤ i ∧ i < m ∧ (∀ k, i < k → k < m → x k = y (k + j)) ∧ x i ≠ y (i + j)

theorem Mismatch.not_occurs {j i : Int} (h : Mismatch x m y j i) : ¬ Occurs x m y j :=
  fun hocc => h.2.2.2 (hocc i h.1 h.2.1)

theorem Mismatch.unique {j i i' : Int} (h : Mismatch x m y j i) (h' : Mismatch x m y j i') :
    i = i' := by
  have key : ∀ {a b : Int}, Mismatch x m y j a → Mismatch x m y j b → ¬ a < b := by
    intro a b ha hb hlt
    exact hb.2.2.2 (ha.2.2.1 b hlt hb.2.1)
  have h₁ := key h h'
  have h₂ := key h' h
  omega

/-- A later occurrence within the length of the pattern is a safe shift away. -/
theorem Mismatch.safeShift {j i s : Int} (h : Mismatch x m y j i) (hs : 1 ≤ s) (hsm : s ≤ m)
    (hocc : Occurs x m y (j + s)) : SafeShift x m i s := by
  refine ⟨hs, hsm, ?_, ?_⟩
  · intro k h₁ h₂ h₃
    rw [hocc (k - s) (by omega) (by omega), h.2.2.1 k h₁ h₂]
    congr 1
    omega
  · intro hle heq
    apply h.2.2.2
    rw [← heq, hocc (i - s) (by omega) (by have := h.2.1; omega)]
    congr 1
    omega

/-- The shift after a mismatch jumps over no occurrence. -/
theorem Mismatch.no_occurrence {j i b g s : Int} (h : Mismatch x m y j i)
    (hb : BadShift x m (y (i + j)) b) (hg : IsLeast {s | SafeShift x m i s} g) (hs : 1 ≤ s)
    (hlt : s < max (b - m + 1 + i) g) : ¬ Occurs x m y (j + s) := by
  intro hocc
  by_cases hbad : s < b - m + 1 + i
  · -- the character of the text that did not match would lie on a place behind the last one
    have hle := hb.le
    have hplace := hb.2 (show i - s = -1 ∨ (0 ≤ i - s ∧ i - s < m - 1 ∧ x (i - s) = y (i + j)) by
      by_cases hneg : i - s = -1
      · exact Or.inl hneg
      · refine Or.inr ⟨by omega, by have := h.2.1; omega, ?_⟩
        rw [hocc (i - s) (by omega) (by have := h.2.1; omega)]
        congr 1
        omega)
    omega
  · have hsafe := hg.1.2.1
    have hgood : s < g := by omega
    have hmin := hg.2 (h.safeShift hs (by omega) hocc)
    omega

/-- The shift after an occurrence jumps over no other one. -/
theorem Occurs.no_occurrence {j g s : Int} (h : Occurs x m y j)
    (hg : IsLeast {s | SafeShift x m 0 s} g) (hs : 1 ≤ s) (hlt : s < g) :
    ¬ Occurs x m y (j + s) := by
  intro hocc
  have hgm := hg.1.2.1
  have hsafe : SafeShift x m 0 s := by
    refine ⟨hs, by omega, ?_, fun hle => by omega⟩
    intro k h₁ h₂ h₃
    rw [hocc (k - s) (by omega) (by omega), h k (by omega) h₂]
    congr 1
    omega
  have hmin := hg.2 hsafe
  omega

/-! ## The search -/

/-- The alignments that a search of {lit}`y[0..n)` tries before it has found {lit}`limit`
occurrences, each with the number of those found before. -/
inductive Tried (x : Int → α) (m : Int) (y : Int → α) (n limit : Int) : Int → Int → Prop where
  | start : Tried x m y n limit 0 0
  | found {j c g : Int} : Tried x m y n limit j c → j ≤ n - m → Occurs x m y j →
      c + 1 < limit → IsLeast {s | SafeShift x m 0 s} g → Tried x m y n limit (j + g) (c + 1)
  | skip {j c i b g : Int} : Tried x m y n limit j c → j ≤ n - m → Mismatch x m y j i →
      BadShift x m (y (i + j)) b → IsLeast {s | SafeShift x m i s} g →
      Tried x m y n limit (j + max (b - m + 1 + i) g) c

/-- The search moves to the right. -/
theorem Tried.nonneg {limit j c : Int} (h : Tried x m y n limit j c) : 0 ≤ j := by
  induction h with
  | start => exact Int.le_refl 0
  | found _ _ _ _ hg ih =>
      have hpos := hg.1.1
      omega
  | skip _ _ _ _ hg ih =>
      have hpos := hg.1.1
      omega

/-- The search goes on only below the limit. -/
theorem Tried.count {limit j c : Int} (h : Tried x m y n limit j c) :
    0 ≤ c ∧ (c = 0 ∨ c < limit) := by
  induction h with
  | start => simp
  | found _ _ _ hlt _ ih => omega
  | skip _ _ _ _ _ ih => exact ih

/-- A search with a larger limit tries no alignment less. -/
theorem Tried.mono {limit limit' j c : Int} (hle : limit ≤ limit')
    (h : Tried x m y n limit j c) : Tried x m y n limit' j c := by
  induction h with
  | start => exact .start
  | found _ hjn hocc hlt hg ih => exact .found ih hjn hocc (by omega) hg
  | skip _ hjn hmis hb hg ih => exact .skip ih hjn hmis hb hg

/-- The entry of the bad-character table is determined. -/
theorem BadShift.unique {c : α} {b b' : Int} (h : BadShift x m c b) (h' : BadShift x m c b') :
    b = b' := by
  have heq := IsGreatest.unique h h'
  omega

/-! ## Lists -/

section Lists

/-- A list as a function of an integer index. -/
def ofList (d : α) (w : List α) (i : Int) : α := w.getD i.toNat d

theorem ofList_natCast {d : α} {w : List α} {i : Nat} (h : i < w.length) :
    ofList d w i = w[i] := by
  simp [ofList, h]

/-- The length of the longest common suffix of two lists. -/
def IsCommonSuffixLen (u v : List α) (k : Nat) : Prop :=
  IsGreatest {n | ∃ w, w.length = n ∧ w <:+ u ∧ w <:+ v} k

/-- A suffix counted from its end. -/
theorem suffix_iff_getElem {u w : List α} :
    w <:+ u ↔ ∃ hle : w.length ≤ u.length, ∀ (t : Nat) (ht : t < w.length),
      w[w.length - 1 - t] = u[u.length - 1 - t] := by
  constructor
  case mp =>
    rintro ⟨v, rfl⟩
    refine ⟨by simp, fun t ht => ?_⟩
    rw [List.getElem_append_right (by simp; omega)]
    congr 1
    simp only [List.length_append]
    omega
  case mpr =>
    rintro ⟨hle, hsame⟩
    rw [List.suffix_iff_eq_drop]
    apply List.ext_getElem
    · rw [List.length_drop]
      omega
    · intro i h₁ h₂
      have hi := hsame (w.length - 1 - i) (by omega)
      rw [List.getElem_drop]
      convert hi using 2 <;> omega

/-- The suffix lengths of a list are those of its longest common suffixes. -/
theorem IsSuffLen.isCommonSuffixLen {d : α} {w : List α} {i : Nat} {k : Int}
    (h : IsSuffLen (ofList d w) w.length i k) (hi : i < w.length) :
    IsCommonSuffixLen (w.take (i + 1)) w k.toNat := by
  rcases h with ⟨hk₀, hk₁, hmatch, hend⟩
  -- the characters counted from the end of the prefix and from the end of the list
  have hleft : ∀ t : Nat, t ≤ i → ofList d w ((i : Int) - t) = w[i - t] := by
    intro t ht
    rw [show (i : Int) - t = ((i - t : Nat) : Int) by omega, ofList_natCast]
  have hright : ∀ t : Nat, t < w.length →
      ofList d w ((w.length : Int) - 1 - t) = w[w.length - 1 - t] := by
    intro t ht
    rw [show (w.length : Int) - 1 - t = ((w.length - 1 - t : Nat) : Int) by omega, ofList_natCast]
  have hlen : (w.take (i + 1)).length = i + 1 := by
    rw [List.length_take]
    omega
  constructor
  · refine ⟨w.drop (w.length - k.toNat), by rw [List.length_drop]; omega, ?_,
      List.drop_suffix _ _⟩
    rw [suffix_iff_getElem]
    refine ⟨by rw [List.length_drop, hlen]; omega, fun t ht => ?_⟩
    rw [List.length_drop] at ht
    have hsame := hmatch t (by omega) (by omega)
    rw [hleft t (by omega), hright t (by omega)] at hsame
    simp only [List.getElem_drop, List.getElem_take, List.length_drop, hlen]
    convert hsame.symm using 2 <;> omega
  · rintro n ⟨u, rfl, hu, hw⟩
    rw [suffix_iff_getElem] at hu hw
    rcases hu with ⟨hule, hu⟩
    rcases hw with ⟨hwle, hw⟩
    rw [hlen] at hule
    by_contra hlt
    rcases hend with heq | hne
    · omega
    · apply hne
      have hk : k = (k.toNat : Int) := by omega
      rw [hk, hleft k.toNat (by omega), hright k.toNat (by omega)]
      have h₁ := hu k.toNat (by omega)
      have h₂ := hw k.toNat (by omega)
      simp only [List.getElem_take, hlen] at h₁
      rw [h₁] at h₂
      convert h₂ using 2
      omega

/-- After a full match the safe shifts are those by which the list lies on itself. -/
theorem safeShift_zero_iff {d : α} {w : List α} {s : Nat} (hs : 1 ≤ s) (hsw : s ≤ w.length) :
    SafeShift (ofList d w) w.length 0 s ↔ w.drop s <+: w := by
  rw [List.prefix_iff_getElem?]
  constructor
  case mp =>
    rintro ⟨-, -, hmatch, -⟩ i hi
    rw [List.length_drop] at hi
    have hsame := hmatch (s + i : Nat) (by omega) (by omega) (by omega)
    rw [ofList_natCast (by omega), show ((s + i : Nat) : Int) - s = (i : Nat) by omega,
      ofList_natCast (by omega)] at hsame
    rw [List.getElem?_eq_getElem (by omega), hsame, List.getElem_drop]
  case mpr =>
    intro hpre
    refine ⟨by omega, by omega, fun k h₀ h₁ h₂ => ?_, fun hle => by omega⟩
    obtain ⟨i, rfl⟩ : ∃ i : Nat, k = (s + i : Nat) := ⟨(k - s).toNat, by omega⟩
    have hi := hpre i (by rw [List.length_drop]; omega)
    rw [List.getElem?_eq_getElem (by omega), Option.some.injEq, List.getElem_drop] at hi
    rw [ofList_natCast (by omega), show ((s + i : Nat) : Int) - s = (i : Nat) by omega,
      ofList_natCast (by omega), hi]

/-- The least safe shift after a full match is the period of the list. -/
theorem isLeast_period {d : α} {w : List α} {g : Int}
    (h : IsLeast {s | SafeShift (ofList d w) w.length 0 s} g) :
    IsLeast {s | 1 ≤ s ∧ w.drop s <+: w} g.toNat := by
  have hg := h.1
  have hpos := hg.1
  have hle := hg.2.1
  constructor
  · refine ⟨by omega, (safeShift_zero_iff (d := d) (by omega) (by omega)).mp ?_⟩
    rwa [show ((g.toNat : Nat) : Int) = g by omega]
  · rintro s ⟨hs, hpre⟩
    by_cases hsw : s ≤ w.length
    · have hmin := h.2 ((safeShift_zero_iff hs hsw).mpr hpre)
      omega
    · omega

end Lists

end StringMatch
