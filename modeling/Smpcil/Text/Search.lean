import Smpcil.Text.Tables
import Smpcil.Foundations.Occurrences

/-!
# What a search finds

One pass of the search for each of its branches, and from the passes what a whole search
leaves in the result array.

Main results:

- Theorem {lit}`comparePass_spec`: the comparison decides whether the pattern occurs.
- Theorems {lit}`searchPass_found`, {lit}`searchPass_skip` and {lit}`searchPass_last`: the
  passes of a search.
- Theorem {lit}`search_spec`: a search over characters that are not negative collects the
  occurrences.
- Theorem {lit}`boyerMoore_ok_iff`: the strings that can be searched without a fault.
-/

namespace Smpcil
namespace Text

open Loops StringMatch Occurrences

/-! ## Numbers -/

theorem toInt_eq {k : Nat} (h : k < 2 ^ 31) : toInt k = k := by
  unfold toInt
  rw [Int.bmod_def]
  omega

theorem toInt_le (k : Nat) : toInt k ≤ k := by
  unfold toInt
  rw [Int.bmod_def]
  omega

theorem toInt_lt (k : Nat) : toInt k < 2 ^ 31 := by
  unfold toInt
  rw [Int.bmod_def]
  omega

theorem le_toInt (k : Nat) : -2 ^ 31 ≤ toInt k := by
  unfold toInt
  rw [Int.bmod_def]
  omega

theorem smpIntMax_eq (a b : Int) : smpIntMax a b = max a b := by
  unfold smpIntMax
  split_ifs <;> omega

/-! ## Occurrences -/

/-- The first {lit}`m` characters. -/
def CString.first (s : CString) (m : Int) : List Int8 := s.bytes.take m.toNat

variable {substr text : CString} {m n : Int}

theorem CString.char_getElem {s : CString} {i : Nat} (h : i < s.bytes.length) :
    s.char i = s.bytes[i] := by
  simp [CString.char, List.getD_eq_getElem?_getD, h]

/-- Before its end a string holds no terminator. -/
theorem CString.char_ne_zero {s : CString} {i : Int} (h₀ : 0 ≤ i) (h₁ : i < s.strlen) :
    s.char i ≠ 0 := by
  obtain ⟨k, rfl⟩ : ∃ k : Nat, i = k := ⟨i.toNat, by omega⟩
  have hk : k < s.bytes.length := by
    unfold CString.strlen at h₁
    omega
  rw [CString.char_getElem hk]
  intro hzero
  exact s.noNul (hzero ▸ List.getElem_mem hk)

/-- From its end on a string reads as the terminator. -/
theorem CString.char_eq_zero {s : CString} {i : Int} (h : s.strlen ≤ i) : s.char i = 0 := by
  have hk : s.bytes.length ≤ i.toNat := by
    unfold CString.strlen at h
    omega
  simp [CString.char, List.getD_eq_getElem?_getD, hk]

theorem CString.getElem_first {s : CString} {i : Nat} (h : i < (s.first m).length)
    (h' : i < s.bytes.length) : (s.first m)[i] = s.bytes[i] := List.getElem_take

/-- Where the pattern occurs, as a function and as a list. -/
theorem occurs_iff {j : Nat} (hlen : m ≤ substr.strlen) :
    Occurs substr.char m text.char j ↔ substr.first m <+: text.bytes.drop j := by
  have hfirst : (substr.first m).length = m.toNat := by
    unfold CString.first
    unfold CString.strlen at hlen
    rw [List.length_take]
    omega
  rw [List.prefix_iff_getElem?]
  constructor
  · intro hocc i hi
    have hsame := hocc i (by omega) (by omega)
    have hin : i + j < text.bytes.length := by
      by_contra hout
      have hzero : text.char ((i : Int) + j) = 0 := CString.char_eq_zero (by
        unfold CString.strlen
        omega)
      exact CString.char_ne_zero (by omega) (by omega) (hsame.trans hzero)
    have hsub : i < substr.bytes.length := by
      unfold CString.strlen at hlen
      omega
    rw [CString.char_getElem hsub, show (i : Int) + j = ((i + j : Nat) : Int) by omega,
      CString.char_getElem hin] at hsame
    rw [List.getElem?_drop, List.getElem?_eq_getElem (by omega)]
    rw [CString.getElem_first hi hsub, hsame]
    simp only [Nat.add_comm]
  · intro hpre i h₀ h₁
    obtain ⟨k, rfl⟩ : ∃ k : Nat, i = k := ⟨i.toNat, by omega⟩
    have hget := hpre k (by omega)
    rw [List.getElem?_drop, List.getElem?_eq_some_iff] at hget
    rcases hget with ⟨hin, heq⟩
    have hsub : k < substr.bytes.length := by
      unfold CString.strlen at hlen
      omega
    rw [CString.getElem_first (by omega) hsub] at heq
    rw [CString.char_getElem hsub, show (k : Int) + j = ((j + k : Nat) : Int) by omega,
      CString.char_getElem hin, heq]

/-! ## Passes -/

/-- The comparison at an alignment inside the text. -/
theorem comparePass_spec {j : Int} (hm : 0 ≤ m) (hlen : m ≤ substr.strlen) (hj : 0 ≤ j)
    (hjm : j + m ≤ text.strlen) :
    ∃ i, loop .diverged (comparePass substr text j) (m.toNat + 1) (m - 1) = .ok i ∧
      ((i < 0 ∧ Occurs substr.char m text.char j) ∨ Mismatch substr.char m text.char j i) := by
  apply loop_spec (fun k i => (k : Int) = i + 1 ∧ i < m ∧
    ∀ t, i < t → t < m → substr.char t = text.char (t + j))
    (fun i => (i < 0 ∧ Occurs substr.char m text.char j) ∨ Mismatch substr.char m text.char j i)
  · rintro k i ⟨hk, him, hmatch⟩
    by_cases hneg : i < 0
    · refine Or.inl ⟨i, ?_, Or.inl ⟨hneg, fun t h₀ h₁ => hmatch t (by omega) h₁⟩⟩
      simp [comparePass, show ¬ i ≥ 0 by omega]
    · have hread : substr.read i = .ok (substr.char i) := CString.read_eq (by omega) (by omega)
      have hread' : text.read (i + j) = .ok (text.char (i + j)) :=
        CString.read_eq (by omega) (by omega)
      by_cases heq : substr.char i = text.char (i + j)
      · refine Or.inr ⟨i - 1, i.toNat, ?_, ⟨by omega, by omega, ?_⟩, by omega⟩
        · simp [comparePass, show i ≥ 0 by omega, hread, hread', heq]
        · intro t h₀ h₁
          by_cases hti : t = i
          · exact hti ▸ heq
          · exact hmatch t (by omega) h₁
      · refine Or.inl ⟨i, ?_, Or.inr ⟨by omega, him, hmatch, heq⟩⟩
        simp [comparePass, show i ≥ 0 by omega, hread, hread', heq]
  · show ((m.toNat : Nat) : Int) = m - 1 + 1 ∧ m - 1 < m ∧
      ∀ t, m - 1 < t → t < m → substr.char t = text.char (t + j)
    exact ⟨by omega, by omega, fun t h₀ h₁ => by omega⟩
  · omega

/-- A search is under way: the pattern and the text are long enough, and the tables are
right. -/
structure Tables (substr text : CString) (m n : Int) (bc gs : IntArray) : Prop where
  pos : 1 ≤ m
  substrLen : m ≤ substr.strlen
  textLen : n ≤ text.strlen
  bad : BadTable substr m bc
  good : GoodTable substr m gs
  fits : m ≤ bmSize

section Passes

variable {bc gs sub : IntArray} {j c i limit : Int}

/-- The comparison of a pass. -/
theorem Tables.compare (h : Tables substr text m n bc gs) (hj : 0 ≤ j) (hjn : j ≤ n - m) :
    ∃ i, loop .diverged (comparePass substr text j) (m.toNat + 1) (m - 1) = .ok i ∧
      ((i < 0 ∧ Occurs substr.char m text.char j) ∨ Mismatch substr.char m text.char j i) := by
  have hpos := h.pos
  have htext := h.textLen
  exact comparePass_spec (by omega) h.substrLen hj (by omega)

/-- A pass that finds an occurrence. -/
theorem searchPass_found (h : Tables substr text m n bc gs) (hj : 0 ≤ j) (hjn : j ≤ n - m)
    (hocc : Occurs substr.char m text.char j) (hc : 0 ≤ c) (hroom : c + 1 < sub.size)
    (hlimit : sub.get 0 = some limit) :
    ∃ g, IsLeast {d | SafeShift substr.char m 0 d} g ∧
      searchPass substr m text (n - m) bc gs (j, c, sub) =
        if c + 1 ≥ limit then .ok (.done (sub.put (c + 1) j))
        else .ok (.again (j + g, c + 1, sub.put (c + 1) j)) := by
  rcases h.compare hj hjn with ⟨i, hrun, ⟨hneg, -⟩ | hmis⟩
  · rcases h.good.2 0 (Int.le_refl 0) (by have := h.pos; omega) with ⟨g, hget, hleast⟩
    have hsize : (0 : Int) < gs.size := by
      rw [h.good.1]
      decide
    have hshift : gs.read 0 = .ok g := IntArray.read_eq (Int.le_refl 0) hsize hget
    have hstored : (sub.put (c + 1) j).get 0 = some limit := by
      rw [IntArray.get_put (by omega) (Int.le_refl 0), if_neg (by omega), hlimit]
    have hread : (sub.put (c + 1) j).read 0 = .ok limit :=
      IntArray.read_eq (Int.le_refl 0) (by rw [IntArray.put_size]; omega) hstored
    refine ⟨g, hleast, ?_⟩
    simp only [searchPass, hjn, if_true, hrun, Exec.ok_bind, hneg,
      IntArray.write_eq (show 0 ≤ c + 1 by omega) hroom, hshift, hread, Exec.pure_eq]
  · exact absurd hocc hmis.not_occurs

/-- A pass that skips an alignment. -/
theorem searchPass_skip (c : Int) (sub : IntArray) (h : Tables substr text m n bc gs) (hj : 0 ≤ j)
    (hjn : j ≤ n - m) (hmis : Mismatch substr.char m text.char j i)
    (hchar : 0 ≤ (text.char (i + j)).toInt) :
    ∃ b g, BadShift substr.char m (text.char (i + j)) b ∧
      IsLeast {d | SafeShift substr.char m i d} g ∧
      searchPass substr m text (n - m) bc gs (j, c, sub) =
        .ok (.again (j + max (b - m + 1 + i) g, c, sub)) := by
  rcases h.compare hj hjn with ⟨i', hrun, ⟨-, hocc⟩ | hmis'⟩
  · exact absurd hocc hmis.not_occurs
  · have heq := hmis'.unique hmis
    subst heq
    have hnonneg := hmis.1
    have him := hmis.2.1
    have htext := h.textLen
    have hfits := h.fits
    rcases h.bad.2 _ hchar with ⟨b, hb, hbad⟩
    rcases h.good.2 i' hnonneg him with ⟨g, hg, hleast⟩
    have hread : text.read (i' + j) = .ok (text.char (i' + j)) :=
      CString.read_eq (by omega) (by omega)
    have hbc : bc.read (text.char (i' + j)).toInt = .ok b :=
      IntArray.read_eq hchar (h.bad.1 ▸ char_lt _) hb
    have hgs : gs.read i' = .ok g := IntArray.read_eq hnonneg (by rw [h.good.1]; omega) hg
    refine ⟨b, g, hbad, hleast, ?_⟩
    simp only [searchPass, hjn, if_true, hrun, Exec.ok_bind, show ¬ i' < 0 by omega, if_false,
      hread, hbc, hgs, smpIntMax_eq, Exec.pure_eq]

/-- A pass that meets a negative character. -/
theorem searchPass_error (h : Tables substr text m n bc gs) (hj : 0 ≤ j) (hjn : j ≤ n - m)
    (hmis : Mismatch substr.char m text.char j i) (hchar : (text.char (i + j)).toInt < 0) :
    searchPass substr m text (n - m) bc gs (j, c, sub) = .error .outOfBounds := by
  rcases h.compare hj hjn with ⟨i', hrun, ⟨-, hocc⟩ | hmis'⟩
  · exact absurd hocc hmis.not_occurs
  · have heq := hmis'.unique hmis
    subst heq
    have hnonneg := hmis.1
    have him := hmis.2.1
    have htext := h.textLen
    have hread : text.read (i' + j) = .ok (text.char (i' + j)) :=
      CString.read_eq (by omega) (by omega)
    have hbc : bc.read (text.char (i' + j)).toInt = .error .outOfBounds := if_neg (by omega)
    simp only [searchPass, hjn, if_true, hrun, Exec.ok_bind, show ¬ i' < 0 by omega, if_false,
      hread, hbc, Exec.error_bind]

/-- The pass behind the last alignment. -/
theorem searchPass_last (hjn : n - m < j) (hsize : 0 < sub.size) :
    searchPass substr m text (n - m) bc gs (j, c, sub) = .ok (.done (sub.put 0 c)) := by
  simp only [searchPass, show ¬ j ≤ n - m by omega, if_false,
    IntArray.write_eq (Int.le_refl 0) (show (0 : Int) < sub.size by omega), Exec.ok_bind,
    Exec.pure_eq]

end Passes

/-! ## Searches -/

/-- The cells behind the first one hold the positions of a list. -/
def Stores (sub : IntArray) (l : List Nat) : Prop :=
  ∀ (r p : Nat), l[r]? = some p → sub.get ((r : Int) + 1) = some (p : Int)

/-- Storing one more position. -/
theorem Stores.put {sub : IntArray} {l : List Nat} {j : Nat} (h : Stores sub l) :
    Stores (sub.put ((l.length : Int) + 1) j) (l ++ [j]) := by
  intro r p hp
  rw [IntArray.get_put (by omega) (by omega)]
  by_cases hlast : r = l.length
  · subst hlast
    simp at hp
    simp [hp]
  · have hr : r < l.length := by
      have hlt := (List.getElem?_eq_some_iff.mp hp).1
      rw [List.length_append, List.length_singleton] at hlt
      omega
    rw [List.getElem?_append_left hr] at hp
    rw [if_neg (by omega), h r p hp]

/-- Storing something in the first cell. -/
theorem Stores.put_zero {sub : IntArray} {l : List Nat} {v : Int} (h : Stores sub l) :
    Stores (sub.put 0 v) l := by
  intro r p hp
  rw [IntArray.get_put (Int.le_refl 0) (by omega), if_neg (by omega), h r p hp]

/-- A shift of the search adds at most the occurrence it starts from. -/
theorem occursBelow_shift {j d : Int} (hlen : m ≤ substr.strlen) (hj : 0 ≤ j) (hd : 1 ≤ d)
    (hnone : ∀ s, 1 ≤ s → s < d → ¬ Occurs substr.char m text.char (j + s)) :
    occursBelow (substr.first m) text.bytes (j + d).toNat =
      occursBelow (substr.first m) text.bytes j.toNat ++
        if substr.first m <+: text.bytes.drop j.toNat then [j.toNat] else [] := by
  rw [show (j + d).toNat = j.toNat + d.toNat by omega]
  apply occursBelow_add
  · omega
  · intro s h₁ h₂ hocc
    apply hnone s (by omega) (by omega)
    rw [show j + (s : Int) = ((j.toNat + s : Nat) : Int) by omega]
    exact (occurs_iff hlen).mpr hocc

/-- No mismatch of the search has a negative character of the text. -/
def Clean (substr text : CString) (m n limit : Int) : Prop :=
  ∀ j c i, Tried substr.char m text.char n limit j c → j ≤ n - m →
    Mismatch substr.char m text.char j i → 0 ≤ (text.char (i + j)).toInt

/-- What a search leaves in the result array: the first positions of the pattern, and in
the first cell their number, or the limit if that was reached. -/
structure Found (substr text : CString) (m n limit : Int) (l : List Nat) (sub : IntArray) :
    Prop where
  stores : Stores sub l
  inside : ∀ p ∈ l, (p : Int) ≤ n - m
  outcome : ∃ j : Nat, l = occursBelow (substr.first m) text.bytes j ∧
    ((sub.get 0 = some limit ∧ (l.length : Int) = max limit 1) ∨
      (n - m < j ∧ sub.get 0 = some (l.length : Int) ∧ (l = [] ∨ (l.length : Int) < limit)))

/-- With a positive limit the first cell holds how many positions follow. -/
theorem Found.first_cell_eq {l : List Nat} {sub : IntArray} {limit : Int}
    (h : Found substr text m n limit l sub) (hlimit : 1 ≤ limit) :
    sub.get 0 = some (l.length : Int) := by
  rcases h.outcome with ⟨j, -, ⟨hzero, hlen⟩ | ⟨-, hzero, -⟩⟩
  · rw [hzero, hlen]
    congr 1
    omega
  · exact hzero

section Runs

variable {bc gs sub : IntArray} {limit : Int}

/-- The state of a search before the alignment {lit}`j`, with {lit}`c` occurrences found. -/
structure SearchInv (substr text : CString) (m n limit : Int) (size : Nat)
    (s : Int × Int × IntArray) : Prop where
  tried : Tried substr.char m text.char n limit s.1 s.2.1
  size : s.2.2.size = size
  limit : s.2.2.get 0 = some limit
  stores : Stores s.2.2 (occursBelow (substr.first m) text.bytes s.1.toNat)
  inside : ∀ p ∈ occursBelow (substr.first m) text.bytes s.1.toNat, (p : Int) ≤ n - m
  count : s.2.1 = (occursBelow (substr.first m) text.bytes s.1.toNat).length

/-- One pass of a search: it stops with the result, or moves to the right. -/
theorem searchPass_spec {size : Nat} {s : Int × Int × IntArray}
    (h : Tables substr text m n bc gs) (hclean : Clean substr text m n limit)
    (hone : 1 < size) (hsize : limit < size) (hs : SearchInv substr text m n limit size s) :
    (∃ r, searchPass substr m text (n - m) bc gs s = .ok (.done r) ∧ r.size = size ∧
        ∃ l, Found substr text m n limit l r) ∨
      ∃ s', searchPass substr m text (n - m) bc gs s = .ok (.again s') ∧ s.1 ≤ n - m ∧
        s.1 < s'.1 ∧ SearchInv substr text m n limit size s' := by
  rcases s with ⟨j, c, sub⟩
  rcases hs with ⟨htried, hsub, hlimit, hstores, hinside, hcount⟩
  simp only at htried hsub hlimit hstores hinside hcount
  have hj := htried.nonneg
  have hc := htried.count
  by_cases hjn : j ≤ n - m
  · rcases h.compare hj hjn with ⟨i, -, ⟨-, hocc⟩ | hmis⟩
    · rcases searchPass_found h hj hjn hocc hc.1 (by omega) hlimit with
        ⟨g, hleast, hpass⟩
      have hg := hleast.1.1
      have hpre : substr.first m <+: text.bytes.drop j.toNat := by
        rw [← occurs_iff h.substrLen, show ((j.toNat : Nat) : Int) = j by omega]
        exact hocc
      have hnext : ∀ d, 1 ≤ d → d ≤ g → occursBelow (substr.first m) text.bytes (j + d).toNat =
          occursBelow (substr.first m) text.bytes j.toNat ++ [j.toNat] := by
        intro d h₁ h₂
        rw [occursBelow_shift h.substrLen hj h₁
          fun s h₃ h₄ => hocc.no_occurrence hleast h₃ (by omega), if_pos hpre]
      have hput : Stores (sub.put (c + 1) j)
          (occursBelow (substr.first m) text.bytes j.toNat ++ [j.toNat]) := by
        have hnew := hstores.put (j := j.toNat)
        rwa [← hcount, show ((j.toNat : Nat) : Int) = j by omega] at hnew
      have hin : ∀ p ∈ occursBelow (substr.first m) text.bytes j.toNat ++ [j.toNat],
          (p : Int) ≤ n - m := by
        intro p hp
        rcases List.mem_append.mp hp with hp | hp
        · exact hinside p hp
        · rw [List.mem_singleton] at hp
          omega
      have hzero : (sub.put (c + 1) j).get 0 = some limit := by
        rw [IntArray.get_put (by omega) (Int.le_refl 0), if_neg (by omega), hlimit]
      by_cases hstop : c + 1 ≥ limit
      · refine Or.inl ⟨_, hpass.trans (if_pos hstop), hsub, _, hput, hin, (j + 1).toNat, ?_, ?_⟩
        · rw [hnext 1 (Int.le_refl 1) hg]
        · refine Or.inl ⟨hzero, ?_⟩
          rw [List.length_append, List.length_singleton]
          push_cast
          omega
      · refine Or.inr ⟨_, hpass.trans (if_neg hstop), hjn, by simp only; omega, ?_⟩
        constructor
        · exact htried.found hjn hocc (by omega) hleast
        · exact hsub
        · exact hzero
        · simp only [hnext g hg (Int.le_refl g)]
          exact hput
        · simp only [hnext g hg (Int.le_refl g)]
          exact hin
        · simp only [hnext g hg (Int.le_refl g), List.length_append, List.length_singleton]
          push_cast
          omega
    · have hchar := hclean j c i htried hjn hmis
      rcases searchPass_skip c sub h hj hjn hmis hchar with
        ⟨b, g, hbad, hleast, hpass⟩
      have hg := hleast.1.1
      have hpre : ¬ substr.first m <+: text.bytes.drop j.toNat := by
        rw [← occurs_iff h.substrLen, show ((j.toNat : Nat) : Int) = j by omega]
        exact hmis.not_occurs
      have hnext : occursBelow (substr.first m) text.bytes (j + max (b - m + 1 + i) g).toNat =
          occursBelow (substr.first m) text.bytes j.toNat := by
        rw [occursBelow_shift h.substrLen hj (by omega)
          fun s h₁ h₂ => hmis.no_occurrence hbad hleast h₁ h₂, if_neg hpre, List.append_nil]
      refine Or.inr ⟨_, hpass, hjn, by simp only; omega, ?_⟩
      constructor
      · exact htried.skip hjn hmis hbad hleast
      · exact hsub
      · exact hlimit
      · simp only [hnext]
        exact hstores
      · simp only [hnext]
        exact hinside
      · simp only [hnext]
        exact hcount
  · refine Or.inl ⟨_, searchPass_last (by omega) (by omega), hsub, _, hstores.put_zero, hinside,
      j.toNat, rfl, Or.inr ⟨by omega, ?_, ?_⟩⟩
    · rw [IntArray.get_put_self, hcount]
    · rcases hc.2 with hc₀ | hlt
      · refine Or.inl (List.length_eq_zero_iff.mp ?_)
        omega
      · exact Or.inr (hcount ▸ hlt)

/-- A search over characters that are not negative ends, and collects the occurrences. -/
theorem search_spec (h : Tables substr text m n bc gs) (hclean : Clean substr text m n limit)
    (hone : 1 < sub.size) (hsize : limit < sub.size) (hlimit : sub.get 0 = some limit) :
    ∃ r, loop .diverged (searchPass substr m text (n - m) bc gs) (n.toNat + 2) (0, 0, sub) = .ok r ∧
      r.size = sub.size ∧ ∃ l, Found substr text m n limit l r := by
  apply loop_spec (fun k s => k = (n + 1 - s.1).toNat ∧ SearchInv substr text m n limit sub.size s)
    (fun r => r.size = sub.size ∧ ∃ l, Found substr text m n limit l r)
  · rintro k s ⟨hk, hs⟩
    rcases searchPass_spec h hclean hone hsize hs with hdone | ⟨s', hpass, hjn, hlt, hs'⟩
    · exact Or.inl hdone
    · have hpos := h.pos
      exact Or.inr ⟨s', _, hpass, ⟨rfl, hs'⟩, by omega⟩
  · refine ⟨rfl, Tried.start, rfl, hlimit, ?_, ?_, rfl⟩
    · intro r p hp
      simp at hp
    · simp
  · simp only
    omega

/-- A search that ends has met no negative character at a mismatch. -/
theorem clean_of_search {fuel : Nat} {r : IntArray} (h : Tables substr text m n bc gs)
    (hsize : limit < sub.size) (hlimit : sub.get 0 = some limit)
    (hrun : loop .diverged (searchPass substr m text (n - m) bc gs) fuel (0, 0, sub) = .ok r) :
    Clean substr text m n limit := by
  -- the run goes through every alignment tried
  have hpass : ∀ {j c}, Tried substr.char m text.char n limit j c →
      ∃ fuel' sub', sub'.size = sub.size ∧ sub'.get 0 = some limit ∧
        loop .diverged (searchPass substr m text (n - m) bc gs) fuel' (j, c, sub') = .ok r := by
    intro j c htried
    induction htried with
    | start => exact ⟨fuel, sub, rfl, hlimit, hrun⟩
    | @found j c g htried hjn hocc hlt hleast ih =>
        rcases ih with ⟨fuel', sub', hsub', hlimit', hrun'⟩
        have hc := htried.count
        rcases searchPass_found h htried.nonneg hjn hocc hc.1 (by omega) hlimit' with
          ⟨g', hleast', hpass⟩
        rw [if_neg (by omega), IsLeast.unique hleast' hleast] at hpass
        rcases loop_ok_again hrun' hpass with ⟨fuel'', hrun''⟩
        refine ⟨fuel'', sub'.put (c + 1) j, hsub', ?_, hrun''⟩
        rw [IntArray.get_put (by omega) (Int.le_refl 0), if_neg (by omega), hlimit']
    | @skip j c i b g htried hjn hmis hbad hleast ih =>
        rcases ih with ⟨fuel', sub', hsub', hlimit', hrun'⟩
        by_cases hchar : 0 ≤ (text.char (i + j)).toInt
        · rcases searchPass_skip c sub' h htried.nonneg hjn hmis hchar with
            ⟨b', g', hbad', hleast', hpass⟩
          rw [hbad'.unique hbad, IsLeast.unique hleast' hleast] at hpass
          rcases loop_ok_again hrun' hpass with ⟨fuel'', hrun''⟩
          exact ⟨fuel'', sub', hsub', hlimit', hrun''⟩
        · exact absurd (searchPass_error h htried.nonneg hjn hmis (by omega))
            (loop_ok_ne_error hrun')
  intro j c i htried hjn hmis
  rcases hpass htried with ⟨fuel', sub', -, -, hrun'⟩
  by_contra hchar
  exact loop_ok_ne_error hrun' (searchPass_error h htried.nonneg hjn hmis (by omega))

/-! ## The strings that can be searched -/

/-- The condition for a search to use no index outside an array: the pattern fits into the
tables, and of the characters used as an index of the bad-character table none is
negative. -/
structure Searchable (substr text : CString) (m n limit : Int) : Prop where
  nonempty : 1 ≤ m
  fits : m ≤ bmSize
  chars : ∀ i, 0 ≤ i → i < m - 1 → 0 ≤ (substr.char i).toInt
  inRange : -2 ^ 31 ≤ n - m
  clean : Clean substr text m n limit

/-- The arguments of a search: both lengths are at most those of the strings, and the
result array has room. -/
structure Prepared (substr text : CString) (m n limit : Int) (sub : IntArray) : Prop where
  substrLen : m ≤ substr.strlen
  substrInt : m < 2 ^ 31
  textLen : n ≤ text.strlen
  textInt : n < 2 ^ 31
  one : 1 < sub.size
  size : limit < sub.size
  limit : sub.get 0 = some limit

/-- The search of a pair of strings that can be searched. -/
theorem boyerMoore_spec (hp : Prepared substr text m n limit sub)
    (hs : Searchable substr text m n limit) :
    ∃ r, boyerMoore substr m text n sub = .ok r ∧ r.size = sub.size ∧
      ∃ l, Found substr text m n limit l r := by
  rcases smpBmBadchar_spec hs.nonempty hp.substrInt hp.substrLen hs.chars with ⟨bc, hbc, hbad⟩
  rcases smpBmGoodSuffix_spec hs.nonempty hs.fits hp.substrLen with ⟨gs, hgs, hgood⟩
  have htables : Tables substr text m n bc gs :=
    ⟨hs.nonempty, hp.substrLen, hp.textLen, hbad, hgood, hs.fits⟩
  have hlast : intSub n m = .ok (n - m) := by
    have hpos := hs.nonempty
    have hmax := hp.textInt
    exact intSub_eq hs.inRange (by omega)
  rcases search_spec htables hs.clean hp.one hp.size hp.limit with ⟨r, hrun, hr⟩
  refine ⟨r, ?_, hr⟩
  simp only [boyerMoore, hbc, hgs, hlast, Exec.ok_bind, hrun]

/-- The table of bad characters is built only from characters that are not negative. -/
theorem chars_of_badchar {t : IntArray} (hmax : m < 2 ^ 31) (hlen : m ≤ substr.strlen)
    (h : smpBmBadchar substr m (.zeros bmMaxChar) = .ok t) :
    ∀ i, 0 ≤ i → i < m - 1 → 0 ≤ (substr.char i).toInt := by
  -- the characters are examined one by one, from the left
  have hprefix : ∀ k : Nat, (k : Int) ≤ m - 1 →
      ∀ i, 0 ≤ i → i < (k : Int) → 0 ≤ (substr.char i).toInt := by
    intro k
    induction k with
    | zero => exact fun _ i h₀ h₁ => by omega
    | succ k ih =>
        intro hk i h₀ h₁
        have hbefore := ih (by omega)
        by_cases hlast : i = k
        · by_contra hneg
          subst hlast
          rw [smpBmBadchar_error hmax hlen h₀ (by omega) (by omega) hbefore] at h
          simp at h
        · exact hbefore i h₀ (by omega)
  intro i h₀ h₁
  exact hprefix (m - 1).toNat (by omega) i h₀ (by omega)

/-- A search that ends was given a pair of strings that can be searched. -/
theorem searchable_of_boyerMoore {r : IntArray} (hp : Prepared substr text m n limit sub)
    (h : boyerMoore substr m text n sub = .ok r) : Searchable substr text m n limit := by
  simp only [boyerMoore, Exec.bind_eq_ok] at h
  rcases h with ⟨bc, hbc, gs, hgs, last, hlast, hrun⟩
  have hfits : 1 ≤ m ∧ m ≤ bmSize := by
    by_contra hout
    have houtside : m ≤ 0 ∨ bmSize < m := by omega
    rcases @smpBmGoodSuffix_error substr.read m (.zeros bmSize) hp.substrInt houtside with ⟨e, he⟩
    rw [he] at hgs
    simp at hgs
  have hchars := chars_of_badchar hp.substrInt hp.substrLen hbc
  rcases smpBmBadchar_spec hfits.1 hp.substrInt hp.substrLen hchars with ⟨bc', hbc', hbad⟩
  rcases smpBmGoodSuffix_spec hfits.1 hfits.2 hp.substrLen with ⟨gs', hgs', hgood⟩
  rw [hbc, Except.ok.injEq] at hbc'
  rw [hgs, Except.ok.injEq] at hgs'
  subst hbc' hgs'
  have hrange : -2 ^ 31 ≤ n - m ∧ last = n - m := by
    unfold intSub at hlast
    split_ifs at hlast with hrange
    rw [Except.ok.injEq] at hlast
    exact ⟨hrange.1, hlast.symm⟩
  rw [hrange.2] at hrun
  have htables : Tables substr text m n bc gs :=
    ⟨hfits.1, hp.substrLen, hp.textLen, hbad, hgood, hfits.2⟩
  exact ⟨hfits.1, hfits.2, hchars, hrange.1, clean_of_search htables hp.size hp.limit hrun⟩

/-- The strings that can be searched without a fault. -/
theorem boyerMoore_ok_iff (hp : Prepared substr text m n limit sub) :
    (∃ r, boyerMoore substr m text n sub = .ok r) ↔ Searchable substr text m n limit := by
  constructor
  · rintro ⟨r, hr⟩
    exact searchable_of_boyerMoore hp hr
  · intro hs
    rcases boyerMoore_spec hp hs with ⟨r, hr, -⟩
    exact ⟨r, hr⟩

end Runs

end Text
end Smpcil
