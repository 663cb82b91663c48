import Smpcil.Text.Model
import Smpcil.Foundations.StringMatch

/-!
# The tables of the search

What the three table functions compute, for a pattern of 1 to 256 characters.

Main results:

- Theorem {lit}`smpBmBadchar_spec`: the bad-character table.
- Theorem {lit}`smpBmSuffix_spec`: the suffix table holds the suffix lengths.
- Theorem {lit}`smpBmGoodSuffix_least`: the good-suffix table holds the least safe shifts.
- Theorems {lit}`smpBmSuffix_commonSuffix` and {lit}`smpBmGoodSuffix_period`: both tables of
  an array of characters, in terms of its suffixes and its period.
-/

namespace Smpcil
namespace Text

open Loops StringMatch

/-! ## Memory -/

/-- The characters of a string, by position. -/
def CString.char (s : CString) (i : Int) : Int8 := s.bytes.getD i.toNat 0

theorem CString.read_eq {s : CString} {i : Int} (h₀ : 0 ≤ i) (h₁ : i ≤ s.strlen) :
    s.read i = .ok (s.char i) := if_pos ⟨h₀, h₁⟩

/-- A pointer gives the first {lit}`m` characters of {lit}`x` to read. -/
def Reads (substr : Int → Exec Int8) (m : Int) (x : Int → Int8) : Prop :=
  ∀ i, 0 ≤ i → i < m → substr i = .ok (x i)

theorem CString.reads {s : CString} {m : Int} (hlen : m ≤ s.strlen) : Reads s.read m s.char :=
  fun _ h₀ h₁ => CString.read_eq h₀ (by omega)

namespace IntArray

/-- The value stored at {lit}`i`. -/
def get (a : IntArray) (i : Int) : Option Int := a.cell i.toNat

/-- The array after a store inside it. -/
def put (a : IntArray) (i v : Int) : IntArray :=
  { a with cell := Function.update a.cell i.toNat (some v) }

variable {a : IntArray} {i k v : Int}

@[simp] theorem put_size : (a.put i v).size = a.size := rfl

theorem get_put (hi : 0 ≤ i) (hk : 0 ≤ k) :
    (a.put i v).get k = if k = i then some v else a.get k := by
  unfold put get
  by_cases h : k = i
  · simp [h]
  · have hne : k.toNat ≠ i.toNat := by omega
    simp [h, hne]

@[simp] theorem get_put_self : (a.put i v).get i = some v := by
  simp [put, get]

theorem read_eq (h₀ : 0 ≤ i) (h₁ : i < a.size) (hv : a.get i = some v) : a.read i = .ok v := by
  unfold get at hv
  rw [read, if_pos ⟨h₀, h₁⟩, hv]

theorem write_eq (h₀ : 0 ≤ i) (h₁ : i < a.size) : a.write i v = .ok (a.put i v) :=
  if_pos ⟨h₀, h₁⟩

end IntArray

theorem intSub_eq {a b : Int} (h₀ : -2 ^ 31 ≤ a - b) (h₁ : a - b < 2 ^ 31) :
    intSub a b = .ok (a - b) := if_pos ⟨h₀, h₁⟩

variable {s : CString} {substr : Int → Exec Int8} {x : Int → Int8} {m : Int}

/-! ## Bad characters -/

/-- The entries of the table for all characters that are not negative. -/
def BadTable (s : CString) (m : Int) (t : IntArray) : Prop :=
  t.size = bmMaxChar ∧ ∀ c : Int8, 0 ≤ c.toInt → ∃ b, t.get c.toInt = some b ∧ BadShift s.char m c b

/-- A character that is not negative is an index of the table. -/
theorem char_lt (c : Int8) : c.toInt < bmMaxChar := by
  have hlt := Int8.toInt_lt c
  unfold bmMaxChar
  omega

/-- Filling the beginning of an array. -/
theorem fill_spec {a : IntArray} {n v : Int} (hn : 0 ≤ n) (hsize : n ≤ a.size) :
    ∃ t, forUp 0 n (fun i t => t.write i v) a = .ok t ∧ t.size = a.size ∧
      ∀ k, 0 ≤ k → k < n → t.get k = some v := by
  apply forUp_spec (fun i (t : IntArray) => t.size = a.size ∧ ∀ k, 0 ≤ k → k < i → t.get k = some v)
  · exact hn
  · rintro i t h₀ h₁ ⟨ht, hfill⟩
    refine ⟨t.put i v, IntArray.write_eq h₀ (by omega), ht, ?_⟩
    intro k hk₀ hk₁
    rw [IntArray.get_put h₀ hk₀]
    split_ifs with heq
    · rfl
    · exact hfill k hk₀ (by omega)
  · exact ⟨rfl, fun k _ _ => by omega⟩

/-- The table for a pattern whose characters but the last are not negative. -/
theorem smpBmBadchar_spec (hm : 1 ≤ m) (hmax : m < 2 ^ 31) (hlen : m ≤ s.strlen)
    (hchars : ∀ i, 0 ≤ i → i < m - 1 → 0 ≤ (s.char i).toInt) :
    ∃ t, smpBmBadchar s m (.zeros bmMaxChar) = .ok t ∧ BadTable s m t := by
  rcases @fill_spec (.zeros bmMaxChar) bmMaxChar m (by unfold bmMaxChar; omega) (Int.le_refl _) with
    ⟨t₁, hfill, hsize, hall⟩
  simp only [smpBmBadchar, hfill, intSub_eq (show -2 ^ 31 ≤ m - 1 by omega) (by omega),
    Exec.ok_bind]
  apply forUp_spec (fun i (t : IntArray) => t.size = bmMaxChar ∧
    ∀ c : Int8, 0 ≤ c.toInt → ∃ b, t.get c.toInt = some b ∧ LastPlace s.char m i c b)
  · omega
  · rintro i t h₀ h₁ ⟨ht, hplaces⟩
    have hchar := hchars i h₀ h₁
    have hlt : (s.char i).toInt < t.size := ht ▸ char_lt (s.char i)
    refine ⟨t.put (s.char i).toInt (m - 1 - i), ?_, ht, ?_⟩
    · rw [CString.read_eq h₀ (by omega), Exec.ok_bind, IntArray.write_eq hchar hlt]
    · intro c hc
      rw [IntArray.get_put hchar hc]
      split_ifs with heq
      · refine ⟨_, rfl, ?_⟩
        rw [Int8.toInt_inj.mp heq]
        exact LastPlace.succ_eq h₀
      · rcases hplaces c hc with ⟨b, hb, hplace⟩
        refine ⟨b, hb, hplace.succ_ne fun hsame => heq ?_⟩
        rw [hsame]
  · refine ⟨hsize, fun c hc => ⟨m, hall _ hc (char_lt c), lastPlace_zero c⟩⟩

/-- A negative character before the last one is used as an index of the table. -/
theorem smpBmBadchar_error {bad : Int} (hmax : m < 2 ^ 31) (hlen : m ≤ s.strlen) (hbad₀ : 0 ≤ bad)
    (hbad₁ : bad < m - 1) (hneg : (s.char bad).toInt < 0)
    (hchars : ∀ i, 0 ≤ i → i < bad → 0 ≤ (s.char i).toInt) :
    smpBmBadchar s m (.zeros bmMaxChar) = .error .outOfBounds := by
  rcases @fill_spec (.zeros bmMaxChar) bmMaxChar m (by unfold bmMaxChar; omega) (Int.le_refl _) with
    ⟨t₁, hfill, hsize, -⟩
  simp only [smpBmBadchar, hfill, intSub_eq (show -2 ^ 31 ≤ m - 1 by omega) (by omega),
    Exec.ok_bind]
  apply forUp_error (fun i (t : IntArray) => t.size = bmMaxChar) hbad₀ hbad₁
  · intro i t h₀ h₁ ht
    have hlt : (s.char i).toInt < t.size := ht ▸ char_lt (s.char i)
    refine ⟨t.put (s.char i).toInt (m - 1 - i), ?_, ht⟩
    rw [CString.read_eq h₀ (by omega), Exec.ok_bind, IntArray.write_eq (hchars i h₀ h₁) hlt]
  · intro t ht
    rw [CString.read_eq hbad₀ (by omega), Exec.ok_bind]
    apply if_neg
    omega
  · exact hsize

/-! ## Suffix lengths -/

/-- The inner loop ends at the left end of a window. -/
theorem suffixPass_spec {c p : Int} (hcm : c ≤ m - 2) (hread : Reads substr m x)
    (hp : -1 ≤ p) (hpc : p ≤ c)
    (hmatch : ∀ t, p < t → t ≤ c → x t = x (t + (m - 1 - c))) :
    ∃ g, loop .diverged (suffixPass substr m c) (m.toNat + 1) p = .ok g ∧
      -1 ≤ g ∧ g ≤ c ∧ Window x m c g := by
  apply loop_spec (fun k p => (k : Int) = p + 1 ∧ -1 ≤ p ∧ p ≤ c ∧
    ∀ t, p < t → t ≤ c → x t = x (t + (m - 1 - c)))
    (fun g => -1 ≤ g ∧ g ≤ c ∧ Window x m c g)
  · rintro k p ⟨hk, hp, hpc, hmatch⟩
    by_cases hneg : p < 0
    · refine Or.inl ⟨p, ?_, hp, hpc, hmatch, Or.inl hneg⟩
      simp [suffixPass, show ¬ p ≥ 0 by omega]
    · have hleft : substr p = .ok (x p) := hread _ (by omega) (by omega)
      have hright : substr (p + m - (c + 1)) = .ok (x (p + (m - 1 - c))) := by
        rw [hread _ (by omega) (by omega)]
        congr 2
        omega
      by_cases heq : x p = x (p + (m - 1 - c))
      · refine Or.inr ⟨p - 1, p.toNat, ?_, ⟨by omega, by omega, by omega, ?_⟩, by omega⟩
        · simp [suffixPass, show p ≥ 0 by omega, hleft, hright, heq]
        · intro t h₁ h₂
          by_cases htp : t = p
          · exact htp ▸ heq
          · exact hmatch t (by omega) h₂
      · refine Or.inl ⟨p, ?_, hp, hpc, hmatch, Or.inr heq⟩
        simp [suffixPass, show p ≥ 0 by omega, hleft, hright, heq]
  · show (((p + 1).toNat : Nat) : Int) = p + 1 ∧ -1 ≤ p ∧ p ≤ c ∧
      ∀ t, p < t → t ≤ c → x t = x (t + (m - 1 - c))
    exact ⟨by omega, hp, hpc, hmatch⟩
  · omega

/-- The comparing branch stores the length of the window it finds. -/
theorem suffixCompare_spec {a : IntArray} {c p : Int} (hc : 0 ≤ c) (hcm : c ≤ m - 2)
    (hread : Reads substr m x) (hsize : m ≤ a.size) (hp : -1 ≤ p)
    (hmatch : ∀ t, p < t → t ≤ c → x t = x (t + (m - 1 - c))) :
    ∃ g, suffixCompare substr m c a p = .ok (a.put c (c - g), g, c) ∧
      -1 ≤ g ∧ g ≤ c ∧ Window x m c g := by
  have hstart : -1 ≤ (if c < p then c else p) ∧ (if c < p then c else p) ≤ c := by
    split_ifs <;> omega
  rcases suffixPass_spec hcm hread hstart.1 hstart.2 (by
    intro t h₁ h₂
    refine hmatch t ?_ h₂
    split_ifs at h₁ <;> omega) with ⟨g, hloop, hg⟩
  refine ⟨g, ?_, hg⟩
  simp only [suffixCompare, hloop, Exec.ok_bind, IntArray.write_eq hc (show c < a.size by omega),
    Exec.pure_eq]

/-- The invariant of the loop of `smp_bm_suffix` before position {lit}`c`: the lengths
behind are stored, and after the first round the last window is known. -/
def SuffixInv (x : Int → Int8) (m : Int) (size : Nat) (c : Int) (st : IntArray × Int × Int) :
    Prop :=
  st.1.size = size ∧
    (∀ i, c < i → i < m → ∃ k, st.1.get i = some k ∧ IsSuffLen x m i k) ∧
    -1 ≤ st.2.1 ∧
    ((st.2.1 = m - 1 ∧ c = m - 2) ∨
      (c < st.2.2 ∧ st.2.2 ≤ m - 2 ∧ st.2.1 ≤ st.2.2 ∧ Window x m st.2.2 st.2.1))

/-- One more length is stored. -/
theorem SuffixInv.store {c k : Int} {a : IntArray} (hc : 0 ≤ c)
    (hstored : ∀ i, c < i → i < m → ∃ k, a.get i = some k ∧ IsSuffLen x m i k)
    (hk : IsSuffLen x m c k) :
    ∀ i, c - 1 < i → i < m → ∃ k', (a.put c k).get i = some k' ∧ IsSuffLen x m i k' := by
  intro i h₁ h₂
  rw [IntArray.get_put hc (by omega)]
  split_ifs with heq
  · exact ⟨k, rfl, heq ▸ hk⟩
  · exact hstored i (by omega) h₂

/-- One round of `smp_bm_suffix`. -/
theorem suffixRound_spec {size : Nat} {c : Int} {st : IntArray × Int × Int} (hc : 0 ≤ c)
    (hcm : c ≤ m - 2) (hread : Reads substr m x) (hsize : m ≤ size) (h : SuffixInv x m size c st) :
    ∃ st', suffixRound substr m c st = .ok st' ∧ SuffixInv x m size (c - 1) st' := by
  rcases st with ⟨a, g, f⟩
  rcases h with ⟨ha, hstored, hg, hwindow⟩
  simp only at ha hstored hg hwindow
  -- whenever characters are compared, the comparison starts behind a known match
  have hcompare : (∀ t, g < t → t ≤ c → x t = x (t + (m - 1 - c))) →
      ∃ st', suffixCompare substr m c a g = .ok st' ∧ SuffixInv x m size (c - 1) st' := by
    intro hmatch
    rcases suffixCompare_spec hc hcm hread (show m ≤ a.size by omega) hg hmatch with
      ⟨g', hrun, hg₁, hg₂, hwin⟩
    refine ⟨_, hrun, ha, SuffixInv.store hc hstored (IsSuffLen.of_window hwin hg₂ hg₁), hg₁, ?_⟩
    exact Or.inr ⟨by simp only; omega, hcm, hg₂, hwin⟩
  by_cases hin : c > g
  · rcases hwindow with ⟨hfirst, hlast⟩ | ⟨hcf, hfm, hgf, hwin⟩
    · omega
    · rcases hstored (c + (m - 1 - f)) (by omega) (by omega) with ⟨k, hget, hk⟩
      have hcell : a.read (c + m - (f + 1)) = .ok k := by
        apply IntArray.read_eq
        · omega
        · omega
        · rwa [show c + m - (f + 1) = c + (m - 1 - f) by omega]
      by_cases hlt : k < c - g
      · refine ⟨(a.put c k, g, f), ?_, ha, ?_, hg, ?_⟩
        · simp only [suffixRound, hin, if_true, hcell, Exec.ok_bind, hlt,
            IntArray.write_eq hc (show c < a.size by omega), Exec.pure_eq]
        · exact SuffixInv.store hc hstored (hk.copy hwin (by omega) hlt hg (by omega))
        · exact Or.inr ⟨by simp only; omega, hfm, hgf, hwin⟩
      · rcases hcompare (hk.fill hwin (by omega) (by omega)) with ⟨st', hrun, hinv⟩
        refine ⟨st', ?_, hinv⟩
        simp only [suffixRound, hin, if_true, hcell, Exec.ok_bind, hlt, if_false, hrun]
  · rcases hcompare (fun t h₁ h₂ => by omega) with ⟨st', hrun, hinv⟩
    refine ⟨st', ?_, hinv⟩
    simp only [suffixRound, hin, if_false, hrun]

/-- The suffix table of a pattern that fits into it. -/
theorem smpBmSuffix_spec {a : IntArray} (hm : 1 ≤ m) (hmax : m < 2 ^ 31)
    (hread : Reads substr m x) (hsize : m ≤ a.size) :
    ∃ t, smpBmSuffix substr m a = .ok t ∧ t.size = a.size ∧
      ∀ i, 0 ≤ i → i < m → ∃ k, t.get i = some k ∧ IsSuffLen x m i k := by
  have hstart : SuffixInv x m a.size (m - 2) (a.put (m - 1) m, m - 1, 0) := by
    refine ⟨rfl, ?_, by simp only; omega, Or.inl ⟨rfl, rfl⟩⟩
    intro i h₁ h₂
    have hi : i = m - 1 := by omega
    subst hi
    exact ⟨m, by simp, isSuffLen_last (by omega)⟩
  have hloop : ∃ st, forDown (m - 2) 0 (suffixRound substr m) (a.put (m - 1) m, m - 1, 0) = .ok st ∧
      SuffixInv x m a.size (0 - 1) st := by
    apply forDown_spec (SuffixInv x m a.size)
    · omega
    · exact fun c st h₀ h₁ hinv => suffixRound_spec h₀ h₁ hread hsize hinv
    · exact hstart
  rcases hloop with ⟨⟨t, g, f⟩, hrun, ht, hstored, -⟩
  refine ⟨t, ?_, ht, fun i h₀ h₁ => hstored i (by omega) h₁⟩
  simp only [smpBmSuffix, intSub_eq (show -2 ^ 31 ≤ m - 1 by omega) (by omega), Exec.ok_bind,
    IntArray.write_eq (show 0 ≤ m - 1 by omega) (show m - 1 < a.size by omega), hrun, Exec.pure_eq]

/-- A pattern that is empty or too long is stored outside the table. -/
theorem smpBmSuffix_error {a : IntArray} (hmax : m < 2 ^ 31) (hout : m ≤ 0 ∨ a.size < m) :
    ∃ e, smpBmSuffix substr m a = .error e := by
  by_cases hlow : -2 ^ 31 ≤ m - 1
  · have hwrite : a.write (m - 1) m = .error .outOfBounds := by
      apply if_neg
      omega
    refine ⟨.outOfBounds, ?_⟩
    simp only [smpBmSuffix, intSub_eq hlow (by omega), Exec.ok_bind, hwrite, Exec.error_bind]
  · have hover : intSub m 1 = .error .overflow := by
      apply if_neg
      omega
    refine ⟨.overflow, ?_⟩
    simp only [smpBmSuffix, hover, Exec.error_bind]

/-! ## Good suffixes -/

/-- The second loop of `smp_bm_good_suffix` before position {lit}`i`: below {lit}`j` stand
the least border shifts, and the shorter shifts have all been entered. -/
def BorderInv (suff : Int → Int) (m : Int) (size : Nat) (i : Int) (st : IntArray × Int) : Prop :=
  st.1.size = size ∧ 0 ≤ st.2 ∧ st.2 ≤ m - 1 - i ∧ st.2 ≤ m ∧
    (∀ p, 0 ≤ p → p < st.2 →
      ∃ v, st.1.get p = some v ∧ IsLeast {s | p < s ∧ BorderShift suff m s} v) ∧
    (∀ p, st.2 ≤ p → p < m → st.1.get p = some m) ∧
    ∀ s, BorderShift suff m s → s < m - 1 - i → s ≤ st.2

/-- One round of that loop. -/
theorem borderRound_spec {suff : Int → Int} {t : IntArray} {size : Nat} {i : Int}
    {st : IntArray × Int} (hi : 0 ≤ i) (him : i ≤ m - 1) (hsize : m ≤ size) (ht : i < t.size)
    (hget : t.get i = some (suff i)) (h : BorderInv suff m size i st) :
    ∃ st', borderRound m t i st = .ok st' ∧ BorderInv suff m size (i - 1) st' := by
  rcases st with ⟨a, j⟩
  rcases h with ⟨ha, hj₀, hj₁, hj₂, hbelow, habove, hdone⟩
  simp only at ha hj₀ hj₁ hj₂ hbelow habove hdone
  have hread : t.read i = .ok (suff i) := IntArray.read_eq hi ht hget
  by_cases hborder : suff i = i + 1
  · have hfill : ∃ a', forUp j (m - (i + 1)) (fun j bmGs => do
          let g ← bmGs.read j
          if g = m then bmGs.write j (m - (i + 1)) else return bmGs) a = .ok a' ∧
        (a'.size = size ∧ (∀ p, 0 ≤ p → p < j → a'.get p = a.get p) ∧
          (∀ p, j ≤ p → p < m - (i + 1) → a'.get p = some (m - (i + 1))) ∧
          ∀ p, m - (i + 1) ≤ p → p < m → a'.get p = some m) := by
      apply forUp_spec (fun q (a' : IntArray) => a'.size = size ∧
        (∀ p, 0 ≤ p → p < j → a'.get p = a.get p) ∧
        (∀ p, j ≤ p → p < q → a'.get p = some (m - (i + 1))) ∧
        ∀ p, q ≤ p → p < m → a'.get p = some m)
      · omega
      · rintro q a' h₀ h₁ ⟨ha', hkeep, hset, hrest⟩
        refine ⟨a'.put q (m - (i + 1)), ?_, ha', ?_, ?_, ?_⟩
        · rw [IntArray.read_eq (by omega) (by omega) (hrest q (Int.le_refl q) (by omega)),
            Exec.ok_bind, if_pos rfl, IntArray.write_eq (by omega) (by omega)]
        · intro p hp₀ hp₁
          rw [IntArray.get_put (by omega) hp₀, if_neg (by omega)]
          exact hkeep p hp₀ hp₁
        · intro p hp₀ hp₁
          rw [IntArray.get_put (by omega) (by omega)]
          split_ifs with heq
          · rfl
          · exact hset p hp₀ (by omega)
        · intro p hp₀ hp₁
          rw [IntArray.get_put (by omega) (by omega), if_neg (by omega)]
          exact hrest p (by omega) hp₁
      · exact ⟨ha, fun _ _ _ => rfl, fun p _ _ => by omega, habove⟩
    rcases hfill with ⟨a', hrun, ha', hkeep, hset, hrest⟩
    have hmax : max j (m - (i + 1)) = m - (i + 1) := by omega
    refine ⟨(a', m - (i + 1)), ?_, ha', by simp only; omega, by simp only; omega,
      by simp only; omega, ?_, hrest, ?_⟩
    · simp only [borderRound, hread, Exec.ok_bind, hborder, if_true]
      rw [hrun]
      simp only [Exec.ok_bind, hmax, Exec.pure_eq]
    · intro p hp₀ hp₁
      by_cases hpj : p < j
      · rw [hkeep p hp₀ hpj]
        exact hbelow p hp₀ hpj
      · refine ⟨m - (i + 1), hset p (by omega) hp₁, ⟨by simp only at hp₁; omega, ?_⟩, ?_⟩
        · simp only at hp₁
          refine ⟨by omega, by omega, ?_⟩
          rw [show m - 1 - (m - (i + 1)) = i by omega, hborder]
          omega
        · rintro s ⟨hps, hs⟩
          by_contra hlt
          have hle := hdone s hs (by omega)
          omega
    · intro s hs hlt
      simp only
      omega
  · refine ⟨(a, j), ?_, ha, hj₀, by simp only; omega, hj₂, hbelow, habove, ?_⟩
    · simp only [borderRound, hread, Exec.ok_bind, hborder, if_false, Exec.pure_eq]
    · intro s hs hlt
      by_cases heq : s = m - 1 - i
      · refine absurd ?_ hborder
        have hlen := hs.2.2
        rw [heq, show m - 1 - (m - 1 - i) = i by omega] at hlen
        omega
      · exact hdone s hs (by omega)

/-- The good-suffix table holds the least safe shifts. -/
theorem smpBmGoodSuffix_least {a : IntArray} (hm : 1 ≤ m) (hmax : m ≤ bmSize)
    (hread : Reads substr m x) (hroom : m ≤ a.size) :
    ∃ t, smpBmGoodSuffix substr m a = .ok t ∧ t.size = a.size ∧
      ∀ p, 0 ≤ p → p < m → ∃ g, t.get p = some g ∧ IsLeast {d | SafeShift x m p d} g := by
  have hbound : m < 2 ^ 31 := by
    unfold bmSize at hmax
    omega
  rcases @smpBmSuffix_spec substr x m (.uninitialised bmSize) hm hbound hread hmax with
    ⟨t, hsuffix, hsize, hstored⟩
  -- the suffix lengths as a function
  obtain ⟨suff, hsuff⟩ : ∃ suff : Int → Int, ∀ i, 0 ≤ i → i < m →
      t.get i = some (suff i) ∧ IsSuffLen x m i (suff i) := by
    refine ⟨fun i => (t.get i).getD 0, fun i h₀ h₁ => ?_⟩
    rcases hstored i h₀ h₁ with ⟨k, hget, hk⟩
    simp [hget, hk]
  have hlens : ∀ i, 0 ≤ i → i < m → IsSuffLen x m i (suff i) :=
    fun i h₀ h₁ => (hsuff i h₀ h₁).2
  have ht : t.size = bmSize := hsize
  rcases @fill_spec a m m (by omega) hroom with ⟨a₁, hfill, ha₁, hall⟩
  have hborders : ∃ st, forDown (m - 1) 0 (borderRound m t) (a₁, 0) = .ok st ∧
      BorderInv suff m a.size (0 - 1) st := by
    apply forDown_spec (BorderInv suff m a.size)
    · omega
    · intro i st h₀ h₁ hinv
      exact borderRound_spec h₀ h₁ hroom (by omega) (hsuff i h₀ (by omega)).1 hinv
    · refine ⟨ha₁, by simp, by simp, by simp only; omega, fun p _ _ => by omega, hall, ?_⟩
      intro s hs hlt
      have hpos := hs.1
      omega
  rcases hborders with ⟨⟨a₂, j⟩, hrun, ha₂, hj₀, hj₁, hj₂, hbelow, habove, hdone⟩
  simp only at ha₂ hj₀ hj₁ hj₂ hbelow habove hdone
  simp only [smpBmGoodSuffix, hsuffix, hfill, hrun, Exec.ok_bind]
  have hfinal : ∃ a₃, forUp 0 (m - 1) (fun i bmGs => do
        let v ← t.read i
        bmGs.write (m - (v + 1)) (m - (i + 1))) a₂ = .ok a₃ ∧
      (a₃.size = a.size ∧ ∀ p, 0 ≤ p → p < m →
        ∃ g, a₃.get p = some g ∧ IsLeast {d | Candidate suff m (m - 1) p d} g) := by
    apply forUp_spec (fun i (b : IntArray) => b.size = a.size ∧ ∀ p, 0 ≤ p → p < m →
      ∃ g, b.get p = some g ∧ IsLeast {d | Candidate suff m i p d} g)
    · omega
    · rintro i b h₀ h₁ ⟨hb, htable⟩
      rcases hsuff i h₀ (by omega) with ⟨hget, hk₀, hk₁, -⟩
      refine ⟨b.put (m - (suff i + 1)) (m - (i + 1)), ?_, hb, ?_⟩
      · rw [IntArray.read_eq h₀ (by omega) hget, Exec.ok_bind,
          IntArray.write_eq (by omega) (by omega)]
      · intro p hp₀ hp₁
        rw [IntArray.get_put (by omega) hp₀]
        split_ifs with heq
        · refine ⟨m - (i + 1), rfl, ?_⟩
          rw [heq, show m - (i + 1) = m - 1 - i by omega,
            show m - (suff i + 1) = m - 1 - suff i by omega]
          exact Candidate.least_succ_eq h₀ hk₁
        · rcases htable p hp₀ hp₁ with ⟨g, hg, hleast⟩
          exact ⟨g, hg, Candidate.least_succ_ne (by omega) hleast⟩
    · refine ⟨ha₂, fun p hp₀ hp₁ => ?_⟩
      have hcand : ∀ d, Candidate suff m 0 p d ↔ p < d ∧ (BorderShift suff m d ∨ d = m) := by
        intro d
        constructor
        · rintro (hold | ⟨i, hi₀, hi₁, -⟩)
          · exact hold
          · omega
        · exact Or.inl
      simp only [hcand]
      by_cases hpj : p < j
      · rcases hbelow p hp₀ hpj with ⟨v, hv, ⟨hpv, hborder⟩, hmin⟩
        refine ⟨v, hv, ⟨hpv, Or.inl hborder⟩, ?_⟩
        rintro d ⟨hpd, hd | rfl⟩
        · exact hmin ⟨hpd, hd⟩
        · have hlt := hborder.2.1
          omega
      · refine ⟨m, habove p (by omega) hp₁, ⟨hp₁, Or.inr rfl⟩, ?_⟩
        rintro d ⟨hpd, hd | rfl⟩
        · have hle := hdone d hd (by have := hd.2.1; omega)
          omega
        · exact Int.le_refl _
  rcases hfinal with ⟨a₃, hlast, ha₃, htable⟩
  refine ⟨a₃, hlast, ha₃, fun p hp₀ hp₁ => ?_⟩
  rcases htable p hp₀ hp₁ with ⟨g, hg, hleast⟩
  refine ⟨g, hg, ?_⟩
  simpa only [candidate_iff_safeShift hlens hp₀ hp₁] using hleast

/-- The good-suffix table of a pattern that fits into it. -/
def GoodTable (s : CString) (m : Int) (t : IntArray) : Prop :=
  t.size = bmSize ∧
    ∀ p, 0 ≤ p → p < m → ∃ g, t.get p = some g ∧ IsLeast {d | SafeShift s.char m p d} g

/-- The good-suffix table of the search. -/
theorem smpBmGoodSuffix_spec (hm : 1 ≤ m) (hmax : m ≤ bmSize) (hlen : m ≤ s.strlen) :
    ∃ t, smpBmGoodSuffix s.read m (.zeros bmSize) = .ok t ∧ GoodTable s m t :=
  smpBmGoodSuffix_least hm hmax (CString.reads hlen) hmax

/-- The good-suffix table of a pattern that is empty or too long. -/
theorem smpBmGoodSuffix_error {a : IntArray} (hmax : m < 2 ^ 31) (hout : m ≤ 0 ∨ bmSize < m) :
    ∃ e, smpBmGoodSuffix substr m a = .error e := by
  rcases @smpBmSuffix_error substr m (.uninitialised bmSize) hmax
    (by simpa [IntArray.uninitialised] using hout) with ⟨e, he⟩
  exact ⟨e, by simp only [smpBmGoodSuffix, he, Exec.error_bind]⟩

/-! ## Patterns without a terminator -/

/-- An array of characters; behind its last one there is nothing to read. -/
def charsRead (x : List Int8) (i : Int) : Exec Int8 :=
  if 0 ≤ i ∧ i < x.length then .ok (ofList 0 x i) else .error .outOfBounds

theorem charsRead_reads (x : List Int8) : Reads (charsRead x) x.length (ofList 0 x) :=
  fun _ h₀ h₁ => if_pos ⟨h₀, h₁⟩

/-- For every pattern `smp_bm_suffix` returns with the lengths of the longest common
suffixes of the pattern and its prefixes.  Neither the pattern nor the table need more
cells than the pattern is long, and no cell is read before it is stored. -/
theorem smpBmSuffix_commonSuffix {x : List Int8} {size : Nat} (hm : 1 ≤ x.length)
    (hmax : x.length ≤ 256) (hsize : x.length ≤ size) :
    ∃ suff, smpBmSuffix (charsRead x) x.length (.uninitialised size) = .ok suff ∧
      suff.get ((x.length : Int) - 1) = some (x.length : Int) ∧
      ∀ i < x.length, ∃ k : Nat, suff.get i = some (k : Int) ∧
        IsCommonSuffixLen (x.take (i + 1)) x k := by
  have hroom : (x.length : Int) ≤ (IntArray.uninitialised size).size := by
    exact_mod_cast hsize
  rcases smpBmSuffix_spec (by omega) (by omega) (charsRead_reads x) hroom with
    ⟨suff, hrun, -, hstored⟩
  refine ⟨suff, hrun, ?_, fun i hi => ?_⟩
  · rcases hstored (x.length - 1) (by omega) (by omega) with ⟨k, hget, hk⟩
    rw [hget, hk.unique (isSuffLen_last (by omega))]
  · rcases hstored i (by omega) (by omega) with ⟨k, hget, hk⟩
    refine ⟨k.toNat, ?_, hk.isCommonSuffixLen hi⟩
    rw [hget, Int.toNat_of_nonneg hk.1]

/-- The suffix lengths of `"aba"`, in a table of three cells. -/
theorem smpBmSuffix_commonSuffix_aba :
    ∃ suff, smpBmSuffix (charsRead [97, 98, 97]) 3 (.uninitialised 3) = .ok suff ∧
      suff.get 2 = some 3 ∧ ∃ k : Nat, suff.get 0 = some (k : Int) ∧
        IsCommonSuffixLen ([97] : List Int8) [97, 98, 97] k := by
  rcases @smpBmSuffix_commonSuffix [97, 98, 97] 3 (by decide) (by decide) (by decide) with
    ⟨suff, hrun, hlast, hall⟩
  exact ⟨suff, hrun, hlast, by simpa using hall 0 (by decide)⟩

/-- For every pattern `smp_bm_good_suffix` returns with the least safe shift in every cell,
and the first cell holds the period of the pattern. -/
theorem smpBmGoodSuffix_period {x : List Int8} {bmGs : IntArray} (hm : 1 ≤ x.length)
    (hmax : x.length ≤ 256) (hsize : x.length ≤ bmGs.size) :
    ∃ t, smpBmGoodSuffix (charsRead x) x.length bmGs = .ok t ∧
      (∀ i < x.length, ∃ s : Nat, t.get i = some (s : Int) ∧ 1 ≤ s ∧ s ≤ x.length ∧
        IsLeast {d | SafeShift (ofList 0 x) x.length i d} (s : Int)) ∧
      ∃ p : Nat, t.get 0 = some (p : Int) ∧ IsLeast {s | 1 ≤ s ∧ x.drop s <+: x} p := by
  have hfits : (x.length : Int) ≤ bmSize := by exact_mod_cast hmax
  rcases smpBmGoodSuffix_least (by omega) hfits (charsRead_reads x) (by exact_mod_cast hsize) with
    ⟨t, hrun, -, hleast⟩
  have hcell : ∀ i < x.length, ∃ s : Nat, t.get i = some (s : Int) ∧ 1 ≤ s ∧ s ≤ x.length ∧
      IsLeast {d | SafeShift (ofList 0 x) x.length i d} (s : Int) := by
    intro i hi
    rcases hleast i (by omega) (by omega) with ⟨g, hget, hg⟩
    have hpos := hg.1.1
    have hle := hg.1.2.1
    have heq : ((g.toNat : Nat) : Int) = g := by omega
    exact ⟨g.toNat, by rw [heq, hget], by omega, by omega, by rwa [heq]⟩
  refine ⟨t, hrun, hcell, ?_⟩
  rcases hcell 0 hm with ⟨p, hget, -, -, hp⟩
  exact ⟨p, hget, isLeast_period hp⟩

/-- The least safe shifts of `"aba"`; its period is two. -/
theorem smpBmGoodSuffix_period_aba :
    ∃ t, smpBmGoodSuffix (charsRead [97, 98, 97]) 3 (.zeros 256) = .ok t ∧
      ∃ p : Nat, t.get 0 = some (p : Int) ∧
        IsLeast {s | 1 ≤ s ∧ ([97, 98, 97] : List Int8).drop s <+: [97, 98, 97]} p := by
  rcases @smpBmGoodSuffix_period [97, 98, 97] (.zeros 256) (by decide) (by decide) (by decide)
    with ⟨t, hrun, -, hperiod⟩
  exact ⟨t, hrun, hperiod⟩

end Text
end Smpcil
