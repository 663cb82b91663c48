import Smpcil.Text.Limit

/-!
# The buffers of a split

Where the pieces of a split lie, and which cells of the match array it reads.

Main results:

- Definition {lit}`SmpStr.Inside`: a piece is null and empty, or a slice of the text.
- Theorem {lit}`Points.strSplit_eq`: a split depends only on the positions that the search
  has stored.
- Theorem {lit}`splitInside_iff`: a split stays inside its buffers precisely if the length
  of the text is not negative as an `int` and the text can be searched.
-/

namespace Smpcil
namespace Text

open Allocator (History Strategy)
open Loops StringMatch Occurrences

variable {text delim : CString} {m n : Int} {points points' : IntArray} {l : List Nat}

/-! ## Slices -/

/-- A piece is null and empty, or it is a slice of the text. -/
def SmpStr.Inside (text : CString) (s : SmpStr) : Prop :=
  match s.data with
  | none => s.len = 0
  | some a => 0 ≤ a ∧ a + s.len ≤ text.strlen

theorem inside_some {a : Int} {k : Nat} :
    SmpStr.Inside text ⟨k, some a⟩ ↔ 0 ≤ a ∧ a + k ≤ text.strlen := Iff.rfl

/-- A piece that begins in the text and ends in it. -/
theorem inside_toNat {a v : Int} (ha : 0 ≤ a) (hv : 0 ≤ v) (hend : a + v ≤ text.strlen) :
    SmpStr.Inside text ⟨v.toNat, some a⟩ := by
  constructor
  · exact ha
  · rw [Int.toNat_of_nonneg hv]
    exact hend

/-- The piece before a position in the text. -/
theorem pieceAt_inside {r : Nat} (hm : 1 ≤ m) (hle : n ≤ text.strlen)
    (hin : (l.getD r 0 : Int) ≤ n - m) : (pieceAt m l r).Inside text := by
  cases r with
  | zero =>
      rw [pieceAt]
      by_cases hzero : l.getD 0 0 = 0
      · rw [if_pos hzero]
        exact hzero
      · rw [if_neg hzero]
        exact inside_some.mpr ⟨Int.le_refl 0, by omega⟩
  | succ r =>
      rw [pieceAt]
      by_cases hclamp : (l.getD (r + 1) 0 : Int) - (l.getD r 0 + m) ≤ 0
      · rw [if_pos hclamp]
        rfl
      · rw [if_neg hclamp]
        exact inside_toNat (by omega) (by omega) (by omega)

/-- The piece behind the last position. -/
theorem lastPiece_inside (hm : 1 ≤ m) (hle : n ≤ text.strlen) :
    (lastPiece m n l).Inside text := by
  rw [lastPiece]
  by_cases hend : n - (l.getD (l.length - 1) 0 + m) ≤ 0
  · rw [if_pos hend]
    exact Int.toNat_of_nonpos hend
  · rw [if_neg hend]
    exact inside_toNat (by omega) (by omega) (by omega)

/-- All pieces of a split made of positions in the text are inside it. -/
theorem SplitAt.inside {result : SmpSplit} (h : SplitAt text m n l result) (hm : 1 ≤ m)
    (hn : 0 ≤ n) (hmax : n < 2 ^ 31) (hle : n ≤ text.strlen) (hin : ∀ p ∈ l, (p : Int) ≤ n - m) :
    ∀ r < result.amount, (result.strs.elem r).Inside text := by
  intro r hr
  rw [h.amount] at hr
  by_cases hlast : r = l.length
  · rw [hlast]
    by_cases hnil : l = []
    · have hwhole := h.whole hnil
      rw [toSize_eq hn (by omega)] at hwhole
      rw [hnil, List.length_nil, hwhole]
      exact inside_toNat (Int.le_refl 0) hn (by omega)
    · rw [h.last hnil]
      exact lastPiece_inside hm hle
  · rw [h.piece r (by omega)]
    apply pieceAt_inside hm hle
    rw [List.getD_eq_getElem?_getD, List.getElem?_eq_getElem (by omega), Option.getD_some]
    exact hin _ (List.getElem_mem _)

/-! ## The cells of the match array -/

/-- The match array before the search, of which only the limit was stored. -/
def freshArray (limit : Nat) : IntArray :=
  (IntArray.uninitialised (limit + 1)).put 0 (toInt limit)

theorem freshArray_prepared {limit : Nat} (hlimit : 1 ≤ limit) :
    Prepared delim text (toInt delim.strlen) (toInt text.strlen) (toInt limit)
      (freshArray limit) := by
  apply prepared
  · show 1 < limit + 1
    omega
  · show toInt limit < ((limit + 1 : Nat) : Int)
    have hle := toInt_le limit
    omega
  · exact IntArray.get_put_self

/-- Converted to `size_t`, a negative `int` is larger than any length. -/
theorem le_toSize {v : Int} (hlow : -2 ^ 31 ≤ v) (hneg : v < 0) : 2 ^ 48 ≤ toSize v := by
  unfold toSize
  have hmod : v % 2 ^ 64 = v + 2 ^ 64 := by omega
  rw [hmod]
  omega

/-- Two arrays that hold the same positions read the same up to the last one. -/
theorem Points.read_eq (h : Points m n l points) (h' : Points m n l points') {i : Int}
    (h₀ : 0 ≤ i) (h₁ : i ≤ l.length) : points.read i = points'.read i := by
  by_cases hzero : i = 0
  · rw [hzero, h.read_zero, h'.read_zero]
  · obtain ⟨r, rfl⟩ : ∃ r : Nat, i = (r : Int) + 1 := ⟨(i - 1).toNat, by omega⟩
    rw [h.read_succ (by omega), h'.read_succ (by omega)]

/-- A split reads no cell but those of the positions. -/
theorem Points.strSplit_eq {split : SmpSplit} (h : Points m n l points)
    (h' : Points m n l points') :
    strSplit text delim points split = strSplit text delim points' split := by
  have hround : ∀ i (s : StrArray × Int), 1 ≤ i → i < (l.length : Int) + 1 →
      splitRound (toInt delim.strlen) points i s = splitRound (toInt delim.strlen) points' i s := by
    intro i s h₁ h₂
    have hpoint := h.read_eq h' (show 0 ≤ i by omega) (by omega)
    have hbefore := h.read_eq h' (show 0 ≤ i - 1 by omega) (by omega)
    simp only [splitRound, h.read_zero, h'.read_zero, hpoint, hbefore]
  have hlast := h.read_eq h' (show 0 ≤ max 1 ((l.length : Int) + 1) - 1 by omega) (by omega)
  simp only [strSplit, h.read_zero, h'.read_zero, Exec.ok_bind, hlast, forUp_congr hround]

/-! ## Splits -/

section Calls

variable {place : Strategy} {h : History} {limit : Nat}

/-- A split stays inside its buffers: it returns with 1 to {lit}`limit` pieces in an array
of {lit}`limit` entries, no cell of the match array is read before the search has stored
something in it, and every piece is null and empty or a slice of the text. -/
def SplitInside (place : Strategy) (h : History) (text delim : CString) (limit : Nat) : Prop :=
  ∃ result h' points, smpStrSplit place h text delim limit = .ok (some result, h') ∧
    boyerMoore delim (toInt delim.strlen) text (toInt text.strlen) (freshArray (limit - 1)) =
      .ok points ∧
    strSplit text delim points ⟨0, nullStrs limit⟩ = .ok result ∧
    1 ≤ result.amount ∧ result.amount ≤ limit ∧
    ∀ r < result.amount, (result.strs.elem r).Inside text

/-- A split of a text that can be searched, and whose length is not negative as an
`int`, stays inside its buffers. -/
theorem splitInside_of_searchable (hlimit : 2 ≤ limit) (hmax : limit < 2 ^ 31)
    (hg : SplitGranted place h limit)
    (hs : SearchableFor delim text ((limit - 1 : Nat) : Int)) (hn : 0 ≤ toInt text.strlen) :
    SplitInside place h text delim limit := by
  have hint : toInt (limit - 1) = ((limit - 1 : Nat) : Int) := toInt_eq (by omega)
  have hmi := toInt_lt delim.strlen
  have hni := toInt_lt text.strlen
  rcases smpStrSplit_pieces hlimit hmax hg hs with ⟨result, h', hrun, hat⟩
  rcases exists_of_smpStrSplit hlimit (by omega) hg hrun with
    ⟨point, l, -, hfound, hsize, hsplit⟩
  rcases boyerMoore_spec (@freshArray_prepared text delim (limit - 1) (by omega))
    (by rw [hint]; exact hs) with ⟨point', hsearch, hsize', l', hfound'⟩
  have hsize'' : point'.size = limit := by
    rw [hsize']
    show limit - 1 + 1 = limit
    omega
  -- both searches find the same positions
  rw [hint] at hfound hfound'
  have hl := hfound.eq_take_inText (by omega)
  have hl' := hfound'.eq_take_inText (by omega)
  rw [hl', ← hl] at hfound'
  have hpoints := hfound.toPoints hs.nonempty hmi hni (by omega) (by omega)
  have hpoints' := hfound'.toPoints hs.nonempty hmi hni (by omega) (by omega)
  refine ⟨result, h', point', hrun, hsearch, ?_, ?_, ?_, ?_⟩
  · rw [hpoints'.strSplit_eq hpoints, hsplit]
  · rw [hat.amount]
    omega
  · rw [hat.amount, splitPositions, List.length_take]
    omega
  · apply hat.inside hs.nonempty hn hni (toInt_le _)
    intro p hp
    exact le_of_mem_inText (List.mem_of_mem_take hp)

/-- A text whose length is negative as an `int` is taken for a piece that does not end in
it. -/
theorem not_splitInside_of_negative (hlimit : 2 ≤ limit) (hmax : limit < 2 ^ 31)
    (hg : SplitGranted place h limit) (hn : toInt text.strlen < 0) :
    ¬ SplitInside place h text delim limit := by
  rintro ⟨result, h', points, hrun, -, -, hamount, -, hinside⟩
  rcases splitAt_of_smpStrSplit hlimit (Nat.le_of_succ_le hmax) hg hrun with ⟨hs, hat⟩
  have hpos := hs.nonempty
  have hnone : splitPositions text delim limit = [] := by
    rw [splitPositions, inText,
      show (toInt text.strlen - toInt delim.strlen + 1).toNat = 0 by omega, occursBelow_zero,
      List.take_nil]
  have hfirst := hinside 0 hamount
  rw [hat.whole hnone, inside_some] at hfirst
  have hlarge := le_toSize (le_toInt text.strlen) hn
  have hfits : text.strlen < 2 ^ 47 := text.fits
  omega

end Calls

/-- A split at a separator of characters from 1 to 127 stays inside its buffers precisely
if the length of the text is not negative as an `int`, and no mismatch of the search has a
character of the text that is negative. -/
theorem splitInside_iff {place : Strategy} {h : History} {text delim : CString} {limit : Nat}
    (hne : 1 ≤ delim.strlen) (hfits : delim.strlen ≤ 256) (hascii : delim.Ascii)
    (hlimit : 2 ≤ limit) (hmax : limit < 2 ^ 31) (hg : SplitGranted place h limit) :
    SplitInside place h text delim limit ↔ 0 ≤ toInt text.strlen ∧
      Clean delim text delim.strlen (toInt text.strlen) ((limit - 1 : Nat) : Int) := by
  have hm : toInt delim.strlen = delim.strlen := toInt_eq (by omega)
  constructor
  case mp =>
    intro hin
    constructor
    · by_contra hneg
      exact not_splitInside_of_negative hlimit hmax hg (by omega) hin
    · rcases hin with ⟨result, h', points, hrun, -⟩
      have hclean := (splitAt_of_smpStrSplit hlimit (Nat.le_of_succ_le hmax) hg hrun).1.clean
      rwa [hm] at hclean
  case mpr =>
    rintro ⟨hn, hclean⟩
    apply splitInside_of_searchable hlimit hmax hg ?_ hn
    unfold SearchableFor
    rw [hm]
    have hsize : (delim.strlen : Int) ≤ bmSize := by exact_mod_cast hfits
    exact ⟨by omega, hsize, fun i _ _ => hascii.char i, by omega, hclean⟩

/-- The theorem at `"ababa"`, split at `"aba"`. -/
theorem splitInside_iff_ababa : SplitInside (fun _ _ => some 8) [] ababa aba 3 := by
  have hsample := @splitInside_iff (fun _ _ => some 8) [] ababa aba 3 (by decide) (by decide)
    ascii_aba (by decide) (by decide) (by constructor <;> decide)
  exact hsample.mpr ⟨by decide, ascii_ababa.clean⟩

/-- A text of {lit}`k` times the same letter. -/
def letters (k : Nat) (hk : k < 2 ^ 47) : CString where
  bytes := List.replicate k 98
  noNul := by simp
  fits := by rwa [List.length_replicate]

@[simp] theorem strlen_letters {k : Nat} (hk : k < 2 ^ 47) : (letters k hk).strlen = k :=
  List.length_replicate

/-- A text of {lit}`2 ^ 31 + 5` letters that does not contain the separator becomes a piece
that does not end in it. -/
theorem splitInside_fails :
    ¬ SplitInside (fun _ _ => some 8) [] (letters (2 ^ 31 + 5) (by decide)) aba 2 := by
  apply not_splitInside_of_negative (by decide) (by decide)
  · constructor <;> decide
  · rw [strlen_letters]
    decide

end Text
end Smpcil
