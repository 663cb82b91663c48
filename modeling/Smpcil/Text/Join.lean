import Smpcil.Text.Pieces

/-!
# Joining the pieces of a split

The pieces of a split as byte strings, and when they give the text back.

Main results:

- Theorem {lit}`strSplit_pieces`: the pieces are what lies between the positions found.
- Theorem {lit}`splitRejoins_iff`: splitting and joining again is the identity exactly when
  the positions found do not overlap.
-/

namespace Smpcil
namespace Text

open Allocator (History Strategy)
open StringMatch Occurrences

variable {text delim : CString} {points : IntArray} {l : List Nat}

/-! ## Byte strings -/

/-- The bytes of a piece, if it is null or a part of the text. -/
def SmpStr.bytes (text : CString) (s : SmpStr) : Option (List Int8) :=
  match s.data with
  | none => some []
  | some a =>
      if 0 ≤ a ∧ a + s.len ≤ text.strlen then some ((text.bytes.drop a.toNat).take s.len)
      else none

/-- The pieces of a split are these byte strings. -/
def SmpSplit.Pieces (text : CString) (split : SmpSplit) (ps : List (List Int8)) : Prop :=
  ps.length = split.amount ∧ split.amount ≤ split.strs.size ∧
    ∀ r < split.amount, (split.strs.elem r).bytes text = ps[r]?

/-- The pieces joined by the separator are the text, and only the last one may contain the
separator. -/
def Rejoins (text delim : CString) (split : SmpSplit) : Prop :=
  ∃ ps, split.Pieces text ps ∧ delim.bytes.intercalate ps = text.bytes ∧
    ∀ p ∈ ps.dropLast, ¬ delim.bytes <:+: p

/-- A split has one list of pieces. -/
theorem SmpSplit.Pieces.unique {split : SmpSplit} {ps ps' : List (List Int8)}
    (h : split.Pieces text ps) (h' : split.Pieces text ps') : ps = ps' := by
  apply List.ext_getElem?
  intro r
  by_cases hr : r < split.amount
  · rw [← h.2.2 r hr, h'.2.2 r hr]
  · rw [List.getElem?_eq_none (by rw [h.1]; omega), List.getElem?_eq_none (by rw [h'.1]; omega)]

/-- The bytes of a piece inside the text. -/
theorem SmpStr.bytes_eq {a k : Nat} (h : a + k ≤ text.strlen) :
    SmpStr.bytes text ⟨k, some (a : Int)⟩ = some ((text.bytes.drop a).take k) := by
  have hin : (0 : Int) ≤ a ∧ (a : Int) + k ≤ text.strlen := by omega
  simp only [SmpStr.bytes, hin, and_self, if_true, Int.toNat_natCast]

/-- A piece before a position that was found. -/
theorem pieceAt_bytes {r : Nat} (hin : ∀ p ∈ l, p + delim.strlen ≤ text.strlen)
    (hr : r < l.length) : (pieceAt delim.strlen l r).bytes text =
      (cuts delim.bytes.length text.bytes 0 l)[r]? := by
  have hle : ∀ k, k < l.length → l.getD k 0 + delim.strlen ≤ text.strlen := by
    intro k hk
    rw [List.getD_eq_getElem?_getD, List.getElem?_eq_getElem hk, Option.getD_some]
    exact hin _ (List.getElem_mem hk)
  have hlast := hle r hr
  rw [getElem?_cuts_of_lt hr]
  cases r with
  | zero =>
      rw [pieceAt]
      by_cases hzero : l.getD 0 0 = 0
      · rw [hzero]
        simp [SmpStr.bytes]
      · rw [if_neg hzero, ← Int.natCast_zero, SmpStr.bytes_eq (by omega)]
        simp [cutStart]
  | succ r =>
      have hstart : cutStart delim.bytes.length 0 l (r + 1) = l.getD r 0 + delim.strlen := rfl
      rw [pieceAt, hstart]
      by_cases hclamp : (l.getD (r + 1) 0 : Int) - (l.getD r 0 + delim.strlen) ≤ 0
      · rw [if_pos hclamp, show l.getD (r + 1) 0 - (l.getD r 0 + delim.strlen) = 0 by omega]
        simp [SmpStr.bytes]
      · rw [if_neg hclamp, ← Int.natCast_add, SmpStr.bytes_eq (by omega)]
        congr 2
        omega

/-- The piece behind the last position. -/
theorem lastPiece_bytes (hne : l ≠ []) (hin : ∀ p ∈ l, p + delim.strlen ≤ text.strlen) :
    (lastPiece delim.strlen text.strlen l).bytes text =
      (cuts delim.bytes.length text.bytes 0 l)[l.length]? := by
  obtain ⟨k, hk⟩ : ∃ k, l.length = k + 1 :=
    ⟨l.length - 1, by have := List.length_pos_iff.mpr hne; omega⟩
  have hlast : l.getD k 0 + delim.strlen ≤ text.strlen := by
    rw [List.getD_eq_getElem?_getD, List.getElem?_eq_getElem (by omega), Option.getD_some]
    exact hin _ (List.getElem_mem _)
  have hstart : cutStart delim.bytes.length 0 l l.length = l.getD k 0 + delim.strlen := by
    rw [hk]
    rfl
  rw [getElem?_cuts_length, hstart, lastPiece, show l.length - 1 = k by omega]
  have hlen : text.bytes.length = text.strlen := rfl
  by_cases hend : (text.strlen : Int) - (l.getD k 0 + delim.strlen) ≤ 0
  · rw [if_pos hend, List.drop_eq_nil_of_le (by omega)]
    rfl
  · rw [if_neg hend, ← Int.natCast_add, SmpStr.bytes_eq (by omega), List.take_of_length_le]
    rw [List.length_drop]
    omega

/-- Without a position the whole text is the only piece. -/
theorem strSplit_none_pieces {strs : StrArray} (hn : toInt text.strlen = text.strlen)
    (hzero : points.get 0 = some 0) (hsize : 0 < points.size) (hstrs : 0 < strs.size) :
    ∃ result, strSplit text delim points ⟨0, strs⟩ = .ok result ∧
      result.Pieces text (cuts delim.bytes.length text.bytes 0 []) := by
  have hall : (⟨toSize (toInt text.strlen), some 0⟩ : SmpStr).bytes text = some text.bytes := by
    have hfits : text.strlen < 2 ^ 47 := text.fits
    rw [hn, toSize_eq (by omega) (by omega), Int.toNat_natCast, ← Int.natCast_zero,
      SmpStr.bytes_eq (by omega), List.drop_zero]
    exact congrArg some (List.take_of_length_le (Nat.le_refl _))
  refine ⟨_, strSplit_none hzero hsize hstrs, rfl, hstrs, ?_⟩
  intro r hr
  have hfirst : r = 0 := by
    simp only at hr
    omega
  rw [hfirst, StrArray.elem_put (Int.le_refl 0), if_pos (by omega), hall]
  rfl

/-- The pieces of a split are what lies between the positions found. -/
theorem strSplit_pieces {strs : StrArray} (hm : toInt delim.strlen = delim.strlen)
    (hn : toInt text.strlen = text.strlen)
    (h : Points delim.strlen text.strlen l points) (hlen : l.length + 1 < 2 ^ 31)
    (hsize : l.length < strs.size) :
    ∃ result, strSplit text delim points ⟨0, strs⟩ = .ok result ∧
      result.Pieces text (cuts delim.bytes.length text.bytes 0 l) := by
  have hin : ∀ p ∈ l, p + delim.strlen ≤ text.strlen := by
    intro p hp
    have hle := h.inside p hp
    omega
  by_cases hnil : l = []
  · subst hnil
    exact strSplit_none_pieces hn h.count h.size hsize
  · rcases strSplit_spec hm hn h hnil hlen hsize with ⟨result, hrun, hamount, hstrs, hpieces, hlast⟩
    refine ⟨result, hrun, ?_, by omega, ?_⟩
    · rw [length_cuts, hamount]
    · intro r hr
      by_cases hend : r = l.length
      · rw [hend, hlast, lastPiece_bytes hnil hin]
      · rw [hpieces r (by omega), pieceAt_bytes hin (by omega)]

/-- The pieces can be joined to the text again exactly when the positions found do not
overlap. -/
theorem Rejoins.iff {result : SmpSplit} {k : Nat} (hne : delim.bytes ≠ [])
    (hl : l = (occurrences delim.bytes text.bytes).take k)
    (hpieces : result.Pieces text (cuts delim.bytes.length text.bytes 0 l)) :
    Rejoins text delim result ↔ l.Pairwise fun p q => p + delim.strlen ≤ q := by
  have hocc : ∀ p ∈ l, delim.bytes <+: text.bytes.drop p := by
    intro p hp
    rw [hl] at hp
    exact (mem_occurrences hne).mp (List.mem_of_mem_take hp)
  constructor
  · rintro ⟨ps, hps, hjoin, -⟩
    rw [hps.unique hpieces] at hjoin
    exact (intercalate_cuts_iff hne hocc).mp hjoin
  · intro happ
    refine ⟨_, hpieces, (intercalate_cuts_iff hne hocc).mpr happ, ?_⟩
    intro p hp
    have hpre : l <+: occurrences delim.bytes text.bytes := hl ▸ List.take_prefix _ _
    apply not_infix_of_mem_cuts hne (pairwise_occurrences.sublist hpre.sublist)
      (fun p _ => Nat.zero_le _) _ hp
    intro q hq r _ hrq hr
    exact mem_of_prefix_of_lt hpre pairwise_occurrences hq ((mem_occurrences hne).mpr hr) hrq

/-! ## Splits -/

section Calls

variable {place : Strategy} {h : History} {limit : Nat}

/-- Splitting gives pieces that can be joined to the text again. -/
def SplitRejoins (place : Strategy) (h : History) (text delim : CString) (limit : Nat) : Prop :=
  ∃ split h', smpStrSplit place h text delim limit = .ok (some split, h') ∧
    Rejoins text delim split

/-- The condition for it: the text has less than {lit}`2 ^ 31` characters and no negative one
at a mismatch of the search; and if the separator occurs at all, the limit is at most
{lit}`2 ^ 31`, the pieces can be counted, and the occurrences the limit admits do not
overlap. -/
structure Splittable (text delim : CString) (limit : Nat) : Prop where
  short : text.strlen < 2 ^ 31
  clean : Clean delim text delim.strlen text.strlen (toInt (limit - 1))
  apart : occurrences delim.bytes text.bytes = [] ∨ (limit ≤ 2 ^ 31 ∧
    min (limit - 1) (occurrences delim.bytes text.bytes).length + 1 < 2 ^ 31 ∧
    ((occurrences delim.bytes text.bytes).take (limit - 1)).Pairwise
      fun p q => p + delim.strlen ≤ q)

/-- The result of a split whose search found these positions. -/
theorem smpStrSplit_spec {point : IntArray} {result : SmpSplit} (hlimit : 2 ≤ limit)
    (hmax : limit < 2 ^ 32) (hg : SplitGranted place h limit)
    (hsearch : boyerMoore delim (toInt delim.strlen) text (toInt text.strlen)
      (pointArray (limit - 1)) = .ok point)
    (hsplit : strSplit text delim point ⟨0, nullStrs limit⟩ = .ok result) :
    ∃ h', smpStrSplit place h text delim limit = .ok (some result, h') := by
  rw [smpStrSplit_granted hlimit hmax hg, hsearch, Exec.ok_bind, hsplit]
  exact ⟨_, rfl⟩

/-- A split that returns has a search and its pieces. -/
theorem exists_of_smpStrSplit {result : SmpSplit} {h' : History} (hlimit : 2 ≤ limit)
    (hmax : limit < 2 ^ 32) (hg : SplitGranted place h limit)
    (hrun : smpStrSplit place h text delim limit = .ok (some result, h')) :
    ∃ point l, SearchableFor delim text (toInt (limit - 1)) ∧
      Found delim text (toInt delim.strlen) (toInt text.strlen) (toInt (limit - 1)) l point ∧
      point.size = limit ∧ strSplit text delim point ⟨0, nullStrs limit⟩ = .ok result := by
  have hprepared := @pointArray_prepared delim text (limit - 1) (by omega)
  rw [smpStrSplit_granted hlimit hmax hg] at hrun
  rcases Exec.bind_eq_ok.mp hrun with ⟨point, hpoint, hrun⟩
  rcases Exec.bind_eq_ok.mp hrun with ⟨result', hresult, hpure⟩
  simp only [Exec.pure_eq, Except.ok.injEq, Prod.mk.injEq, Option.some.injEq] at hpure
  rw [hpure.1] at hresult
  have hs := searchable_of_boyerMoore hprepared hpoint
  rcases boyerMoore_spec hprepared hs with ⟨point', hpoint', hsize, l, hfound⟩
  rw [hpoint, Except.ok.injEq] at hpoint'
  subst hpoint'
  refine ⟨point, l, hs, hfound, ?_, hresult⟩
  rw [hsize]
  show limit - 1 + 1 = limit
  omega

/-- The positions that a search with the limit of a split stores. -/
theorem Found.split_positions {point : IntArray} (hne : delim.bytes ≠ []) (hlimit : 2 ≤ limit)
    (hle : limit ≤ 2 ^ 31)
    (hfound : Found delim text delim.strlen text.strlen (toInt (limit - 1)) l point) :
    l = (occurrences delim.bytes text.bytes).take (limit - 1) := by
  have hl := hfound.eq_take hne
  rcases toInt_limit hlimit (by omega) with ⟨-, hint⟩ | ⟨hgt, -⟩
  · rw [hint] at hl
    have hmax : (max ((limit - 1 : Nat) : Int) 1).toNat = limit - 1 := by omega
    exact hmax ▸ hl
  · omega

/-- A text of {lit}`2 ^ 31` characters or more, but less than {lit}`2 ^ 32`, has a negative
length as an `int`, and its only piece does not lie in it. -/
theorem not_splitRejoins_of_long (hlimit : 2 ≤ limit) (hmax : limit < 2 ^ 32)
    (hg : SplitGranted place h limit) (hlong : 2 ^ 31 ≤ text.strlen)
    (hlong' : text.strlen < 2 ^ 32) : ¬ SplitRejoins place h text delim limit := by
  rintro ⟨result, h', hrun, ps, hps, -⟩
  rcases exists_of_smpStrSplit hlimit hmax hg hrun with
    ⟨point, l, hs, hfound, hsize, hsplit⟩
  have hneg : toInt text.strlen = (text.strlen : Int) - 2 ^ 32 := by
    unfold toInt
    rw [Int.bmod_def]
    omega
  have hnil : l = [] := by
    apply List.eq_nil_iff_forall_not_mem.mpr
    intro p hp
    have hin := hfound.inside p hp
    have hpos := hs.nonempty
    omega
  have hzero : point.get 0 = some 0 := by
    rcases hfound.outcome with ⟨j, -, ⟨-, hlen⟩ | ⟨-, hzero, -⟩⟩
    · rw [hnil, List.length_nil] at hlen
      omega
    · rwa [hnil] at hzero
  rw [strSplit_none hzero (by omega) (show 0 < limit by omega), Except.ok.injEq] at hsplit
  subst hsplit
  have hbytes := hps.2.2 0 (Nat.zero_lt_one)
  rw [StrArray.elem_put (Int.le_refl 0), if_pos (by omega)] at hbytes
  -- the length is negative, and so converts to more than the text has
  have hout : (⟨toSize (toInt text.strlen), some 0⟩ : SmpStr).bytes text = none := by
    have hsize : toSize (toInt text.strlen) = 2 ^ 64 - 2 ^ 32 + text.strlen := by
      unfold toSize
      rw [hneg]
      omega
    have hnot : ¬ ((0 : Int) ≤ 0 ∧
        (0 : Int) + ((2 ^ 64 - 2 ^ 32 + text.strlen : Nat) : Int) ≤ text.strlen) := by omega
    simp only [SmpStr.bytes, hsize, hnot, if_false]
  rw [hout, eq_comm, List.getElem?_eq_none_iff, hps.1] at hbytes
  exact Nat.not_succ_le_zero 0 hbytes

/-- A limit above {lit}`2 ^ 31` gives as many pieces as the limit, if there is an occurrence;
joined they are longer than the text. -/
theorem not_rejoins_of_negative {point : IntArray} {result : SmpSplit} (hne : delim.bytes ≠ [])
    (hlimit : 2 ≤ limit) (hmax : limit < 2 ^ 32) (hgt : 2 ^ 31 < limit)
    (hshort : text.strlen < 2 ^ 31) (hocc : occurrences delim.bytes text.bytes ≠ [])
    (hfound : Found delim text delim.strlen text.strlen (toInt (limit - 1)) l point)
    (hsize : point.size = limit)
    (hsplit : strSplit text delim point ⟨0, nullStrs limit⟩ = .ok result) :
    ¬ Rejoins text delim result := by
  rintro ⟨ps, hps, hjoin, -⟩
  rcases toInt_limit hlimit hmax with ⟨hle, -⟩ | ⟨-, hneg, huint⟩
  · omega
  have hl := hfound.eq_take hne
  rw [show (max (toInt (limit - 1)) 1).toNat = 1 by omega] at hl
  have hzero : point.get 0 = some (toInt (limit - 1)) := by
    rcases hfound.outcome with ⟨j, -, ⟨hzero, -⟩ | ⟨-, -, hnil | hlt⟩⟩
    · exact hzero
    · rw [hnil, eq_comm, List.take_eq_nil_iff] at hl
      exact absurd hl (by simp [hocc])
    · omega
  rcases @strSplit_negative text delim point (nullStrs limit) _ hzero hneg (le_toInt _) (by omega)
    (show 0 < limit by omega) with ⟨last, hrun⟩
  rw [hsplit, Except.ok.injEq] at hrun
  have hlen := @le_length_intercalate _ delim.bytes ps
  have hpos := List.length_pos_iff.mpr hne
  have hps' : ps.length = limit := by
    rw [hps.1, hrun, huint]
  have hmul : limit - 1 ≤ (limit - 1) * delim.bytes.length := Nat.le_mul_of_pos_right _ hpos
  rw [hjoin, hps'] at hlen
  unfold CString.strlen at hshort
  omega

/-- With a limit of at most {lit}`2 ^ 31` the first cell counts the positions, and the pieces
are what lies between them. -/
theorem rejoins_iff_of_found {point : IntArray} {result : SmpSplit} (hne : delim.bytes ≠ [])
    (hm : toInt delim.strlen = delim.strlen) (hn : toInt text.strlen = text.strlen)
    (hlimit : 2 ≤ limit) (hle : limit ≤ 2 ^ 31)
    (hfound : Found delim text delim.strlen text.strlen (toInt (limit - 1)) l point)
    (hsize : point.size = limit)
    (hsplit : strSplit text delim point ⟨0, nullStrs limit⟩ = .ok result) :
    l.length + 1 < 2 ^ 31 ∧
      (Rejoins text delim result ↔ l.Pairwise fun p q => p + delim.strlen ≤ q) := by
  have hpos : 1 ≤ delim.strlen := List.length_pos_iff.mpr hne
  have hmi := toInt_lt delim.strlen
  have hni := toInt_lt text.strlen
  rcases toInt_limit hlimit (by omega) with ⟨-, hint⟩ | ⟨hgt, -⟩
  · have hpoints : Points delim.strlen text.strlen l point :=
      hfound.toPoints (by omega) (by omega) (by omega) (by omega) (by omega)
    have hlen : l.length + 1 < 2 ^ 31 := by
      by_contra hmany
      exact strSplit_overflow hpoints.count (by omega) (by omega) hsplit
    refine ⟨hlen, ?_⟩
    have hcells := hpoints.size
    rcases @strSplit_pieces text delim point l (nullStrs limit) hm hn hpoints hlen
      (show l.length < limit by omega) with
      ⟨result', hsplit', hpieces⟩
    rw [hsplit, Except.ok.injEq] at hsplit'
    subst hsplit'
    exact Rejoins.iff hne (hfound.split_positions hne hlimit hle) hpieces
  · omega

/-- Splitting and joining again gives the text back exactly when the occurrences of the
separator that the limit admits do not overlap. -/
theorem splitRejoins_iff_short (hne : delim.bytes ≠ []) (hfits : delim.strlen ≤ bmSize)
    (hascii : delim.Ascii) (hlimit : 2 ≤ limit) (hmax : limit < 2 ^ 32)
    (hg : SplitGranted place h limit) (hshort : text.strlen < 2 ^ 31) :
    SplitRejoins place h text delim limit ↔ Splittable text delim limit := by
  have hm : toInt delim.strlen = delim.strlen := by
    apply toInt_eq
    unfold bmSize at hfits
    omega
  have hn : toInt text.strlen = text.strlen := toInt_eq hshort
  have hsearchable := @searchableFor_iff delim text (toInt (limit - 1)) hne hfits hascii hshort
  constructor
  · rintro ⟨result, h', hrun, hrejoins⟩
    rcases exists_of_smpStrSplit hlimit hmax hg hrun with ⟨point, l, hs, hfound, hsize, hsplit⟩
    rw [hm, hn] at hfound
    refine ⟨hshort, hsearchable.mp hs, ?_⟩
    by_cases hocc : occurrences delim.bytes text.bytes = []
    · exact Or.inl hocc
    · have hle : limit ≤ 2 ^ 31 := by
        by_contra hgt
        exact not_rejoins_of_negative hne hlimit hmax (by omega) hshort hocc hfound hsize hsplit
          hrejoins
      rcases rejoins_iff_of_found hne hm hn hlimit hle hfound hsize hsplit with ⟨hlen, hiff⟩
      have hl := hfound.split_positions hne hlimit hle
      rw [hl, List.length_take] at hlen
      exact Or.inr ⟨hle, hlen, hl ▸ hiff.mp hrejoins⟩
  · rintro ⟨-, hclean, hapart⟩
    rcases boyerMoore_spec (@pointArray_prepared delim text (limit - 1) (by omega))
      (hsearchable.mpr hclean) with ⟨point, hsearch, hsize, l, hfound⟩
    have hcells : point.size = limit := by
      rw [hsize]
      show limit - 1 + 1 = limit
      omega
    rw [hm, hn] at hfound
    rcases hapart with hocc | ⟨hle, hlen, happ⟩
    · have hnil : l = [] := by
        have hl := hfound.eq_take hne
        rwa [hocc, List.take_nil] at hl
      have hzero : point.get 0 = some 0 := by
        rcases hfound.outcome with ⟨j, -, ⟨-, hlen⟩ | ⟨-, hzero, -⟩⟩
        · rw [hnil, List.length_nil] at hlen
          omega
        · rwa [hnil] at hzero
      rcases @strSplit_none_pieces text delim point (nullStrs limit) hn hzero (by omega)
        (show 0 < limit by omega) with ⟨result, hsplit, hpieces⟩
      rcases smpStrSplit_spec hlimit hmax hg hsearch hsplit with ⟨h', hrun⟩
      have hempty : [] = (occurrences delim.bytes text.bytes).take 0 := by simp
      exact ⟨result, h', hrun, (Rejoins.iff hne hempty hpieces).mpr List.Pairwise.nil⟩
    · have hl := hfound.split_positions hne hlimit hle
      rcases toInt_limit hlimit hmax with ⟨-, hint⟩ | ⟨hgt, -⟩
      · have hpos : 1 ≤ delim.strlen := List.length_pos_iff.mpr hne
        have hmi := toInt_lt delim.strlen
        have hpoints : Points delim.strlen text.strlen l point :=
          hfound.toPoints (by omega) (by omega) (by omega) (by omega) (by omega)
        have hroom := hpoints.size
        rw [← List.length_take, ← hl] at hlen
        rw [← hl] at happ
        rcases @strSplit_pieces text delim point l (nullStrs limit) hm hn hpoints hlen
          (show l.length < limit by omega) with
          ⟨result, hsplit, hpieces⟩
        rcases smpStrSplit_spec hlimit hmax hg hsearch hsplit with ⟨h', hrun⟩
        exact ⟨result, h', hrun, (Rejoins.iff hne hl hpieces).mpr happ⟩
      · omega

/-- When splitting and joining again is the identity.  The condition is enough for every
text, and needed for every text below {lit}`2 ^ 32` characters. -/
theorem splitRejoins_iff {place : Strategy} {h : History} {text delim : CString} {limit : Nat}
    (hne : 1 ≤ delim.strlen) (hfits : delim.strlen ≤ 256) (hascii : delim.Ascii)
    (hlimit : 2 ≤ limit) (hmax : limit < 2 ^ 32) (hg : SplitGranted place h limit) :
    (Splittable text delim limit → SplitRejoins place h text delim limit) ∧
      (text.strlen < 2 ^ 32 → SplitRejoins place h text delim limit →
        Splittable text delim limit) := by
  have hnil : delim.bytes ≠ [] := List.length_pos_iff.mp hne
  constructor
  · intro hs
    exact (splitRejoins_iff_short hnil hfits hascii hlimit hmax hg hs.short).mpr hs
  · intro hlen hrejoins
    by_cases hshort : text.strlen < 2 ^ 31
    · exact (splitRejoins_iff_short hnil hfits hascii hlimit hmax hg hshort).mp hrejoins
    · exact absurd hrejoins (not_splitRejoins_of_long hlimit hmax hg (by omega) hlen)

theorem splitRejoins_iff_aba :
    (Splittable ababa aba 2 → SplitRejoins (fun _ _ => some 8) [] ababa aba 2) ∧
      (ababa.strlen < 2 ^ 32 → SplitRejoins (fun _ _ => some 8) [] ababa aba 2 →
        Splittable ababa aba 2) := by
  apply splitRejoins_iff
  · decide
  · decide
  · exact ascii_aba
  · decide
  · decide
  · constructor <;> decide

/-- Two occurrences of the separator that overlap: `ababa` split at `aba` into three pieces
gives `abaaba`. -/
theorem not_splitRejoins_ababa : ¬ SplitRejoins (fun _ _ => some 8) [] ababa aba 3 := by
  rw [splitRejoins_iff_short]
  · rintro ⟨-, -, hnone | ⟨-, -, happ⟩⟩
    · revert hnone
      decide
    · revert happ
      decide
  · decide
  · decide
  · exact ascii_aba
  · decide
  · decide
  · constructor <;> decide
  · decide

end Calls

end Text
end Smpcil
