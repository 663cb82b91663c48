import Smpcil.Text.Join

/-!
# The limit of a split

Two splits of one text with different limits.

Main results:

- Theorem {lit}`smpStrSplit_pieces`: the pieces of a split, for every length of the text.
- Theorem {lit}`limitMerges_iff`: the smaller limit merges the tail, precisely if it is not
  one, the text can be searched, and it is short or nothing is merged.
-/

namespace Smpcil
namespace Text

open Allocator (History Strategy)
open StringMatch Occurrences

variable {text delim : CString} {m n : Int} {points : IntArray} {l : List Nat}

/-! ## One split -/

/-- What a smaller limit tries can be searched as well. -/
theorem SearchableFor.mono {limit limit' : Int} (hle : limit ≤ limit')
    (h : SearchableFor delim text limit') : SearchableFor delim text limit where
  nonempty := h.nonempty
  fits := h.fits
  chars := h.chars
  inRange := h.inRange
  clean := fun j c i htried => h.clean j c i (htried.mono hle)

/-- A search with a positive limit stores the first positions in the text. -/
theorem Found.eq_take_inText {limit : Nat} (hlimit : 1 ≤ limit)
    (h : Found delim text m n limit l points) : l = (inText delim text m n).take limit := by
  rcases h.prefix_inText with ⟨hpre, hfull⟩
  by_cases hall : inText delim text m n = l
  · have hlen : l.length ≤ limit := by
      rcases h.outcome with ⟨j, -, ⟨-, hlen⟩ | ⟨-, -, hnil | hlt⟩⟩
      · omega
      · rw [hnil]
        exact Nat.zero_le _
      · omega
    rw [hall, List.take_of_length_le hlen]
  · have hlen := (hfull hall).2
    have heq : l.length = limit := by omega
    rw [← heq]
    exact List.prefix_iff_eq_take.mp hpre

/-- The split made of the positions `l`. -/
structure SplitAt (text : CString) (m n : Int) (l : List Nat) (result : SmpSplit) : Prop where
  amount : result.amount = l.length + 1
  whole : l = [] → result.strs.elem 0 = ⟨toSize n, some 0⟩
  piece : ∀ r < l.length, result.strs.elem r = pieceAt m l r
  last : l ≠ [] → result.strs.elem l.length = lastPiece m n l

/-- The positions that a split with the limit is made of. -/
def splitPositions (text delim : CString) (limit : Nat) : List Nat :=
  (inText delim text (toInt delim.strlen) (toInt text.strlen)).take (limit - 1)

section Calls

variable {place : Strategy} {h : History} {limit : Nat}

/-- The pieces at the positions that a search has found, if an `int` counts them. -/
theorem strSplit_found {point : IntArray} {l : List Nat} (hlimit : 2 ≤ limit)
    (hs : SearchableFor delim text ((limit - 1 : Nat) : Int))
    (hfound : Found delim text (toInt delim.strlen) (toInt text.strlen)
      ((limit - 1 : Nat) : Int) l point)
    (hcells : point.size = limit) (hcount : l.length + 1 < 2 ^ 31) :
    ∃ result, strSplit text delim point ⟨0, nullStrs limit⟩ = .ok result ∧
      SplitAt text (toInt delim.strlen) (toInt text.strlen) (splitPositions text delim limit)
        result := by
  have hmi := toInt_lt delim.strlen
  have hni := toInt_lt text.strlen
  have hl := hfound.eq_take_inText (by omega)
  have hpoints := hfound.toPoints hs.nonempty hmi hni (by omega) (by omega)
  have hroom := hpoints.size
  by_cases hnil : l = []
  · have hsplit := @strSplit_none text delim point (nullStrs limit)
      (by rw [hpoints.count, hnil]; rfl) (by omega) (show 0 < limit by omega)
    refine ⟨_, hsplit, ?_⟩
    rw [splitPositions, ← hl, hnil]
    refine ⟨rfl, fun _ => ?_, fun r hr => absurd hr (Nat.not_lt_zero r), fun hne => absurd rfl hne⟩
    rw [StrArray.elem_put (Int.le_refl 0), if_pos (by omega)]
  · have hlen : l.length ≤ limit - 1 := by
      rw [hl]
      exact List.length_take_le _ _
    rcases @strSplit_spec text delim _ _ point l (nullStrs limit) rfl rfl hpoints hnil hcount
      (show l.length < limit by omega) with ⟨result, hsplit, hamount, -, hpieces, hlast⟩
    refine ⟨result, hsplit, ?_⟩
    rw [splitPositions, ← hl]
    exact ⟨hamount, fun hempty => absurd hempty hnil, hpieces, fun _ => hlast⟩

/-- A split with a search is made of the first positions in the text. -/
theorem smpStrSplit_pieces (hlimit : 2 ≤ limit) (hmax : limit < 2 ^ 31)
    (hg : SplitGranted place h limit)
    (hs : SearchableFor delim text ((limit - 1 : Nat) : Int)) :
    ∃ result h', smpStrSplit place h text delim limit = .ok (some result, h') ∧
      SplitAt text (toInt delim.strlen) (toInt text.strlen) (splitPositions text delim limit)
        result := by
  have hint : toInt (limit - 1) = ((limit - 1 : Nat) : Int) := toInt_eq (by omega)
  rcases boyerMoore_spec (@pointArray_prepared delim text (limit - 1) (by omega))
    (by rw [hint]; exact hs) with ⟨point, hsearch, hsize, l, hfound⟩
  have hcells : point.size = limit := by
    rw [hsize]
    show limit - 1 + 1 = limit
    omega
  rw [hint] at hfound
  have hlen : l.length ≤ limit - 1 := by
    rw [hfound.eq_take_inText (by omega)]
    exact List.length_take_le _ _
  rcases strSplit_found hlimit hs hfound hcells (by omega) with ⟨result, hsplit, hat⟩
  rcases smpStrSplit_spec hlimit (by omega) hg hsearch hsplit with ⟨h', hrun⟩
  exact ⟨result, h', hrun, hat⟩

/-- A split returns one result. -/
theorem eq_of_smpStrSplit {result result' : SmpSplit} {r r' : History}
    (hrun : smpStrSplit place h text delim limit = .ok (some result, r))
    (hrun' : smpStrSplit place h text delim limit = .ok (some result', r')) :
    result = result' := by
  have heq := hrun.symm.trans hrun'
  simp only [Except.ok.injEq, Prod.mk.injEq, Option.some.injEq] at heq
  exact heq.1

/-- What a split returns is made of the first positions in a text that can be searched. -/
theorem splitAt_of_smpStrSplit {result : SmpSplit} {h' : History} (hlimit : 2 ≤ limit)
    (hmax : limit ≤ 2 ^ 31) (hg : SplitGranted place h limit)
    (hrun : smpStrSplit place h text delim limit = .ok (some result, h')) :
    SearchableFor delim text ((limit - 1 : Nat) : Int) ∧
      SplitAt text (toInt delim.strlen) (toInt text.strlen) (splitPositions text delim limit)
        result := by
  have hint : toInt (limit - 1) = ((limit - 1 : Nat) : Int) := toInt_eq (by omega)
  rcases exists_of_smpStrSplit hlimit (by omega) hg hrun with
    ⟨point, l, hs, hfound, hcells, hsplit⟩
  rw [hint] at hs hfound
  have hpoints := hfound.toPoints hs.nonempty (toInt_lt _) (toInt_lt _) (by omega) (by omega)
  have hcount := count_of_strSplit hpoints.read_zero hsplit
  rcases strSplit_found hlimit hs hfound hcells (by omega) with ⟨result', hsplit', hat⟩
  rw [hsplit, Except.ok.injEq] at hsplit'
  exact ⟨hs, hsplit' ▸ hat⟩

end Calls

/-! ## Two splits -/

/-- Where the remainder of the text begins when it is cut into {lit}`k` pieces: behind the
occurrence number {lit}`k - 1` of the separator. -/
def tailStart (text delim : CString) (k : Nat) : Nat :=
  if k = 1 then 0 else (occurrences delim.bytes text.bytes).getD (k - 2) 0 + delim.strlen

/-- The split with the smaller limit {lit}`k` merges the tail of the other one. -/
structure MergesTail (text delim : CString) (k : Nat) (small big : SmpSplit) : Prop where
  amount : small.amount = min k big.amount
  pieces : ∀ r < min k big.amount - 1, small.strs.elem r = big.strs.elem r
  tail : k < big.amount →
    (small.strs.elem (k - 1)).bytes text = some (text.bytes.drop (tailStart text delim k))

/-- A piece before the last one does not depend on the positions behind it. -/
theorem pieceAt_take {r k : Nat} (hr : r < k) : pieceAt m (l.take k) r = pieceAt m l r := by
  have hget : ∀ i < k, (l.take k).getD i 0 = l.getD i 0 := by
    intro i hi
    rw [List.getD_eq_getElem?_getD, List.getD_eq_getElem?_getD, List.getElem?_take_of_lt hi]
  cases r with
  | zero => rw [pieceAt, pieceAt, hget 0 hr]
  | succ r => rw [pieceAt, pieceAt, hget (r + 1) hr, hget r (by omega)]

/-- The pieces of two splits agree up to the last one of the split with the smaller
limit. -/
theorem SplitAt.pieces_eq {small big : SmpSplit} {j k : Nat} (hjk : j ≤ k)
    (hsmall : SplitAt text m n (l.take j) small) (hbig : SplitAt text m n (l.take k) big) :
    small.amount = min (j + 1) big.amount ∧
      ∀ r < min (j + 1) big.amount - 1, small.strs.elem r = big.strs.elem r := by
  have hsmallAmount := hsmall.amount
  have hbigAmount := hbig.amount
  rw [List.length_take] at hsmallAmount hbigAmount
  constructor
  · omega
  · intro r hr
    rw [hsmall.piece r (by rw [List.length_take]; omega),
      hbig.piece r (by rw [List.length_take]; omega), pieceAt_take (by omega),
      pieceAt_take (by omega)]

/-- The positions in a text begin the list of all occurrences. -/
theorem inText_append_left (hne : delim.bytes ≠ []) (hm : m = delim.strlen) :
    inText delim text m n <+: occurrences delim.bytes text.bytes := by
  rw [inText, hm, CString.first_strlen]
  exact occursBelow_prefix_occurrences hne

/-- The last of the first positions in a text is an occurrence. -/
theorem getD_take_inText {j : Nat} (hne : delim.bytes ≠ []) (hm : m = delim.strlen)
    (hj : j + 1 ≤ (inText delim text m n).length) :
    ((inText delim text m n).take (j + 1)).getD j 0 =
      (occurrences delim.bytes text.bytes).getD j 0 := by
  rcases @inText_append_left text delim m n hne hm with ⟨rest, hrest⟩
  rw [← hrest, List.getD_eq_getElem?_getD, List.getD_eq_getElem?_getD,
    List.getElem?_take_of_lt (Nat.lt_succ_self j), List.getElem?_append_left (by omega)]

/-- A position in the text leaves room for the separator. -/
theorem le_of_mem_inText {p : Nat} (h : p ∈ inText delim text m n) : (p : Int) ≤ n - m := by
  rw [inText, mem_occursBelow] at h
  omega

/-- From {lit}`2 ^ 31` on, conversion to `int` makes a number smaller. -/
theorem toInt_lt_self {k : Nat} (h : 2 ^ 31 ≤ k) : toInt k < k := by
  have hlt := toInt_lt k
  have hle : (2 : Int) ^ 31 ≤ k := by exact_mod_cast h
  exact Int.lt_of_lt_of_le hlt hle

/-- The tail of the split with the smaller limit, in a text whose length is an `int`. -/
theorem tail_short {small : SmpSplit} {j : Nat} (hne : delim.bytes ≠ [])
    (hm : m = delim.strlen) (hn : n = text.strlen) (hj : j + 1 ≤ (inText delim text m n).length)
    (hsmall : SplitAt text m n ((inText delim text m n).take (j + 1)) small) :
    (small.strs.elem (j + 1)).bytes text =
      some (text.bytes.drop (tailStart text delim (j + 2))) := by
  have hlen : ((inText delim text m n).take (j + 1)).length = j + 1 := by
    rw [List.length_take]
    omega
  have hnil : (inText delim text m n).take (j + 1) ≠ [] := by
    intro hnil
    rw [hnil] at hlen
    cases hlen
  have hin : ∀ p ∈ (inText delim text m n).take (j + 1), p + delim.strlen ≤ text.strlen := by
    intro p hp
    have hle := le_of_mem_inText (List.mem_of_mem_take hp)
    omega
  have hlast := hsmall.last hnil
  rw [hlen] at hlast
  have hbytes := lastPiece_bytes hnil hin
  rw [getElem?_cuts_length, hlen] at hbytes
  rw [hlast]
  subst hm hn
  rw [hbytes, cutStart, getD_take_inText hne rfl hj, tailStart, if_neg (by omega)]
  rfl

/-- The tail of the split with the smaller limit ends before the text does if the length of
the text is not an `int`. -/
theorem tail_long {small : SmpSplit} {j : Nat} (hne : delim.bytes ≠ [])
    (hm : m = delim.strlen) (hn : n < text.strlen) (hj : j + 1 ≤ (inText delim text m n).length)
    (hsmall : SplitAt text m n ((inText delim text m n).take (j + 1)) small) :
    (small.strs.elem (j + 1)).bytes text ≠
      some (text.bytes.drop (tailStart text delim (j + 2))) := by
  have hlen : ((inText delim text m n).take (j + 1)).length = j + 1 := by
    rw [List.length_take]
    omega
  have hnil : (inText delim text m n).take (j + 1) ≠ [] := by
    intro hnil
    rw [hnil] at hlen
    cases hlen
  have hgetD := getD_take_inText hne hm hj
  have hmem : (occurrences delim.bytes text.bytes).getD j 0 ∈ inText delim text m n := by
    rw [← hgetD, List.getD_eq_getElem?_getD, List.getElem?_eq_getElem (by omega),
      Option.getD_some]
    exact List.mem_of_mem_take (List.getElem_mem _)
  have hle := le_of_mem_inText hmem
  have hlast := hsmall.last hnil
  rw [hlen] at hlast
  have hstart : tailStart text delim (j + 2) =
      (occurrences delim.bytes text.bytes).getD j 0 + delim.strlen := by
    rw [tailStart, if_neg (by omega)]
    rfl
  have htext : text.bytes.length = text.strlen := rfl
  rw [hlast, lastPiece, hlen, Nat.add_sub_cancel, hgetD, hstart]
  intro heq
  by_cases hend : n - ((occurrences delim.bytes text.bytes).getD j 0 + m) ≤ 0
  · rw [if_pos hend] at heq
    have hdrop := congrArg List.length (Option.some.inj heq)
    rw [List.length_drop, List.length_nil] at hdrop
    omega
  · rw [if_neg hend, hm, ← Int.natCast_add, SmpStr.bytes_eq (by omega)] at heq
    have hdrop := congrArg List.length (Option.some.inj heq)
    rw [List.length_take, List.length_drop] at hdrop
    omega

/-- The split with the limit {lit}`k` and the one with the limit {lit}`K` both give pieces,
and the smaller limit merges the tail. -/
def LimitMerges (place place' : Strategy) (h h' : History) (text delim : CString) (k K : Nat) :
    Prop :=
  ∃ small big r r', smpStrSplit place h text delim k = .ok (some small, r) ∧
    smpStrSplit place' h' text delim K = .ok (some big, r') ∧
    MergesTail text delim k small big

/-- A smaller limit merges the tail precisely if it is not one, the text can be searched with
the larger limit, and the length of the text is an `int` or no occurrence that the larger
limit admits is left out. -/
theorem limitMerges_iff {place place' : Strategy} {h h' : History} {text delim : CString}
    {k K : Nat} (hne : 1 ≤ delim.strlen) (hfits : delim.strlen ≤ 256) (hk : 1 ≤ k) (hkK : k ≤ K)
    (hK : K < 2 ^ 31) (hg : SplitGranted place h k) (hg' : SplitGranted place' h' K) :
    LimitMerges place place' h h' text delim k K ↔
      2 ≤ k ∧ SearchableFor delim text ((K - 1 : Nat) : Int) ∧
        (k < K → k ≤ (inText delim text delim.strlen (toInt text.strlen)).length →
          text.strlen < 2 ^ 31) := by
  have hnil : delim.bytes ≠ [] := List.length_pos_iff.mp hne
  have hm : toInt delim.strlen = delim.strlen := toInt_eq (by omega)
  by_cases hone : k = 1
  · apply iff_of_false
    · rintro ⟨small, big, r, r', hsmall, -⟩
      rcases @smpStrSplit_refused text delim place h k hk (by omega) (Or.inr hone) with ⟨r₁, hrun⟩
      rw [hrun] at hsmall
      cases hsmall
    · omega
  by_cases hs : SearchableFor delim text ((K - 1 : Nat) : Int)
  · obtain ⟨big, r', hbigRun, hbig⟩ := smpStrSplit_pieces (by omega) hK hg' hs
    obtain ⟨small, r, hsmallRun, hsmall⟩ := smpStrSplit_pieces (by omega) (by omega) hg
      (hs.mono (show ((k - 1 : Nat) : Int) ≤ ((K - 1 : Nat) : Int) by omega))
    rw [splitPositions, hm] at hsmall hbig
    have hagree := hsmall.pieces_eq (show k - 1 ≤ K - 1 by omega) hbig
    have hbigAmount := hbig.amount
    rw [List.length_take] at hbigAmount
    obtain ⟨j, rfl⟩ : ∃ j, k = j + 2 := ⟨k - 2, by omega⟩
    rw [show j + 2 - 1 = j + 1 by omega] at hsmall hagree
    constructor
    case mp =>
      rintro ⟨small', big', r₁, r₁', hsmallRun', hbigRun', htail⟩
      obtain rfl : small = small' := eq_of_smpStrSplit hsmallRun hsmallRun'
      obtain rfl : big = big' := eq_of_smpStrSplit hbigRun hbigRun'
      refine ⟨by omega, hs, fun hlt hle => ?_⟩
      by_contra hlong
      have hni := toInt_lt_self (Nat.not_lt.mp hlong)
      exact tail_long hnil rfl hni (by omega) hsmall (htail.tail (by omega))
    case mpr =>
      rintro ⟨-, -, hshort⟩
      refine ⟨small, big, r, r', hsmallRun, hbigRun, hagree.1, hagree.2, fun hlt => ?_⟩
      have hn : toInt text.strlen = text.strlen := toInt_eq (hshort (by omega) (by omega))
      exact tail_short hnil rfl hn (by omega) hsmall
  · apply iff_of_false
    · rintro ⟨small, big, r, r', -, hbigRun, -⟩
      exact hs (splitAt_of_smpStrSplit (by omega) (by omega) hg' hbigRun).1
    · exact fun hall => hs hall.2.1

/-- The theorem at `"ababa"`, split at `"aba"`. -/
theorem limitMerges_iff_ababa :
    LimitMerges (fun _ _ => some 8) (fun _ _ => some 8) [] [] ababa aba 2 3 := by
  have hshort : ababa.strlen < 2 ^ 31 := by decide
  have hsearch : SearchableFor aba ababa ((3 - 1 : Nat) : Int) :=
    (searchableFor_iff (by decide) (by decide) ascii_aba hshort).mpr ascii_ababa.clean
  refine (limitMerges_iff (by decide) (by decide) (by decide) (by decide) (by decide) ?_ ?_).mpr
    ⟨by decide, hsearch, fun _ _ => hshort⟩
  · constructor <;> decide
  · constructor <;> decide

/-- With the limit one there is no split at all. -/
theorem limitMerges_fails : ¬ LimitMerges (fun _ _ => some 8) (fun _ _ => some 8) [] []
    ababa aba 1 3 := by
  rintro ⟨small, big, r, r', hsmall, -⟩
  rcases @smpStrSplit_refused ababa aba (fun _ _ => some 8) [] 1 (by decide) (by decide)
    (Or.inr rfl) with ⟨r₁, hrun⟩
  rw [hrun] at hsmall
  cases hsmall

end Text
end Smpcil
