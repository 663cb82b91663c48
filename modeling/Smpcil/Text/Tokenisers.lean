import Smpcil.Text.Tok
import Smpcil.Foundations.Separators

/-!
# The two ways to cut a string

`smp_str_split` finds all pieces of a text in one search, while `smp_strtok` cuts them off one
by one; a call without a delimiter returns what is left.  The one looks for all occurrences of
the delimiter, and the other one goes on behind the last one it has found.

Main results:

- Theorem {lit}`cutsAlike_of_apart`: the two agree on every text in which the occurrences of
  the delimiter do not overlap.
- Theorem {lit}`cutsAlike_iff`: they agree there, and on all texts precisely if the delimiter has
  no border.
-/

namespace Smpcil
namespace Text

open Allocator (History Strategy)
open Strings (StringAt stringAt_iff)
open Occurrences Tokens

variable {text delim : CString} {l : List Nat} {limit : Nat}

/-! ## Runs that take the rest -/

/-- A sequence of calls of `smp_strtok`, each with its string and its delimiter. -/
def smpStrtokCalls (st : TokStatics) (buf : Buffer) :
    List (Option Nat × Option CString) → Exec (List (Option Nat) × TokStatics × Buffer)
  | [] => .ok ([], st, buf)
  | (str, delim) :: calls => do
      let (tok, st, buf) ← smpStrtok st buf str delim
      let (toks, st, buf) ← smpStrtokCalls st buf calls
      return (tok :: toks, st, buf)

/-- The calls that cut {lit}`n` tokens off the string at {lit}`str` and then ask for the rest.
Only the first of them is given the string. -/
def cutCalls (str : Nat) (delim : CString) : Nat → List (Option Nat × Option CString)
  | 0 => [(some str, none)]
  | n + 1 => (some str, some delim) :: List.replicate n (none, some delim) ++ [(none, none)]

section Runs

variable {buf : Buffer} {r : Rest Int8} {st : TokStatics}

/-- A call without a delimiter returns the rest of the string. -/
theorem smpStrtok_rest (hst : st.p = some r.pos) (hr : StringAt 0 buf r.pos r.text)
    (h0 : 0 ∉ r.text) :
    smpStrtok st buf none none = .ok (some r.pos, ⟨some r.pos, some r.pos⟩, buf) := by
  rcases stringAt_iff.mp hr with ⟨rest, hdrop⟩
  simp only [smpStrtok, if_true, hst, Buffer.strlen_of_drop h0 hdrop, Exec.ok_bind, Exec.pure_eq]

/-- Tokens are cut off one by one, and then the rest is returned. -/
theorem smpStrtokCalls_rest {n : Nat} (hst : st.p = some r.pos)
    (hr : StringAt 0 buf r.pos r.text) (h0 : 0 ∉ r.text) (hdelim : delim.bytes ≠ []) :
    ∃ st', smpStrtokCalls st buf (List.replicate n (none, some delim) ++ [(none, none)]) =
      .ok ((r.rests (List.replicate n delim.bytes)).map (fun t => some t.1), st',
        blank 0 buf (r.cuts (List.replicate n delim.bytes))) := by
  induction n generalizing st buf r with
  | zero =>
      refine ⟨⟨some r.pos, some r.pos⟩, ?_⟩
      simp only [List.replicate_zero, List.nil_append, smpStrtokCalls,
        smpStrtok_rest hst hr h0, Exec.ok_bind, Exec.pure_eq]
      rfl
  | succ n ih =>
      have hcut := (Rest.stringAt_cut hr hdelim).2
      rcases @ih (blank 0 buf (r.cut delim.bytes)) (r.next delim.bytes)
        ⟨some (r.next delim.bytes).pos, some r.pos⟩ rfl hcut (not_mem_next h0) with ⟨st', hrun⟩
      refine ⟨st', ?_⟩
      rw [List.replicate_succ, List.cons_append, smpStrtokCalls,
        smpStrtok_next hst hr h0 hdelim, Exec.ok_bind]
      simp only [hrun, Exec.ok_bind, Exec.pure_eq, List.replicate_succ, Rest.rests_cons,
        List.map_cons, Rest.cuts, blank_append]

/-- The first call sets the position that the others go on from. -/
theorem smpStrtokCalls_cutCalls {str n : Nat} :
    smpStrtokCalls st buf (cutCalls str delim n) =
      smpStrtokCalls ⟨some str, some str⟩ buf
        (List.replicate n (none, some delim) ++ [(none, none)]) := by
  cases n with
  | zero => rfl
  | succ n => rfl

/-- A whole run returns the places of the tokens and of the rest, and each of them is a
terminated string then. -/
theorem smpStrtokCalls_spec {str n : Nat} (hs : StringAt 0 buf str text.bytes)
    (hdelim : delim.bytes ≠ []) :
    ∃ st' buf', smpStrtokCalls st buf (cutCalls str delim n) =
        .ok (((Rest.mk str text.bytes).rests (List.replicate n delim.bytes)).map
          (fun t => some t.1), st', buf') ∧
      ∀ t ∈ (Rest.mk str text.bytes).rests (List.replicate n delim.bytes),
        StringAt 0 buf' t.1 t.2 := by
  rcases @smpStrtokCalls_rest delim buf ⟨str, text.bytes⟩ ⟨some str, some str⟩ n rfl hs
    text.noNul hdelim with ⟨st', hrun⟩
  have hds : ∀ d ∈ List.replicate n delim.bytes, d ≠ [] := by
    intro d hd
    rwa [List.eq_of_mem_replicate hd]
  rcases @Rest.stringAt_tokens _ 0 _ ⟨str, text.bytes⟩ _ buf hs hds with ⟨htokens, hleft⟩
  refine ⟨st', _, smpStrtokCalls_cutCalls.trans hrun, ?_⟩
  intro t ht
  rcases List.mem_append.mp ht with htoken | hrest
  · exact htokens t htoken
  · rw [List.mem_singleton.mp hrest]
    exact hleft

end Runs

/-! ## The pieces of a split -/

/-- The whole text as a piece. -/
theorem whole_bytes (hshort : text.strlen < 2 ^ 31) :
    (⟨toSize (toInt text.strlen), some 0⟩ : SmpStr).bytes text = some text.bytes := by
  rw [toInt_eq hshort, toSize_eq (by omega) (by omega), Int.toNat_natCast, ← Int.natCast_zero,
    SmpStr.bytes_eq (by omega), List.drop_zero]
  exact congrArg some (List.take_of_length_le (Nat.le_refl _))

/-- Where a piece that is not null begins. -/
theorem pieceAt_data {r : Nat} {a : Int} {m : Nat} (h : (pieceAt m l r).data = some a) :
    a = cutStart m 0 l r := by
  cases r with
  | zero =>
      simp only [pieceAt] at h
      split at h
      case isTrue => cases h
      case isFalse =>
        rw [← Option.some.inj h]
        rfl
  | succ r =>
      simp only [pieceAt] at h
      split at h
      case isTrue => cases h
      case isFalse =>
        rw [← Option.some.inj h]
        rfl

/-- Where the last piece begins, if it is not null. -/
theorem lastPiece_data {a n : Int} {m : Nat} (hne : l ≠ [])
    (h : (lastPiece m n l).data = some a) : a = cutStart m 0 l l.length := by
  obtain ⟨k, hk⟩ : ∃ k, l.length = k + 1 :=
    ⟨l.length - 1, by have := List.length_pos_iff.mpr hne; omega⟩
  rw [lastPiece, hk, Nat.add_sub_cancel] at h
  rw [hk, cutStart]
  dsimp only at h
  split at h
  case isTrue => cases h
  case isFalse =>
    rw [← Option.some.inj h]
    rfl

/-- The split is made of what lies between the positions. -/
theorem SplitAt.piece_eq {result : SmpSplit} {r : Nat} (hshort : text.strlen < 2 ^ 31)
    (h : SplitAt text delim.strlen (toInt text.strlen) l result)
    (hin : ∀ p ∈ l, p + delim.strlen ≤ text.strlen) (hr : r < result.amount) :
    (result.strs.elem r).bytes text = (cuts delim.bytes.length text.bytes 0 l)[r]? ∧
      ∀ a, (result.strs.elem r).data = some a → a = cutStart delim.strlen 0 l r := by
  have hamount := h.amount
  by_cases hlast : r = l.length
  · subst hlast
    by_cases hnil : l = []
    · subst hnil
      rw [List.length_nil, h.whole rfl, whole_bytes hshort]
      refine ⟨rfl, fun a ha => ?_⟩
      rw [← Option.some.inj ha]
      rfl
    · have hn := toInt_eq hshort
      rw [h.last hnil, hn]
      exact ⟨lastPiece_bytes hnil hin, fun a => lastPiece_data hnil⟩
  · have hlt : r < l.length := by omega
    rw [h.piece r hlt]
    exact ⟨pieceAt_bytes hin hlt, fun a => pieceAt_data⟩

/-- The positions of a split are the first occurrences. -/
theorem splitPositions_eq (hne : delim.bytes ≠ []) (hm : delim.strlen < 2 ^ 31)
    (hshort : text.strlen < 2 ^ 31) :
    splitPositions text delim limit =
      (occurrences delim.bytes text.bytes).take (limit - 1) := by
  have hpos : 1 ≤ delim.strlen := List.length_pos_iff.mpr hne
  rw [splitPositions, inText, toInt_eq hm, toInt_eq hshort, CString.first_strlen,
    occursBelow_eq_occurrences hne]
  show text.strlen < _ + delim.strlen
  omega

/-! ## Agreement -/

/-- The string at {lit}`p` is the piece, and it lies at the place of the piece, unless the piece
is null. -/
structure SamePiece (text : CString) (buf : Buffer) (str : Nat) (piece : SmpStr) (p : Nat) :
    Prop where
  string : ∃ s, piece.bytes text = some s ∧ StringAt 0 buf p s
  place : ∀ a, piece.data = some a → (p : Int) = str + a

/-- On the text at {lit}`str` the calls of `smp_strtok` that cut off as many tokens as the
split has cuts, and then ask for the rest, return the pieces of the split. -/
def CutsAlike (text delim : CString) (result : SmpSplit) (st : TokStatics) (buf : Buffer)
    (str : Nat) : Prop :=
  ∃ toks st' buf', smpStrtokCalls st buf (cutCalls str delim (result.amount - 1)) =
      .ok (toks, st', buf') ∧
    toks.length = result.amount ∧
    ∀ r < result.amount, ∃ p, toks[r]? = some (some p) ∧
      SamePiece text buf' str (result.strs.elem r) p

section Agreement

variable {place : Strategy} {h h' : History} {result : SmpSplit} {st : TokStatics}
  {buf : Buffer} {str : Nat}

/-- The two agree where the occurrences that the limit admits do not overlap. -/
theorem cutsAlike_of_apart (hne : delim.bytes ≠ []) (hfits : delim.strlen ≤ 256)
    (hmax : limit < 2 ^ 31) (hshort : text.strlen < 2 ^ 31)
    (hrun : smpStrSplit place h text delim limit = .ok (some result, h'))
    (hs : StringAt 0 buf str text.bytes)
    (happ : ((occurrences delim.bytes text.bytes).take (limit - 1)).Pairwise
      fun p q => p + delim.strlen ≤ q) : CutsAlike text delim result st buf str := by
  rcases granted_of_smpStrSplit (by omega) hrun with ⟨hlimit, hg⟩
  have hat := (splitAt_of_smpStrSplit hlimit (Nat.le_of_succ_le hmax) hg hrun).2
  rw [splitPositions_eq hne (by omega) hshort, toInt_eq (show delim.strlen < 2 ^ 31 by omega)]
    at hat
  have hpre := List.take_prefix (limit - 1) (occurrences delim.bytes text.bytes)
  generalize (occurrences delim.bytes text.bytes).take (limit - 1) = l at hat happ hpre
  have hocc : ∀ p ∈ l, delim.bytes <+: text.bytes.drop p :=
    fun p hp => (mem_occurrences hne).mp (hpre.subset hp)
  have hin : ∀ p ∈ l, p + delim.strlen ≤ text.strlen :=
    fun p hp => le_length_of_prefix hne (hocc p hp)
  have hamount := hat.amount
  rcases @Rest.rests_eq _ delim.bytes text.bytes 0 str l _ hne hocc (fun p _ => Nat.zero_le p)
    happ (fun p hp q _ hqp hq => mem_of_prefix_of_lt hpre pairwise_occurrences hp
      ((mem_occurrences hne).mpr hq) hqp) with ⟨hplaces, hstrings⟩
  rw [List.drop_zero, Nat.add_zero] at hplaces hstrings
  rcases @smpStrtokCalls_spec text delim buf st str l.length hs hne with
    ⟨st', buf', hcalls, hterminated⟩
  have hlen : ((Rest.mk str text.bytes).rests
      (List.replicate l.length delim.bytes)).length = l.length + 1 := by
    rw [← List.length_map (f := Prod.snd), hstrings, length_cuts]
  refine ⟨_, st', buf', by rw [hamount, Nat.add_sub_cancel, hcalls], ?_, ?_⟩
  · rw [List.length_map, hlen, hamount]
  · intro r hr
    obtain ⟨t, ht⟩ : ∃ t, ((Rest.mk str text.bytes).rests
        (List.replicate l.length delim.bytes))[r]? = some t :=
      ⟨_, List.getElem?_eq_getElem (by omega)⟩
    have hplace : some t.1 = (str :: l.map fun p => str + (p + delim.bytes.length))[r]? := by
      rw [← hplaces, List.getElem?_map, ht]
      rfl
    have hstring : some t.2 = (cuts delim.bytes.length text.bytes 0 l)[r]? := by
      rw [← hstrings, List.getElem?_map, ht]
      rfl
    rcases hat.piece_eq hshort hin hr with ⟨hbytes, hdata⟩
    refine ⟨t.1, by rw [List.getElem?_map, ht]; rfl, ?_, ?_⟩
    · exact ⟨t.2, by rw [hbytes, hstring], hterminated t (List.mem_of_getElem? ht)⟩
    · intro a ha
      rw [hdata a ha]
      cases r with
      | zero =>
          rw [Option.some.inj hplace, cutStart]
          rfl
      | succ r =>
          have hlt : r < l.length := by omega
          rw [List.getElem?_cons_succ, List.getElem?_map, List.getElem?_eq_getElem hlt] at hplace
          rw [Option.some.inj hplace, cutStart, List.getD_eq_getElem?_getD,
            List.getElem?_eq_getElem hlt, Option.getD_some]
          rfl

/-- A text in which the delimiter overlaps itself. -/
def overlapText (delim : CString) (t : List Int8) (ht : ∀ c ∈ t, c ∈ delim.bytes)
    (hlen : t.length ≤ 256) (hfits : delim.strlen ≤ 256) : CString where
  bytes := t ++ delim.bytes
  noNul := by
    intro h0
    rcases List.mem_append.mp h0 with hmem | hmem
    · exact delim.noNul (ht 0 hmem)
    · exact delim.noNul hmem
  fits := by
    have hd : delim.bytes.length ≤ 256 := hfits
    rw [List.length_append]
    omega

/-- On such a text the second pieces differ: that of the split is empty, but that of
`smp_strtok` is what is left of the text. -/
theorem not_cutsAlike_of_overlap {t x : List Int8} (hne : delim.bytes ≠ [])
    (hfits : delim.strlen ≤ 256) (ht : t ≠ []) (hlt : t.length < delim.strlen)
    (hx : x.length = t.length) (htx : t ++ delim.bytes = delim.bytes ++ x)
    (htext : text.bytes = t ++ delim.bytes)
    (hrun : smpStrSplit place h text delim 3 = .ok (some result, h'))
    (hs : StringAt 0 buf str text.bytes) : ¬ CutsAlike text delim result st buf str := by
  rintro ⟨toks, st', buf', hcalls, -, hsame⟩
  have hshort : text.strlen < 2 ^ 31 := by
    show text.bytes.length < _
    have hd : delim.bytes.length ≤ 256 := hfits
    rw [htext, List.length_append]
    omega
  rcases granted_of_smpStrSplit (by decide) hrun with ⟨hlimit, hg⟩
  have hat := (splitAt_of_smpStrSplit hlimit (by decide) hg hrun).2
  rcases occurrences_overlap hne ht htx with ⟨q, rest, hoccs, hq⟩
  rw [splitPositions_eq hne (by omega) hshort, toInt_eq (show delim.strlen < 2 ^ 31 by omega),
    htext, hoccs] at hat
  have hin : ∀ p ∈ (0 :: q :: rest).take (3 - 1), p + delim.strlen ≤ text.strlen := by
    intro p hp
    have hmem : p ∈ occurrences delim.bytes text.bytes := by
      rw [htext, hoccs]
      exact List.mem_of_mem_take hp
    exact le_length_of_prefix hne ((mem_occurrences hne).mp hmem)
  have hamount : result.amount = 3 := hat.amount
  -- the second piece of the split is null
  have hsecond : (result.strs.elem 1).bytes text = some [] := by
    rw [(hat.piece_eq hshort hin (by omega)).1]
    have hle : q - (0 + delim.bytes.length) = 0 := by
      have hd : delim.bytes.length = delim.strlen := rfl
      omega
    simp only [List.take_succ_cons, cuts, List.getElem?_cons_succ, List.getElem?_cons_zero, hle,
      List.take_zero]
  rcases hsame 1 (by omega) with ⟨p, htok, ⟨s, hbytes, hstring⟩, -⟩
  obtain rfl : s = [] := by
    rw [hsecond] at hbytes
    exact (Option.some.inj hbytes).symm
  -- the second call returns the rest of the text
  rcases @smpStrtokCalls_spec text delim buf st str 2 hs hne with
    ⟨st'', buf'', hcalls', hterminated⟩
  rw [hamount, hcalls'] at hcalls
  simp only [Except.ok.injEq, Prod.mk.injEq] at hcalls
  rcases hcalls with ⟨rfl, -, rfl⟩
  have hrest : ((Rest.mk str text.bytes).rests (List.replicate 2 delim.bytes))[1]? =
      some (str + delim.bytes.length, x) := by
    rw [htext, htx]
    exact Rest.rests_overlap hne (by rw [hx]; exact hlt)
  rw [List.getElem?_map, hrest, Option.map_some, Option.some.injEq, Option.some.injEq] at htok
  have hx0 : 0 ∉ x := by
    intro hmem
    apply text.noNul
    rw [htext, htx]
    exact List.mem_append_right _ hmem
  have hxat := hterminated _ (List.mem_of_getElem? hrest)
  have hnil : x = [] := StringAt.unique hx0 List.not_mem_nil hxat (htok ▸ hstring)
  rw [hnil] at hx
  exact ht (List.length_eq_zero_iff.mp hx.symm)

/-- On every text and with every limit, `smp_strtok` returns the pieces of `smp_str_split`. -/
def AlwaysCutsAlike (delim : CString) : Prop :=
  ∀ place h text limit result h' st buf str, limit < 2 ^ 31 → text.strlen < 2 ^ 31 →
    smpStrSplit place h text delim limit = .ok (some result, h') →
    StringAt 0 buf str text.bytes → CutsAlike text delim result st buf str

/-- They do so wherever the occurrences that the limit admits do not overlap. -/
def AlikeWhereApart (delim : CString) : Prop :=
  ∀ place h text limit result h' st buf str, limit < 2 ^ 31 → text.strlen < 2 ^ 31 →
    smpStrSplit place h text delim limit = .ok (some result, h') →
    StringAt 0 buf str text.bytes →
    ((occurrences delim.bytes text.bytes).take (limit - 1)).Pairwise
      (fun p q => p + delim.strlen ≤ q) → CutsAlike text delim result st buf str

/-- The two ways to cut a string agree wherever the occurrences do not overlap, and on all texts
precisely if the delimiter has no border. -/
theorem cutsAlike_iff {delim : CString} (hne : 1 ≤ delim.strlen) (hfits : delim.strlen ≤ 256)
    (hascii : delim.Ascii) :
    AlikeWhereApart delim ∧ (AlwaysCutsAlike delim ↔ Unbordered delim.bytes) := by
  have hnil : delim.bytes ≠ [] := List.length_pos_iff.mp hne
  have hapart : AlikeWhereApart delim := by
    intro place h text limit result h' st buf str hmax hshort hrun hs happ
    exact cutsAlike_of_apart hnil hfits hmax hshort hrun hs happ
  refine ⟨hapart, ?_⟩
  constructor
  case mp =>
    intro hall
    by_contra hborder
    rcases exists_overlap hborder with ⟨t, x, ht, hlt, hx, htx, hmem⟩
    have hlt' : t.length < delim.strlen := hlt
    have htext : (overlapText delim t hmem (by omega) hfits).strlen < 2 ^ 31 := by
      show (t ++ delim.bytes).length < _
      have hd : delim.bytes.length ≤ 256 := hfits
      rw [List.length_append]
      omega
    have hclean : (overlapText delim t hmem (by omega) hfits).Ascii := by
      intro c hc
      rcases List.mem_append.mp hc with hmem' | hmem'
      · exact hascii c (hmem c hmem')
      · exact hascii c hmem'
    have hg : SplitGranted (fun _ _ => some 8) [] 3 := by constructor <;> decide
    rcases smpStrSplit_pieces (by decide) (by decide) hg
      ((searchableFor_iff hnil hfits hascii htext).mpr hclean.clean) with ⟨result, h', hrun, -⟩
    have hs : StringAt 0 (t ++ delim.bytes ++ [0]) 0 (t ++ delim.bytes) := List.prefix_rfl
    exact not_cutsAlike_of_overlap hnil hfits ht hlt' hx htx rfl hrun hs
      (hall _ _ _ 3 result h' ⟨none, none⟩ _ 0 (by decide) htext hrun hs)
  case mpr =>
    intro hborder place h text limit result h' st buf str hmax hshort hrun hs
    have happ := @Unbordered.apart _ _ text.bytes _ hborder hnil
    exact hapart _ _ _ _ _ _ _ _ _ hmax hshort hrun hs (happ.sublist (List.take_sublist _ _))

/-- The string `aba,aba`. -/
def abaTwice : CString := ⟨[97, 98, 97, 44, 97, 98, 97], by decide, by decide⟩

theorem ascii_abaTwice : abaTwice.Ascii := by
  intro c hc
  simp only [abaTwice, List.mem_cons, List.not_mem_nil, or_false] at hc
  rcases hc with rfl | rfl | rfl | rfl | rfl | rfl | rfl <;> decide

theorem bordered_aba : ¬ Unbordered aba.bytes := by
  intro h
  have hshort := h [97] (by decide) (by decide) (by decide)
  exact absurd hshort (by decide)

theorem ascii_comma : comma.Ascii := by
  intro c hc
  rw [List.mem_singleton.mp hc]
  decide

/-- The two agree on the delimiter `","`; on the delimiter `"aba"` they agree where the text is
`"aba,aba"`, but not on every text. -/
theorem cutsAlike_iff_sample : AlwaysCutsAlike comma ∧ ¬ AlwaysCutsAlike aba ∧
    ∃ result h', smpStrSplit (fun _ _ => some 8) [] abaTwice aba 4 = .ok (some result, h') ∧
      CutsAlike abaTwice aba result ⟨none, none⟩ (abaTwice.bytes ++ [0]) 0 := by
  have haba := @cutsAlike_iff aba (by decide) (by decide) ascii_aba
  have hg : SplitGranted (fun _ _ => some 8) [] 4 := by constructor <;> decide
  have hsearch := (@searchableFor_iff _ _ ((4 - 1 : Nat) : Int) (by decide) (by decide)
    ascii_aba (by decide)).mpr ascii_abaTwice.clean
  rcases smpStrSplit_pieces (by decide) (by decide) hg hsearch with ⟨result, h', hrun, -⟩
  refine ⟨?_, ?_, result, h', hrun, ?_⟩
  · exact (cutsAlike_iff (by decide) (by decide) ascii_comma).2.mpr (unbordered_singleton 44)
  · exact fun hall => bordered_aba (haba.2.mp hall)
  · exact haba.1 _ _ _ 4 result h' _ _ 0 (by decide) (by decide) hrun List.prefix_rfl (by decide)

end Agreement

end Text
end Smpcil
