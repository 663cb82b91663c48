import Smpcil.Text.Search

/-!
# The searches of the library

The two functions that call the search, with the lengths they convert to `int`.

Main results:

- Theorem {lit}`smpBoyerMoore_ok_iff`: when `smp_BoyerMoore` returns without a fault.
- Theorem {lit}`smpBmSubstrExist_ok_iff`: when `smp_bm_substr_exist` does.
- Theorem {lit}`search_correct`: both compute what a naive search computes.
-/

namespace Smpcil
namespace Text

open Allocator (History Strategy)
open StringMatch Occurrences

variable {substr text : CString} {m n : Int} {place : Strategy} {h : History} {limit : Nat}

/-- The condition for a search of the whole strings, as the library calls it. -/
def SearchableFor (substr text : CString) (limit : Int) : Prop :=
  Searchable substr text (toInt substr.strlen) (toInt text.strlen) limit

/-- The arguments the library passes to the search. -/
theorem prepared {sub : IntArray} {limit : Int} (hone : 1 < sub.size) (hsize : limit < sub.size)
    (hlimit : sub.get 0 = some limit) :
    Prepared substr text (toInt substr.strlen) (toInt text.strlen) limit sub :=
  ⟨toInt_le _, toInt_lt _, toInt_le _, toInt_lt _, hone, hsize, hlimit⟩

/-! ## `smp_BoyerMoore` -/

/-- The result array that `smp_BoyerMoore` passes to the search. -/
def pointArray (limit : Nat) : IntArray := (IntArray.zeros (limit + 1)).put 0 (toInt limit)

theorem pointArray_prepared (hlimit : 1 ≤ limit) :
    Prepared substr text (toInt substr.strlen) (toInt text.strlen) (toInt limit)
      (pointArray limit) := by
  apply prepared
  · show 1 < limit + 1
    omega
  · show toInt limit < ((limit + 1 : Nat) : Int)
    have hle := toInt_le limit
    omega
  · exact IntArray.get_put_self

/-- A call whose request for memory is granted. -/
theorem smpBoyerMoore_granted (hlimit : 1 ≤ limit) (hmax : limit < 2 ^ 32 - 1)
    (halloc : (smpCalloc place h (4 * (limit + 1))).1 ≠ NULL) :
    smpBoyerMoore place h substr text limit = (do
      let subPoint ← boyerMoore substr (toInt substr.strlen) text (toInt text.strlen)
        (pointArray limit)
      return (some ((smpCalloc place h (4 * (limit + 1))).1, subPoint),
        (smpCalloc place h (4 * (limit + 1))).2)) := by
  have hamt : (limit + 1) % 2 ^ 32 = limit + 1 := Nat.mod_eq_of_lt (by omega)
  have hwrite : (IntArray.zeros (limit + 1)).write 0 (toInt limit) = .ok (pointArray limit) := by
    apply IntArray.write_eq (Int.le_refl 0)
    show (0 : Int) < ((limit + 1 : Nat) : Int)
    omega
  simp only [smpBoyerMoore, hamt, show limit ≠ 0 by omega, halloc, if_false]
  rw [hwrite]
  exact Exec.ok_bind _ _

/-- A call whose request for memory is refused. -/
theorem smpBoyerMoore_refused
    (halloc : (smpCalloc place h (4 * ((limit + 1) % 2 ^ 32))).1 = NULL) :
    ∃ h', smpBoyerMoore place h substr text limit = .ok (none, h') := by
  by_cases hzero : limit = 0
  · exact ⟨h, by simp only [smpBoyerMoore, hzero, if_true, Exec.pure_eq]⟩
  · refine ⟨(smpCalloc place h (4 * ((limit + 1) % 2 ^ 32))).2, ?_⟩
    simp only [smpBoyerMoore, hzero, if_false, halloc, if_true, Exec.pure_eq]

/-- The greatest limit asks for an array without cells. -/
theorem smpBoyerMoore_overflow (hlimit : limit = 2 ^ 32 - 1)
    (halloc : (smpCalloc place h (4 * ((limit + 1) % 2 ^ 32))).1 ≠ NULL) :
    smpBoyerMoore place h substr text limit = .error .outOfBounds := by
  have hamt : (limit + 1) % 2 ^ 32 = 0 := by omega
  have hwrite : (IntArray.zeros 0).write 0 (toInt limit) = .error .outOfBounds := if_neg (by
    show ¬ ((0 : Int) ≤ 0 ∧ (0 : Int) < ((0 : Nat) : Int))
    omega)
  rw [hamt] at halloc
  simp only [smpBoyerMoore, hamt, show limit ≠ 0 by omega, halloc, if_false, hwrite,
    Exec.error_bind]

/-- When `smp_BoyerMoore` returns without a fault. -/
theorem smpBoyerMoore_ok_iff (hlimit : 1 ≤ limit) (hmax : limit < 2 ^ 32) :
    (∃ r, smpBoyerMoore place h substr text limit = .ok r) ↔
      (smpCalloc place h (4 * ((limit + 1) % 2 ^ 32))).1 = NULL ∨
        (limit ≠ 2 ^ 32 - 1 ∧ SearchableFor substr text (toInt limit)) := by
  by_cases halloc : (smpCalloc place h (4 * ((limit + 1) % 2 ^ 32))).1 = NULL
  · rcases @smpBoyerMoore_refused substr text place h limit halloc with ⟨h', hrun⟩
    exact iff_of_true ⟨_, hrun⟩ (Or.inl halloc)
  · by_cases hgreatest : limit = 2 ^ 32 - 1
    · rw [smpBoyerMoore_overflow hgreatest halloc]
      apply iff_of_false
      · simp
      · exact fun hor => hor.elim halloc fun hs => hs.1 hgreatest
    · have hamt : (limit + 1) % 2 ^ 32 = limit + 1 := Nat.mod_eq_of_lt (by omega)
      rw [hamt] at halloc ⊢
      rw [smpBoyerMoore_granted hlimit (by omega) halloc]
      have hiff := boyerMoore_ok_iff (@pointArray_prepared substr text limit hlimit)
      constructor
      · rintro ⟨r, hr⟩
        rcases Exec.bind_eq_ok.mp hr with ⟨p, hp, -⟩
        exact Or.inr ⟨hgreatest, hiff.mp ⟨p, hp⟩⟩
      · rintro (hnull | ⟨-, hs⟩)
        · exact absurd hnull halloc
        · rcases hiff.mpr hs with ⟨p, hp⟩
          exact ⟨_, by rw [hp, Exec.ok_bind, Exec.pure_eq]⟩

/-! ## `smp_bm_substr_exist` -/

/-- The array that `smp_bm_substr_exist` passes to the search. -/
def existArray : IntArray := (IntArray.zeros 3).put 0 2

theorem existArray_prepared :
    Prepared substr text (toInt substr.strlen) (toInt text.strlen) 2 existArray := by
  apply prepared
  · decide
  · decide
  · exact IntArray.get_put_self

theorem smpBmSubstrExist_eq :
    smpBmSubstrExist text substr = (do
      let point ← boyerMoore substr (toInt substr.strlen) text (toInt text.strlen) existArray
      return ¬ (← point.read 0) ≤ 0) := by
  have hwrite : (IntArray.zeros 3).write 0 2 = .ok existArray :=
    IntArray.write_eq (Int.le_refl 0) (by decide)
  rw [smpBmSubstrExist, hwrite]
  exact Exec.ok_bind _ _

/-- What `smp_bm_substr_exist` answers for strings that can be searched. -/
theorem smpBmSubstrExist_spec (hs : SearchableFor substr text 2) :
    ∃ l point, Found substr text (toInt substr.strlen) (toInt text.strlen) 2 l point ∧
      smpBmSubstrExist text substr = .ok (decide (l ≠ [])) := by
  rcases boyerMoore_spec existArray_prepared hs with ⟨point, hrun, hsize, l, hfound⟩
  have hread : point.read 0 = .ok (l.length : Int) := by
    apply IntArray.read_eq (Int.le_refl 0) _ (hfound.first_cell_eq (by decide))
    rw [hsize]
    decide
  have hsame : decide (¬ (l.length : Int) ≤ 0) = decide (l ≠ []) := by
    rw [decide_eq_decide, ← List.length_pos_iff]
    omega
  refine ⟨l, point, hfound, ?_⟩
  rw [smpBmSubstrExist_eq, hrun, Exec.ok_bind, hread, Exec.ok_bind, Exec.pure_eq, hsame]

/-- When `smp_bm_substr_exist` returns without a fault. -/
theorem smpBmSubstrExist_ok_iff :
    (∃ r, smpBmSubstrExist text substr = .ok r) ↔ SearchableFor substr text 2 := by
  constructor
  · rintro ⟨r, hr⟩
    rw [smpBmSubstrExist_eq] at hr
    rcases Exec.bind_eq_ok.mp hr with ⟨p, hp, -⟩
    exact searchable_of_boyerMoore existArray_prepared hp
  · intro hs
    rcases smpBmSubstrExist_spec hs with ⟨l, point, -, hrun⟩
    exact ⟨_, hrun⟩

/-! ## Characters below 128 -/

/-- A string in which every character is positive. -/
def CString.Ascii (s : CString) : Prop := ∀ c ∈ s.bytes, 0 < c.toInt

theorem CString.Ascii.char {s : CString} (hs : s.Ascii) (i : Int) : 0 ≤ (s.char i).toInt := by
  by_cases hi : i.toNat < s.bytes.length
  · have hpos := hs _ (List.getElem_mem hi)
    simp only [CString.char, List.getD_eq_getElem?_getD, List.getElem?_eq_getElem hi,
      Option.getD_some]
    omega
  · simp [CString.char, List.getD_eq_getElem?_getD, List.getElem?_eq_none (Nat.not_lt.mp hi)]

theorem CString.first_strlen (s : CString) : s.first s.strlen = s.bytes := by
  simp [CString.first, CString.strlen]

/-- A pattern of positive characters that fits into the tables can be searched for in a
text whose mismatches are clean. -/
theorem searchableFor_iff {limit : Int} (hne : substr.bytes ≠ []) (hfits : substr.strlen ≤ bmSize)
    (hascii : substr.Ascii) (hlen : text.strlen < 2 ^ 31) :
    SearchableFor substr text limit ↔ Clean substr text substr.strlen text.strlen limit := by
  have hpos : 0 < substr.strlen := List.length_pos_iff.mpr hne
  have hsub : toInt substr.strlen = substr.strlen := by
    apply toInt_eq
    unfold bmSize at hfits
    omega
  unfold SearchableFor
  rw [hsub, toInt_eq hlen]
  constructor
  · exact fun h => h.clean
  · intro hclean
    refine ⟨by omega, by omega, fun i _ _ => hascii.char i, ?_, hclean⟩
    unfold bmSize at hfits
    omega

/-- In a text of positive characters every mismatch is clean. -/
theorem CString.Ascii.clean {limit : Int} (h : text.Ascii) : Clean substr text m n limit :=
  fun j _ i _ _ _ => h.char (i + j)

/-! ## The naive search -/

/-- The positions a search stores are the first ones. -/
theorem Found.eq_take {l : List Nat} {sub : IntArray} {limit : Int} (hne : substr.bytes ≠ [])
    (h : Found substr text substr.strlen text.strlen limit l sub) :
    l = (occurrences substr.bytes text.bytes).take (max limit 1).toNat := by
  rcases h.outcome with ⟨j, hl, hend⟩
  rw [CString.first_strlen] at hl
  rcases hend with ⟨-, hlen⟩ | ⟨hj, -, hlen⟩
  · have hpre := @occursBelow_prefix_occurrences _ _ _ text.bytes j hne
    rw [← hl] at hpre
    rw [← hlen]
    exact List.prefix_iff_eq_take.mp hpre
  · have hall : l = occurrences substr.bytes text.bytes := by
      rw [hl]
      apply occursBelow_eq_occurrences hne
      unfold CString.strlen at hj
      omega
    rw [← hall, List.take_of_length_le]
    rcases hlen with rfl | hlt
    · simp
    · omega

/-- What `smp_BoyerMoore` returns for strings that can be searched. -/
theorem smpBoyerMoore_spec (hlimit : 1 ≤ limit) (hmax : limit < 2 ^ 32 - 1)
    (halloc : (smpCalloc place h (4 * (limit + 1))).1 ≠ NULL)
    (hs : SearchableFor substr text (toInt limit)) :
    ∃ point, smpBoyerMoore place h substr text limit =
        .ok (some ((smpCalloc place h (4 * (limit + 1))).1, point),
          (smpCalloc place h (4 * (limit + 1))).2) ∧
      point.size = limit + 1 ∧
      ∃ l, Found substr text (toInt substr.strlen) (toInt text.strlen) (toInt limit) l point := by
  rcases boyerMoore_spec (pointArray_prepared hlimit) hs with ⟨point, hrun, hsize, hfound⟩
  refine ⟨point, ?_, hsize, hfound⟩
  rw [smpBoyerMoore_granted hlimit hmax halloc, hrun]
  exact Exec.ok_bind _ _

/-- Both searches compute what a naive search computes: `smp_BoyerMoore` returns the number
of occurrences, cut off at the limit, and behind it the first of them; and
`smp_bm_substr_exist` decides whether there is one. -/
theorem search_correct {place : Strategy} {h : History} {substr text : CString} {limit : Nat}
    (hne : 1 ≤ substr.strlen) (hfits : substr.strlen ≤ 256) (hsub : substr.Ascii)
    (htext : text.Ascii) (hlen : text.strlen < 2 ^ 31) (hlimit : 1 ≤ limit)
    (hmax : limit < 2 ^ 31 - 1) (halloc : (smpCalloc place h (4 * (limit + 1))).1 ≠ NULL) :
    (∃ point h', smpBoyerMoore place h substr text limit =
        .ok (some ((smpCalloc place h (4 * (limit + 1))).1, point), h') ∧
      point.read 0 = .ok (min limit (occurrences substr.bytes text.bytes).length : Nat) ∧
      ∀ (r : Nat) (hr : r < (occurrences substr.bytes text.bytes).length), r < limit →
        point.read ((r : Int) + 1) = .ok ((occurrences substr.bytes text.bytes)[r] : Nat)) ∧
    ∃ b, smpBmSubstrExist text substr = .ok b ∧
      (b = true ↔ ∃ j, substr.bytes <+: text.bytes.drop j) := by
  have hnil : substr.bytes ≠ [] := List.length_pos_iff.mp hne
  have hint : toInt substr.strlen = substr.strlen := toInt_eq (by omega)
  have hsearch : ∀ limit : Int, SearchableFor substr text limit :=
    fun limit => (searchableFor_iff hnil hfits hsub hlen).mpr htext.clean
  constructor
  · rcases smpBoyerMoore_spec hlimit (by omega) halloc (hsearch _) with
      ⟨point, hrun, hsize, l, hfound⟩
    rw [toInt_eq hlen, hint, toInt_eq (show limit < 2 ^ 31 by omega)] at hfound
    have hl := hfound.eq_take hnil
    rw [show (max (limit : Int) 1).toNat = limit by omega] at hl
    refine ⟨point, _, hrun, ?_, ?_⟩
    · have hzero := hfound.first_cell_eq (by omega)
      rw [hl, List.length_take] at hzero
      exact IntArray.read_eq (Int.le_refl 0) (by omega) hzero
    · intro r hr hrl
      apply IntArray.read_eq (by omega) (by omega)
      apply hfound.stores
      rw [hl, List.getElem?_take_of_lt hrl, List.getElem?_eq_getElem hr]
  · rcases smpBmSubstrExist_spec (hsearch 2) with ⟨l, point, hfound, hrun⟩
    rw [toInt_eq hlen, hint] at hfound
    have hl := hfound.eq_take hnil
    refine ⟨_, hrun, ?_⟩
    rw [decide_eq_true_eq]
    constructor
    · intro hfind
      rcases List.exists_mem_of_ne_nil l hfind with ⟨j, hj⟩
      rw [hl] at hj
      exact ⟨j, (mem_occurrences hnil).mp (List.mem_of_mem_take hj)⟩
    · rintro ⟨j, hj⟩ hempty
      rw [hempty, eq_comm, List.take_eq_nil_iff] at hl
      rcases hl with hl | hl
      · simp at hl
      · have hmem := (mem_occurrences hnil).mpr hj
        rw [hl] at hmem
        simp at hmem

/-- The string `ababa`. -/
def ababa : CString := ⟨[97, 98, 97, 98, 97], by decide, by decide⟩

/-- The string `aba`. -/
def aba : CString := ⟨[97, 98, 97], by decide, by decide⟩

theorem ascii_aba : aba.Ascii := by
  intro c hc
  simp only [aba, List.mem_cons, List.not_mem_nil, or_false] at hc
  rcases hc with rfl | rfl | rfl <;> decide

theorem ascii_ababa : ababa.Ascii := by
  intro c hc
  simp only [ababa, List.mem_cons, List.not_mem_nil, or_false] at hc
  rcases hc with rfl | rfl | rfl | rfl | rfl <;> decide

/-- Overlapping occurrences are found. -/
theorem search_correct_ababa :
    (∃ point h', smpBoyerMoore (fun _ _ => some 8) [] aba ababa 3 = .ok (some (8, point), h') ∧
      point.read 0 = .ok 2 ∧ point.read 1 = .ok 0 ∧ point.read 2 = .ok 2) ∧
    ∃ b, smpBmSubstrExist ababa aba = .ok b ∧
      (b = true ↔ ∃ j, aba.bytes <+: ababa.bytes.drop j) := by
  have hsample := @search_correct (fun _ _ => some 8) [] aba ababa 3 (by decide) (by decide)
    ascii_aba ascii_ababa (by decide) (by decide) (by decide) (by decide)
  have hpositions : occurrences aba.bytes ababa.bytes = [0, 2] := by decide
  rcases hsample with ⟨⟨point, h', hrun, hcount, hcells⟩, hexist⟩
  refine ⟨⟨point, h', hrun, ?_, ?_, ?_⟩, hexist⟩
  · simpa [hpositions] using hcount
  · simpa [hpositions] using hcells 0
  · simpa [hpositions] using hcells 1

end Text
end Smpcil
