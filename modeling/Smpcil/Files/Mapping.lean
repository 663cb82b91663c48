import Smpcil.Files.Seeking

/-!
# Files in memory

`smp_file2memmap` maps a whole file, and `smp_file2memmap_remove` takes the mapping away again.
Neither is told how long the mapping is: both ask for the size of the file, and the second one
keeps it in an `int`.

Main results:

- Theorem {lit}`setPages_undo_iff`: when unmapping undoes mapping.
- Theorem {lit}`mapping_removed_iff`: when a mapping is gone after it has been removed.
-/

namespace Smpcil
namespace Files

open Programs

/-! ## Pages -/

section Pages

variable {maps : Nat → Bool} {page n m : Nat}

theorem pagesOf_pos {len : Nat} (hlen : 0 < len) : 0 < pagesOf len := by
  unfold pagesOf pageSize
  omega

/-- A length that is shorter by a page takes a page less. -/
theorem pagesOf_lt {len len' : Nat} (hlt : len + pageSize ≤ len') :
    pagesOf len < pagesOf len' := by
  unfold pagesOf pageSize at *
  omega

/-- Free pages that have been mapped are not what they were. -/
theorem setPages_ne (hn : 0 < n) (hfree : ∀ q, page ≤ q → q < page + n → maps q = false) :
    setPages maps page n true ≠ maps := by
  intro heq
  have hpage := congrFun heq page
  rw [setPages, if_pos ⟨le_refl page, by omega⟩, hfree page (le_refl page) (by omega)] at hpage
  cases hpage

/-- Unmapping from the first page on undoes the mapping of free pages if it reaches as far, and no
page behind was mapped that it reaches. -/
theorem setPages_undo_iff (hfree : ∀ q, page ≤ q → q < page + n → maps q = false) :
    setPages (setPages maps page n true) page m false = maps ↔
      n ≤ m ∧ ∀ q, page + n ≤ q → q < page + m → maps q = false := by
  constructor
  · intro heq
    have hat : ∀ q, setPages (setPages maps page n true) page m false q = maps q := congrFun heq
    constructor
    · by_contra hlt
      have hlast := hat (page + m)
      rw [setPages, if_neg (by omega), setPages, if_pos (by omega),
        hfree (page + m) (by omega) (by omega)] at hlast
      cases hlast
    · intro q hle hlt
      have hq := hat q
      rw [setPages, if_pos (by omega)] at hq
      exact hq.symm
  · rintro ⟨hle, hbehind⟩
    funext q
    unfold setPages
    by_cases hin : page ≤ q ∧ q < page + m
    · rw [if_pos hin]
      by_cases hq : q < page + n
      · exact (hfree q hin.1 hq).symm
      · exact (hbehind q (by omega) hin.2).symm
    · rw [if_neg hin, if_neg (by omega)]

end Pages

/-! ## Mapping and removing -/

section Mapping

variable {ι π ν : Type} [DecidableEq π] [DecidableEq ν] {h : Host ι π ν} {i : ι} {fd : Int}
  {o : Nat} {d : Description ι ν} {c : List UInt8} {k k' : Kern ι π ν} {start len : Nat}
  {prot flags : Int} {st : Status}

/-- What `smp_memmap` does at an address of the kernel's choice when it returns one: the pages
were free, and are mapped. -/
theorem smpMemmap_alone {offset : Int} (hstart : start ≠ NULL)
    (hrun : Alone (Does h i) (smpMemmap NULL len prot flags fd offset) k start k') :
    ∃ page, start = page * pageSize ∧ 0 < len ∧
      (∀ q, page ≤ q → q < page + pagesOf len → k.maps (h.proc i) q = false) ∧
      k' = k.setMaps (h.proc i) (setPages (k.maps (h.proc i)) page (pagesOf len) true) := by
  simp only [smpMemmap, Prog.invoke_bind, Prog.pure_eq] at hrun
  obtain ⟨a, k₁, hdoes, hrest⟩ := Alone.call_iff.mp hrun
  generalize hcall : Syscall.sysMmap NULL len prot flags fd offset = call at hdoes
  cases hdoes with
  | failed data _ =>
      rw [if_pos rfl] at hrest
      exact absurd (Alone.ret_iff.mp hrest).1 hstart
  | @mapped _ _ page _ _ _ _ _ hlen _ _ _ hfree =>
      cases hcall
      rw [if_neg (natCast_ne _)] at hrest
      obtain ⟨rfl, rfl⟩ := Alone.ret_iff.mp hrest
      exact ⟨page, Int.toNat_natCast (page * pageSize), hlen, hfree, rfl⟩
  | @mappedFixed page _ _ _ _ _ _ _ _ _ =>
      -- a mapping at the address that was asked for would be at zero
      injection hcall with hzero
      rw [if_neg (natCast_ne _), ← hzero] at hrest
      exact absurd (Alone.ret_iff.mp hrest).1 hstart
  | opened _ _ _ _ => cases hcall
  | closed _ _ => cases hcall
  | notOpen _ => cases hcall
  | read _ _ _ _ _ _ _ => cases hcall
  | wrote _ _ _ _ _ _ => cases hcall
  | sought _ _ _ _ => cases hcall
  | unmapped _ _ => cases hcall

/-- What `smp_memmap_remove` does at the address of a page. -/
theorem smpMemmapRemove_alone {page : Nat}
    (hrun : Alone (Does h i) (smpMemmapRemove (page * pageSize) len) k st k') :
    st = .failure ∧ k' = k ∨ st = .ok ∧ 0 < len ∧ len ≤ taskSize ∧
      k' = k.setMaps (h.proc i) (setPages (k.maps (h.proc i)) page (pagesOf len) false) := by
  simp only [smpMemmapRemove, Prog.invoke_bind, Prog.pure_eq] at hrun
  obtain ⟨a, k₁, hdoes, hrest⟩ := Alone.call_iff.mp hrun
  generalize hcall : Syscall.sysMunmap (page * pageSize) len = call at hdoes
  cases hdoes with
  | failed data _ =>
      rw [if_pos rfl] at hrest
      obtain ⟨rfl, rfl⟩ := Alone.ret_iff.mp hrest
      exact .inl ⟨rfl, rfl⟩
  | @unmapped page' _ _ hlen hin =>
      injection hcall with hpage hsame
      subst hsame
      have hpage' : page' = page :=
        (Nat.mul_right_cancel (by decide : 0 < pageSize) hpage).symm
      subst hpage'
      rw [if_neg (by decide)] at hrest
      obtain ⟨rfl, rfl⟩ := Alone.ret_iff.mp hrest
      exact .inr ⟨rfl, hlen, by omega, rfl⟩
  | opened _ _ _ _ => cases hcall
  | closed _ _ => cases hcall
  | notOpen _ => cases hcall
  | read _ _ _ _ _ _ _ => cases hcall
  | wrote _ _ _ _ _ _ => cases hcall
  | sought _ _ _ _ => cases hcall
  | mapped _ _ _ _ _ => cases hcall
  | mappedFixed _ _ _ => cases hcall

theorem toSize_length (hsize : c.length < 2 ^ 63) : toSize (c.length : Int) = c.length := by
  unfold toSize
  omega

/-- `smp_file2memmap` maps as many pages as the file takes. -/
theorem smpFile2memmap_alone (hleads : Leads h k i fd o d c) (hsize : c.length < 2 ^ 63)
    (hstart : start ≠ NULL) (hrun : Alone (Does h i) (smpFile2memmap fd prot flags) k start k') :
    ∃ page, start = page * pageSize ∧ 0 < c.length ∧
      (∀ q, page ≤ q → q < page + pagesOf c.length → k.maps (h.proc i) q = false) ∧
      k' = k.setMaps (h.proc i)
        (setPages (k.maps (h.proc i)) page (pagesOf c.length) true) := by
  obtain ⟨x, k₁, hseek, hrest⟩ := Alone.bind_iff.mp hrun
  rcases sizeFromSeek_alone hleads hseek with ⟨rfl, rfl⟩ | ⟨rfl, -⟩
  · rw [if_neg (by unfold smpFailure; omega), toSize_length hsize] at hrest
    exact smpMemmap_alone hstart hrest
  · rw [if_pos rfl] at hrest
    exact absurd (Alone.ret_iff.mp hrest).1 hstart

/-- `smp_file2memmap_remove` unmaps as many pages as the size of the file takes when it has
passed through an `int`, or nothing. -/
theorem smpFile2memmapRemove_alone {page : Nat} (hleads : Leads h k i fd o d c)
    (hrun : Alone (Does h i) (smpFile2memmapRemove (page * pageSize) fd) k st k') :
    st = .failure ∧ k'.maps = k.maps ∨
      st = .ok ∧ 0 < toSize (toInt c.length) ∧ toSize (toInt c.length) ≤ taskSize ∧
      k' = k.setMaps (h.proc i) (setPages (k.maps (h.proc i)) page
        (pagesOf (toSize (toInt c.length))) false) := by
  obtain ⟨x, k₁, hseek, hrest⟩ := Alone.bind_iff.mp hrun
  rcases sizeFromSeek_alone hleads hseek with ⟨rfl, rfl⟩ | ⟨rfl, hk⟩
  · dsimp only at hrest
    split at hrest
    · obtain ⟨rfl, rfl⟩ := Alone.ret_iff.mp hrest
      exact .inl ⟨rfl, rfl⟩
    · rcases smpMemmapRemove_alone hrest with ⟨rfl, rfl⟩ | hok
      · exact .inl ⟨rfl, rfl⟩
      · exact .inr hok
  · rw [if_pos (by decide)] at hrest
    obtain ⟨rfl, rfl⟩ := Alone.ret_iff.mp hrest
    refine .inl ⟨rfl, ?_⟩
    rcases hk with rfl | rfl <;> rfl

/-- A size that passes through an `int` and is then accepted as a length takes as many pages as
before precisely if it fits. -/
theorem pagesOf_toInt {n : Nat} (hle : toSize (toInt n) ≤ taskSize) :
    pagesOf n ≤ pagesOf (toSize (toInt n)) ↔ n < 2 ^ 31 := by
  rw [toSize_toInt_eq] at hle ⊢
  unfold taskSize at hle
  constructor
  · intro hpages
    by_contra hbig
    have hlow : n % 2 ^ 32 < 2 ^ 31 := by
      by_contra hhigh
      rw [if_neg hhigh] at hle
      omega
    rw [if_pos hlow] at hpages
    have hlt : pagesOf (n % 2 ^ 32) < pagesOf n := pagesOf_lt (by unfold pageSize; omega)
    omega
  · intro hsmall
    rw [if_pos (by omega), Nat.mod_eq_of_lt (by omega)]

end Mapping

/-! ## The life of a mapping -/

section Life

variable {ι π ν : Type} [DecidableEq π] [DecidableEq ν] {h : Host ι π ν} {i : ι} {fd : Int}
  {o o' : Nat} {d d' : Description ι ν} {c c' : List UInt8} {k k₁ k₂ k₃ : Kern ι π ν}
  {start : Nat} {prot flags : Int} {st : Status}
  {K : ι → Syscall → Kern ι π ν → Answer → Kern ι π ν → Prop}

/-- A process maps the file of a descriptor, and removes the mapping later, when the file may have
another size.  Its pages are those of before precisely if the call returns `SMP_OK`, the size
through an `int` takes at least the pages that were mapped, and no page was mapped behind them as
far as it reaches.  If the file has the size that it had, this comes down to less than
{lit}`2 ^ 31` bytes. -/
theorem mapping_removed_iff (hK : Documented h K) (hleads : Leads h k i fd o d c)
    (hsize : c.length < 2 ^ 63) (hmap : Alone (K i) (smpFile2memmap fd prot flags) k start k₁)
    (hstart : start ≠ NULL) (hkept : k₂.maps (h.proc i) = k₁.maps (h.proc i))
    (hleads' : Leads h k₂ i fd o' d' c')
    (hremove : Alone (K i) (smpFile2memmapRemove start fd) k₂ st k₃) :
    (k₃.maps (h.proc i) = k.maps (h.proc i) ↔
      st = .ok ∧ pagesOf c.length ≤ pagesOf (toSize (toInt c'.length)) ∧
        ∀ q, start / pageSize + pagesOf c.length ≤ q →
          q < start / pageSize + pagesOf (toSize (toInt c'.length)) →
          k.maps (h.proc i) q = false) ∧
    (c'.length = c.length →
      (k₃.maps (h.proc i) = k.maps (h.proc i) ↔ st = .ok ∧ c.length < 2 ^ 31)) := by
  obtain ⟨page, rfl, hpos, hfree, rfl⟩ := smpFile2memmap_alone hleads hsize hstart (hmap.mono hK)
  have hmapped : k₂.maps (h.proc i) =
      setPages (k.maps (h.proc i)) page (pagesOf c.length) true :=
    hkept.trans (Function.update_self _ _ _)
  have hpage : page * pageSize / pageSize = page := Nat.mul_div_cancel page (by decide)
  rw [hpage]
  rcases smpFile2memmapRemove_alone hleads' (hremove.mono hK) with
    ⟨rfl, hsame⟩ | ⟨rfl, hlen, hle, rfl⟩
  · -- the mapping is still there
    have hne := setPages_ne (pagesOf_pos hpos) hfree
    rw [hsame, hmapped]
    constructor
    · exact iff_of_false hne fun hok => Status.noConfusion hok.1
    · intro _
      exact iff_of_false hne fun hok => Status.noConfusion hok.1
  · have hafter : (k₂.setMaps (h.proc i) (setPages (k₂.maps (h.proc i)) page
        (pagesOf (toSize (toInt c'.length))) false)).maps (h.proc i) =
        setPages (setPages (k.maps (h.proc i)) page (pagesOf c.length) true) page
          (pagesOf (toSize (toInt c'.length))) false := by
      rw [← hmapped]
      exact Function.update_self _ _ _
    rw [hafter, setPages_undo_iff hfree]
    constructor
    · exact (and_iff_right rfl).symm
    · intro hlength
      rw [hlength] at hle ⊢
      rw [pagesOf_toInt hle]
      constructor
      · rintro ⟨hsmall, -⟩
        exact ⟨rfl, hsmall⟩
      · rintro ⟨-, hsmall⟩
        refine ⟨hsmall, ?_⟩
        intro q hge hlt
        rw [toSize_toInt hsmall] at hlt
        omega

end Life

/-! ## A small file -/

/-- The first page of the file is mapped at the address of the second page. -/
theorem sample_map : Alone (Does sampleHost true) (smpFile2memmap 3 1 2) sampleKern pageSize
    (sampleKern.setMaps () (setPages (sampleKern.maps ()) 1 1 true)) := by
  have hmap : Does sampleHost true (.sysMmap NULL 3 1 2 3 0) sampleKern ⟨pageSize, []⟩
      (sampleKern.setMaps () (setPages (sampleKern.maps ()) 1 1 true)) :=
    @Does.mapped _ _ _ _ _ sampleHost true NULL 3 1 1 2 3 0 sampleKern (by decide) (by decide)
      (by decide) (by decide) fun _ _ _ => rfl
  exact Alone.bind_iff.mpr ⟨3, sampleKern, sizeFromSeek_runs (sampleKern_leads true),
    .call hmap (.ret _ _)⟩

/-- It is unmapped again. -/
theorem sample_remove {k : Kern Bool Unit String}
    (hleads : Leads sampleHost k true 3 0 ⟨"log", 0, 1, true⟩ [1, 2, 3]) :
    Alone (Does sampleHost true) (smpFile2memmapRemove pageSize 3) k .ok
      (k.setMaps () (setPages (k.maps ()) 1 1 false)) := by
  have hremove : Does sampleHost true (.sysMunmap pageSize 3) k ⟨0, []⟩
      (k.setMaps () (setPages (k.maps ()) 1 1 false)) :=
    @Does.unmapped _ _ _ _ _ sampleHost true 1 3 k (by decide) (by decide)
  exact Alone.bind_iff.mpr ⟨3, k, sizeFromSeek_runs hleads, .call hremove (.ret _ _)⟩

theorem mapping_removed_iff_small : ∃ k₁ k₃,
    Alone (Does sampleHost true) (smpFile2memmap 3 1 2) sampleKern pageSize k₁ ∧
    Alone (Does sampleHost true) (smpFile2memmapRemove pageSize 3) k₁ .ok k₃ ∧
    k₃.maps () = sampleKern.maps () := by
  have hleads : Leads sampleHost (sampleKern.setMaps () (setPages (sampleKern.maps ()) 1 1 true))
      true 3 0 ⟨"log", 0, 1, true⟩ [1, 2, 3] := ⟨rfl, rfl, rfl⟩
  refine ⟨_, _, sample_map, sample_remove hleads, ?_⟩
  have hiff := mapping_removed_iff (K := Does sampleHost) id (sampleKern_leads true) (by decide)
    sample_map (by decide) rfl hleads (sample_remove hleads)
  exact (hiff.2 rfl).mpr ⟨rfl, by decide⟩

end Files
end Smpcil
