import Smpcil.Basic
import Smpcil.Foundations.Loop
import Smpcil.Foundations.Trimming

/-!
# Trimming a string

`smp_str_trim`, `smp_str_trimLF` and `smp_str_trim_complete` of `smp_string.c`.  A
buffer is the list of its bytes, and a pointer into it is a position; an access outside
the buffer is a fault.

Main results:

- Theorem {lit}`trims_iff`: both trims are exact and stay inside the string precisely on
  the strings that do not end in a blank or consist of blanks.
- Theorem {lit}`completes_iff`: complete trimming is complete precisely on the strings with
  the line ends before the spaces at the front and neither of them at the back.
-/

namespace Smpcil
namespace Text

open Loops (Pass loop)
open Strings (StringAt startsIn endsIn trim)

/-! ## The functions -/

/-- A buffer of `char`s. -/
abbrev Buffer := List Int8

/-- `*p`. -/
def Buffer.read (buf : Buffer) (p : Nat) : Exec Int8 :=
  match buf[p]? with
  | some c => .ok c
  | none => .error .outOfBounds

/-- `*p = c`. -/
def Buffer.write (buf : Buffer) (p : Nat) (c : Int8) : Exec Buffer :=
  if p < buf.length then .ok (buf.set p c) else .error .outOfBounds

/-- `SMP_IS_SPACE`. -/
def smpIsSpace (c : Int8) : Bool := c = 32 || c = 9

/-- `SMP_IS_CRLF`. -/
def smpIsCrlf (c : Int8) : Bool := c = 10 || c = 13

/-- One pass of `while (blank(*str)) ++str;`. -/
def skipPass (blank : Int8 → Bool) (buf : Buffer) (str : Nat) : Exec (Pass Nat Nat) := do
  let c ← buf.read str
  if blank c then return .again (str + 1) else return .done str

/-- The loop `while (blank(*str)) ++str;`. -/
def skipBlanks (blank : Int8 → Bool) (buf : Buffer) (str : Nat) : Exec Nat :=
  loop .diverged (skipPass blank buf) (buf.length + 1) str

/-- One pass of the `for` loop; the state is {lit}`str` and {lit}`end`, and the pass ends
with the loop's own {lit}`str++`. -/
def trimPass (blank : Int8 → Bool) (buf : Buffer) (s : Nat × Option Nat) :
    Exec (Pass (Nat × Option Nat) (Option Nat)) := do
  let (str, endp) := s
  let c ← buf.read str
  if c = 0 then return .done endp
  if blank c then
    let next ← skipBlanks blank buf (str + 1)
    let d ← buf.read next
    return .again (next + 1, if d ≠ 0 then none else some str)
  else return .again (str + 1, endp)

/-- What `smp_str_trim` and `smp_str_trimLF` have in common: the pointer returned and the
buffer. -/
def trimBy (blank : Int8 → Bool) (buf : Buffer) (str : Option Nat) :
    Exec (Option Nat × Buffer) := do
  match str with
  | none => return (none, buf)
  | some str =>
    let start ← skipBlanks blank buf str
    match ← loop .diverged (trimPass blank buf) (buf.length + 1) (start, none) with
    | none => return (some start, buf)
    | some endp =>
      let buf ← buf.write endp 0
      return (some start, buf)

/-- `smp_str_trim`. -/
def smpStrTrim (buf : Buffer) (str : Option Nat) : Exec (Option Nat × Buffer) :=
  trimBy smpIsSpace buf str

/-- `smp_str_trimLF`; it looks for a null pointer twice. -/
def smpStrTrimLF (buf : Buffer) (str : Option Nat) : Exec (Option Nat × Buffer) := do
  if str = none then return (none, buf)
  trimBy smpIsCrlf buf str

/-- `smp_str_trimCRLF`. -/
def smpStrTrimCRLF (buf : Buffer) (str : Option Nat) : Exec (Option Nat × Buffer) :=
  smpStrTrimLF buf str

/-- `smp_str_trim_complete`. -/
def smpStrTrimComplete (buf : Buffer) (str : Option Nat) : Exec (Option Nat × Buffer) := do
  let (str, buf) ← smpStrTrimCRLF buf str
  smpStrTrim buf str

/-- The second look for a null pointer changes nothing. -/
theorem smpStrTrimLF_eq (buf : Buffer) (str : Option Nat) :
    smpStrTrimLF buf str = trimBy smpIsCrlf buf str := by
  cases str with
  | none => rfl
  | some str => rfl

/-! ## Single passes -/

section Passes

variable {blank : Int8 → Bool} {buf : Buffer} {str : Nat} {c : Int8} {rest : List Int8}

theorem Buffer.read_of_drop (h : buf.drop str = c :: rest) : buf.read str = .ok c := by
  have hget : buf[str]? = some c := by
    rw [← List.head?_drop, h, List.head?_cons]
  simp [Buffer.read, hget]

theorem Buffer.read_of_drop_nil (h : buf.drop str = []) :
    buf.read str = .error .outOfBounds := by
  have hget : buf[str]? = none := by
    rw [← List.head?_drop, h, List.head?_nil]
  simp [Buffer.read, hget]

theorem drop_succ_of_drop (h : buf.drop str = c :: rest) : buf.drop (str + 1) = rest := by
  rw [← List.tail_drop, h, List.tail_cons]

theorem drop_add_of_drop {run : List Int8} (h : buf.drop str = run ++ rest) :
    buf.drop (str + run.length) = rest := by
  rw [← List.drop_drop, h, List.drop_left]

/-- The loop over the blanks stops behind a run that something else follows. -/
theorem skipBlanks_run {run : List Int8} (hbuf : buf.drop str = run ++ c :: rest)
    (hrun : ∀ d ∈ run, blank d) (hc : blank c = false) :
    skipBlanks blank buf str = .ok (str + run.length) := by
  have hpass : ∀ n s, (∃ run', n = run'.length ∧ buf.drop s = run' ++ c :: rest ∧
      (∀ d ∈ run', blank d) ∧ s + run'.length = str + run.length) →
      (∃ r, skipPass blank buf s = .ok (.done r) ∧ r = str + run.length) ∨
        ∃ s' m, skipPass blank buf s = .ok (.again s') ∧
          (∃ run', m = run'.length ∧ buf.drop s' = run' ++ c :: rest ∧
            (∀ d ∈ run', blank d) ∧ s' + run'.length = str + run.length) ∧ m < n := by
    rintro n s ⟨run', rfl, hs, hrun', hend⟩
    cases run' with
    | nil =>
        refine Or.inl ⟨s, ?_, by simpa using hend⟩
        simp [skipPass, Buffer.read_of_drop hs, hc]
    | cons d run' =>
        refine Or.inr ⟨s + 1, run'.length, ?_, ⟨run', rfl, drop_succ_of_drop hs, ?_, ?_⟩, ?_⟩
        · simp [skipPass, Buffer.read_of_drop hs, hrun' d (by simp)]
        · exact fun d hd => hrun' d (by simp [hd])
        · simp only [List.length_cons] at hend
          omega
        · simp
  have hlen := congrArg List.length hbuf
  simp only [List.length_drop, List.length_append, List.length_cons] at hlen
  have hspec : ∃ r, skipBlanks blank buf str = .ok r ∧ r = str + run.length :=
    Loops.loop_spec _ _ hpass ⟨run, rfl, hbuf, hrun, rfl⟩ (by omega)
  rcases hspec with ⟨r, hr, rfl⟩
  exact hr

/-- The `for` loop ends at the terminator. -/
theorem trimPass_nul {endp : Option Nat} (h : buf.drop str = 0 :: rest) :
    trimPass blank buf (str, endp) = .ok (.done endp) := by
  simp [trimPass, Buffer.read_of_drop h]

/-- The `for` loop passes over a character that is no blank. -/
theorem trimPass_char {endp : Option Nat} (h : buf.drop str = c :: rest) (hc0 : c ≠ 0)
    (hc : blank c = false) :
    trimPass blank buf (str, endp) = .ok (.again (str + 1, endp)) := by
  simp [trimPass, Buffer.read_of_drop h, hc0, hc]

/-- At a blank the `for` loop passes over the whole run and over the character behind it,
be it the terminator. -/
theorem trimPass_run (endp : Option Nat) {b : Int8} {run : List Int8}
    (h : buf.drop str = b :: (run ++ c :: rest)) (hb0 : b ≠ 0) (hb : blank b)
    (hrun : ∀ d ∈ run, blank d) (hc : blank c = false) :
    trimPass blank buf (str, endp) =
      .ok (.again (str + 1 + run.length + 1, if c ≠ 0 then none else some str)) := by
  have hnext : buf.drop (str + 1) = run ++ c :: rest := drop_succ_of_drop h
  have hskip := skipBlanks_run hnext hrun hc
  have hread := Buffer.read_of_drop (drop_add_of_drop hnext)
  simp [trimPass, Buffer.read_of_drop h, hb0, hb, hskip, hread]

end Passes

/-! ## The `for` loop -/

section Scan

variable {blank : Int8 → Bool} {buf : Buffer} {str : Nat}

/-- A list is a run of blanks and a list that does not start in one. -/
theorem exists_run (blank : Int8 → Bool) (s : List Int8) :
    ∃ run tail, s = run ++ tail ∧ (∀ c ∈ run, blank c) ∧ startsIn blank tail = false :=
  ⟨s.takeWhile blank, s.dropWhile blank, List.takeWhile_append_dropWhile.symm,
    fun _ hc => List.mem_takeWhile_imp hc, Strings.startsIn_dropWhile⟩

/-- On a string that does not end in a blank the scan ends at the terminator, with
nothing to cut off. -/
theorem scan_inside {u rest : List Int8} (h0 : 0 ∉ u)
    (hend : endsIn blank u = false) (hbuf : buf.drop str = u ++ 0 :: rest) :
    loop .diverged (trimPass blank buf) (buf.length + 1) (str, none) = .ok none := by
  -- what is still to be scanned is again such a string
  have hpass : ∀ n s, (∃ v, n = v.length ∧ s.2 = none ∧ 0 ∉ v ∧ endsIn blank v = false ∧
      buf.drop s.1 = v ++ 0 :: rest) →
      (∃ r, trimPass blank buf s = .ok (.done r) ∧ r = none) ∨
        ∃ s' m, trimPass blank buf s = .ok (.again s') ∧
          (∃ v, m = v.length ∧ s'.2 = none ∧ 0 ∉ v ∧ endsIn blank v = false ∧
            buf.drop s'.1 = v ++ 0 :: rest) ∧ m < n := by
    rintro n ⟨p, endp⟩ ⟨v, rfl, hnone, hv0, hvend, hdrop⟩
    subst hnone
    cases v with
    | nil => exact Or.inl ⟨none, trimPass_nul hdrop, rfl⟩
    | cons c v =>
        apply Or.inr
        simp only [List.mem_cons, not_or] at hv0
        cases hc : blank c with
        | false =>
            refine ⟨_, v.length, trimPass_char hdrop (Ne.symm hv0.1) hc,
              ⟨v, rfl, rfl, hv0.2, ?_, drop_succ_of_drop hdrop⟩, by simp⟩
            by_cases hnil : v = []
            · rw [hnil, Strings.endsIn_nil]
            · rwa [Strings.endsIn_cons hnil] at hvend
        | true =>
            -- the blanks are followed by a character of the string
            obtain ⟨run, tail, rfl, hrun, htail⟩ := exists_run blank v
            cases tail with
            | nil =>
                rw [List.append_nil] at hvend
                have hblank : endsIn blank (c :: run) = true :=
                  Strings.endsIn_of_forall (by simp) (by simpa [hc] using hrun)
                exact absurd hvend (by simp [hblank])
            | cons d tail =>
                rw [Strings.startsIn_cons] at htail
                have hd0 : d ≠ 0 := fun h => hv0.2 (by simp [h])
                rw [List.cons_append, List.append_assoc, List.cons_append] at hdrop
                have hstep := trimPass_run none hdrop (Ne.symm hv0.1) hc hrun htail
                rw [if_pos hd0] at hstep
                refine ⟨_, tail.length, hstep, ⟨tail, rfl, rfl, ?_, ?_, ?_⟩, ?_⟩
                · exact fun h => hv0.2 (by simp [h])
                · by_cases hnil : tail = []
                  · rw [hnil, Strings.endsIn_nil]
                  · rwa [← List.cons_append, Strings.endsIn_append (by simp),
                      Strings.endsIn_cons hnil] at hvend
                · exact drop_succ_of_drop (drop_add_of_drop (drop_succ_of_drop hdrop))
                · simp only [List.length_cons, List.length_append]
                  omega
  have hlen := congrArg List.length hbuf
  simp only [List.length_drop, List.length_append, List.length_cons] at hlen
  have hspec : ∃ r, loop .diverged (trimPass blank buf) (buf.length + 1) (str, none) =
      .ok r ∧ r = none :=
    Loops.loop_spec _ _ hpass ⟨u, rfl, rfl, h0, hend, hbuf⟩ (by omega)
  rcases hspec with ⟨r, hr, rfl⟩
  exact hr

/-- On a string that ends in a blank the scan steps over the terminator. -/
theorem scan_outside (hnul : blank 0 = false) {u : List Int8} (h0 : 0 ∉ u)
    (hend : endsIn blank u = true) (hbuf : buf.drop str = u ++ [0]) :
    loop .diverged (trimPass blank buf) (buf.length + 1) (str, none) =
      .error .outOfBounds := by
  -- either such a string is still to be scanned, or the buffer is used up
  have hpass : ∀ n s, (n = 0 ∧ buf.drop s.1 = [] ∨ ∃ v, n = v.length ∧ 0 ∉ v ∧
      endsIn blank v = true ∧ buf.drop s.1 = v ++ [0]) →
      trimPass blank buf s = .error .outOfBounds ∨
        ∃ s' m, trimPass blank buf s = .ok (.again s') ∧
          (m = 0 ∧ buf.drop s'.1 = [] ∨ ∃ v, m = v.length ∧ 0 ∉ v ∧
            endsIn blank v = true ∧ buf.drop s'.1 = v ++ [0]) ∧ m < n := by
    rintro n ⟨p, endp⟩ (⟨rfl, hnil⟩ | ⟨v, rfl, hv0, hvend, hdrop⟩)
    · exact Or.inl (by simp [trimPass, Buffer.read_of_drop_nil hnil])
    cases v with
    | nil => simp at hvend
    | cons c v =>
        apply Or.inr
        simp only [List.mem_cons, not_or] at hv0
        cases hc : blank c with
        | false =>
            have hv : v ≠ [] := by
              rintro rfl
              simp [Strings.endsIn, hc] at hvend
            rw [Strings.endsIn_cons hv] at hvend
            exact ⟨_, v.length, trimPass_char hdrop (Ne.symm hv0.1) hc,
              Or.inr ⟨v, rfl, hv0.2, hvend, drop_succ_of_drop hdrop⟩, by simp⟩
        | true =>
            obtain ⟨run, tail, rfl, hrun, htail⟩ := exists_run blank v
            rw [List.cons_append, List.append_assoc] at hdrop
            cases tail with
            | nil =>
                have hstep := trimPass_run endp hdrop (Ne.symm hv0.1) hc hrun hnul
                refine ⟨_, 0, hstep, Or.inl ⟨rfl, ?_⟩, by simp⟩
                exact drop_succ_of_drop (drop_add_of_drop (drop_succ_of_drop hdrop))
            | cons d tail =>
                rw [Strings.startsIn_cons] at htail
                rw [List.cons_append] at hdrop
                have hstep := trimPass_run endp hdrop (Ne.symm hv0.1) hc hrun htail
                rw [← List.cons_append, Strings.endsIn_append (by simp)] at hvend
                have hnil : tail ≠ [] := by
                  rintro rfl
                  simp [Strings.endsIn, htail] at hvend
                rw [Strings.endsIn_cons hnil] at hvend
                refine ⟨_, tail.length, hstep, Or.inr ⟨tail, rfl, ?_, hvend, ?_⟩, ?_⟩
                · exact fun h => hv0.2 (by simp [h])
                · exact drop_succ_of_drop (drop_add_of_drop (drop_succ_of_drop hdrop))
                · simp only [List.length_cons, List.length_append]
                  omega
  have hlen := congrArg List.length hbuf
  simp only [List.length_drop, List.length_append, List.length_cons] at hlen
  exact Loops.loop_error _ hpass (Or.inr ⟨u, rfl, h0, hend, hbuf⟩) (by omega)

end Scan

/-! ## One trim -/

section Trim

variable {blank : Int8 → Bool} {buf : Buffer} {str : Nat} {run u rest : List Int8}

/-- Behind a leading run of blanks, a string that does not end in a blank is returned as
it is. -/
theorem trimBy_inside (hnul : blank 0 = false) (h0 : 0 ∉ u) (hrun : ∀ c ∈ run, blank c)
    (hstart : startsIn blank u = false) (hend : endsIn blank u = false)
    (hbuf : buf.drop str = run ++ (u ++ 0 :: rest)) :
    trimBy blank buf (some str) = .ok (some (str + run.length), buf) := by
  have hskip : skipBlanks blank buf str = .ok (str + run.length) := by
    cases u with
    | nil => exact skipBlanks_run hbuf hrun hnul
    | cons c u => exact skipBlanks_run hbuf hrun (by simpa using hstart)
  have hscan := scan_inside h0 hend (drop_add_of_drop hbuf)
  simp [trimBy, hskip, hscan]

/-- A string that ends in a blank, but is more than a leading run, makes the trim leave a
buffer that ends with the terminator. -/
theorem trimBy_outside (hnul : blank 0 = false) (h0 : 0 ∉ u) (hrun : ∀ c ∈ run, blank c)
    (hstart : startsIn blank u = false) (hend : endsIn blank u = true)
    (hbuf : buf.drop str = run ++ (u ++ [0])) :
    trimBy blank buf (some str) = .error .outOfBounds := by
  have hskip : skipBlanks blank buf str = .ok (str + run.length) := by
    cases u with
    | nil => exact skipBlanks_run hbuf hrun hnul
    | cons c u => exact skipBlanks_run hbuf hrun (by simpa using hstart)
  have hscan := scan_outside hnul h0 hend (drop_add_of_drop hbuf)
  simp [trimBy, hskip, hscan]

/-- Behind the leading run nothing ends in a blank precisely if the string does not, or
is such a run. -/
theorem endsIn_tail_iff (hrun : ∀ c ∈ run, blank c) (hstart : startsIn blank u = false) :
    endsIn blank u = false ↔ endsIn blank (run ++ u) = false ∨ ∀ c ∈ run ++ u, blank c := by
  cases u with
  | nil => simpa using Or.inr hrun
  | cons c u =>
      rw [Strings.startsIn_cons] at hstart
      rw [Strings.endsIn_append (by simp)]
      constructor
      case mp => exact Or.inl
      case mpr =>
        rintro (hend | hall)
        · exact hend
        · simp [hall c (by simp)] at hstart

/-- On the string {lit}`s`, trimming is exact and stays inside the string: the bytes up to
the terminator suffice for it, the string returned is {lit}`s` without its leading and
trailing blanks, and whatever follows the terminator neither matters nor changes. -/
def Trims (blank : Int8 → Bool) (f : Buffer → Option Nat → Exec (Option Nat × Buffer))
    (s : List Int8) : Prop :=
  ∃ start buf, f (s ++ [0]) (some 0) = .ok (some start, buf) ∧
    StringAt 0 buf start (trim blank s) ∧
    ∀ rest, f (s ++ 0 :: rest) (some 0) = .ok (some start, buf ++ rest)

/-- A trim is exact and stays inside the string precisely if the string does not end in a
blank or consists of blanks. -/
theorem trims_trimBy_iff (hnul : blank 0 = false) {s : List Int8} (h0 : 0 ∉ s) :
    Trims blank (trimBy blank) s ↔ endsIn blank s = false ∨ ∀ c ∈ s, blank c := by
  obtain ⟨run, u, rfl, hrun, hstart⟩ := exists_run blank s
  have hu0 : 0 ∉ u := fun h => h0 (by simp [h])
  rw [← endsIn_tail_iff hrun hstart]
  constructor
  case mp =>
    rintro ⟨start, buf, hok, -, -⟩
    by_contra hend
    rw [Bool.not_eq_false] at hend
    have hfault : trimBy blank (run ++ u ++ [0]) (some 0) = .error .outOfBounds :=
      trimBy_outside hnul hu0 hrun hstart hend (by simp)
    rw [hfault] at hok
    cases hok
  case mpr =>
    intro hend
    have hok : ∀ rest, trimBy blank (run ++ u ++ 0 :: rest) (some 0) =
        .ok (some run.length, run ++ u ++ 0 :: rest) := by
      intro rest
      have hbuf : (run ++ u ++ 0 :: rest).drop 0 = run ++ (u ++ 0 :: rest) := by
        rw [List.drop_zero, List.append_assoc]
      rw [trimBy_inside hnul hu0 hrun hstart hend hbuf, Nat.zero_add]
    refine ⟨run.length, run ++ u ++ [0], hok [], ?_, fun rest => ?_⟩
    · rw [Strings.trim_append hrun hstart hend]
      exact Strings.stringAt_iff.mpr ⟨[], by rw [List.append_assoc, List.drop_left]⟩
    · rw [hok rest, List.append_assoc (run ++ u), List.singleton_append]

/-- `smp_str_trim` and `smp_str_trimLF` are exact and stay inside the string precisely if
it does not end in one of their blanks or consists of these. -/
theorem trims_iff (s : List Int8) (h0 : 0 ∉ s) :
    (Trims smpIsSpace smpStrTrim s ↔
      endsIn smpIsSpace s = false ∨ ∀ c ∈ s, smpIsSpace c) ∧
    (Trims smpIsCrlf smpStrTrimLF s ↔
      endsIn smpIsCrlf s = false ∨ ∀ c ∈ s, smpIsCrlf c) := by
  constructor
  · exact trims_trimBy_iff (by decide) h0
  · have hfun : smpStrTrimLF = trimBy smpIsCrlf := by
      ext buf str : 2
      exact smpStrTrimLF_eq buf str
    rw [hfun]
    exact trims_trimBy_iff (by decide) h0

/-- The theorem at strings with blanks in front and inside, and at one that ends in a blank. -/
theorem trims_iff_blanks : Trims smpIsSpace smpStrTrim [32, 9, 97, 32, 98] ∧
    Trims smpIsCrlf smpStrTrimLF [13, 10, 97, 10, 98] ∧
    ¬ Trims smpIsSpace smpStrTrim [32, 97, 32] := by
  refine ⟨?_, ?_, ?_⟩
  · exact (trims_iff [32, 9, 97, 32, 98] (by decide)).1.mpr (Or.inl (by decide))
  · exact (trims_iff [13, 10, 97, 10, 98] (by decide)).2.mpr (Or.inl (by decide))
  · intro htrims
    rcases (trims_iff [32, 97, 32] (by decide)).1.mp htrims with hend | hall
    · exact absurd hend (by decide)
    · exact absurd (hall 97 (by decide)) (by decide)

/-- On the string `"a "` the trim of spaces reads behind the terminator. -/
theorem trims_fails :
    ¬ ∀ s : List Int8, 0 ∉ s →
      Trims smpIsSpace smpStrTrim s ∧ Trims smpIsCrlf smpStrTrimLF s := by
  intro hall
  rcases (hall [97, 32] (by decide)).1 with ⟨start, buf, hok, -, -⟩
  have hfault : smpStrTrim [97, 32, 0] (some 0) = .error .outOfBounds := by decide
  rw [List.cons_append, List.cons_append, List.nil_append, hfault] at hok
  cases hok

end Trim

/-! ## Complete trimming -/

section Complete

/-- A space, a tab, a carriage return or a line feed. -/
def isBlank (c : Int8) : Bool := smpIsSpace c || smpIsCrlf c

variable {buf : Buffer} {str : Nat} {s ends spaces t rest : List Int8}

theorem isBlank_of_space (c : Int8) (h : smpIsSpace c) : isBlank c := by
  simp [isBlank, h]

theorem isBlank_of_crlf (c : Int8) (h : smpIsCrlf c) : isBlank c := by
  simp [isBlank, h]

/-- No character is both a space and a line end. -/
theorem not_crlf_of_space {c : Int8} (h : smpIsSpace c) : smpIsCrlf c = false := by
  simp only [smpIsSpace, Bool.or_eq_true, decide_eq_true_eq] at h
  rcases h with rfl | rfl
  · decide
  · decide

/-- The string that starts with line ends, then spaces, and neither starts nor ends in a
blank behind them. -/
structure Layered (s ends spaces t : List Int8) : Prop where
  eq : s = ends ++ (spaces ++ t)
  crlf : ∀ c ∈ ends, smpIsCrlf c
  space : ∀ c ∈ spaces, smpIsSpace c
  starts : startsIn isBlank t = false
  ends : endsIn isBlank t = false

theorem Layered.trim_eq (h : Layered s ends spaces t) : trim isBlank s = t := by
  rw [h.eq, ← List.append_assoc]
  apply Strings.trim_append ?_ h.starts h.ends
  intro c hc
  rcases List.mem_append.mp hc with hc | hc
  · exact isBlank_of_crlf c (h.crlf c hc)
  · exact isBlank_of_space c (h.space c hc)

/-- Behind the line ends no line end comes first. -/
theorem Layered.starts_middle (h : Layered s ends spaces t) :
    startsIn smpIsCrlf (spaces ++ t) = false := by
  cases spaces with
  | nil => exact Strings.startsIn_mono isBlank_of_crlf h.starts
  | cons c spaces => exact not_crlf_of_space (h.space c (by simp))

/-- Behind the line ends no line end comes last. -/
theorem Layered.ends_middle (h : Layered s ends spaces t) :
    endsIn smpIsCrlf (spaces ++ t) = false := by
  by_cases ht : t = []
  · rw [ht, List.append_nil]
    exact Strings.endsIn_of_forall_not (fun c hc => not_crlf_of_space (h.space c hc))
  · rw [Strings.endsIn_append ht]
    exact Strings.endsIn_mono isBlank_of_crlf h.ends

/-- On a layered string the two trims take off one layer each. -/
theorem Layered.complete (h : Layered s ends spaces t) (h0 : 0 ∉ s)
    (hbuf : buf.drop str = s ++ 0 :: rest) :
    smpStrTrimComplete buf (some str) =
      .ok (some (str + ends.length + spaces.length), buf) := by
  rw [h.eq] at h0 hbuf
  simp only [List.mem_append, not_or] at h0
  have hmiddle : 0 ∉ spaces ++ t := by simpa using h0.2
  rw [List.append_assoc] at hbuf
  have hfirst := trimBy_inside (by decide) hmiddle h.crlf h.starts_middle h.ends_middle hbuf
  have hrest := drop_add_of_drop hbuf
  rw [List.append_assoc] at hrest
  have hsecond := trimBy_inside (by decide) h0.2.2 h.space
    (Strings.startsIn_mono isBlank_of_space h.starts)
    (Strings.endsIn_mono isBlank_of_space h.ends) hrest
  rw [smpStrTrimComplete, smpStrTrimCRLF, smpStrTrimLF_eq, hfirst, Exec.ok_bind]
  exact hsecond

/-- Where complete trimming stays inside the string, it takes off the line ends at the
front and the spaces behind them. -/
theorem exists_of_complete (h0 : 0 ∉ s) {r : Option Nat × Buffer}
    (hok : smpStrTrimComplete (s ++ [0]) (some 0) = .ok r) :
    ∃ ends spaces t, s = ends ++ (spaces ++ t) ∧ (∀ c ∈ ends, smpIsCrlf c) ∧
      (∀ c ∈ spaces, smpIsSpace c) ∧ 0 ∉ t ∧
        r = (some (ends.length + spaces.length), s ++ [0]) := by
  obtain ⟨ends, middle, rfl, hends, hmiddle⟩ := exists_run smpIsCrlf s
  obtain ⟨spaces, t, rfl, hspaces, ht⟩ := exists_run smpIsSpace middle
  simp only [List.mem_append, not_or] at h0
  have hmiddle0 : 0 ∉ spaces ++ t := by simpa using h0.2
  have hbuf : (ends ++ (spaces ++ t) ++ [0]).drop 0 = ends ++ (spaces ++ t ++ [0]) := by
    rw [List.drop_zero, List.append_assoc]
  rw [smpStrTrimComplete, smpStrTrimCRLF, smpStrTrimLF_eq] at hok
  have hmiddleEnds : endsIn smpIsCrlf (spaces ++ t) = false := by
    by_contra hend
    rw [trimBy_outside (by decide) hmiddle0 hends hmiddle (Bool.not_eq_false _ ▸ hend) hbuf] at hok
    cases hok
  rw [trimBy_inside (by decide) hmiddle0 hends hmiddle hmiddleEnds hbuf, Exec.ok_bind] at hok
  change trimBy smpIsSpace _ _ = _ at hok
  have hrest : (ends ++ (spaces ++ t) ++ [0]).drop (0 + ends.length) = spaces ++ (t ++ [0]) := by
    rw [drop_add_of_drop hbuf, List.append_assoc]
  have htEnds : endsIn smpIsSpace t = false := by
    by_contra hend
    rw [trimBy_outside (by decide) h0.2.2 hspaces ht (Bool.not_eq_false _ ▸ hend) hrest] at hok
    cases hok
  rw [trimBy_inside (by decide) h0.2.2 hspaces ht htEnds hrest, Nat.zero_add] at hok
  exact ⟨ends, spaces, t, rfl, hends, hspaces, h0.2.2, (Except.ok.inj hok).symm⟩

/-- On the string {lit}`s`, complete trimming is complete: whatever follows the
terminator, the string returned neither starts nor ends in a blank, is {lit}`s` without
its leading and trailing blanks, and is left as it is by another complete trimming. -/
def Completes (s : List Int8) : Prop :=
  ∀ rest, ∃ start buf t, smpStrTrimComplete (s ++ 0 :: rest) (some 0) = .ok (some start, buf) ∧
    StringAt 0 buf start t ∧ startsIn isBlank t = false ∧ endsIn isBlank t = false ∧
    t = trim isBlank s ∧
    ∃ start' buf', smpStrTrimComplete buf (some start) = .ok (some start', buf') ∧
      StringAt 0 buf' start' t

/-- Complete trimming is complete precisely on the layered strings. -/
theorem completes_iff (s : List Int8) (h0 : 0 ∉ s) :
    Completes s ↔ ∃ ends spaces t, Layered s ends spaces t := by
  constructor
  case mp =>
    intro h
    obtain ⟨start, buf, t', hok, hat, hstarts, hends, htrim, -⟩ := h []
    obtain ⟨ends, spaces, t, hs, hcrlf, hspace, ht0, hr⟩ := exists_of_complete h0 hok
    obtain ⟨rfl, rfl⟩ : start = ends.length + spaces.length ∧ buf = s ++ [0] := by
      simpa using hr
    have hplace : StringAt 0 (s ++ [0]) (ends.length + spaces.length) t := by
      apply Strings.stringAt_iff.mpr ⟨[], ?_⟩
      rw [hs, ← List.append_assoc, List.append_assoc, ← List.length_append, List.drop_left]
    have ht' : 0 ∉ t' := fun hmem => h0 (Strings.mem_of_mem_trim (htrim ▸ hmem))
    obtain rfl := Strings.StringAt.unique ht' ht0 hat hplace
    exact ⟨ends, spaces, t', hs, hcrlf, hspace, hstarts, hends⟩
  case mpr =>
    rintro ⟨ends, spaces, t, h⟩ rest
    have hbuf : (s ++ 0 :: rest).drop 0 = s ++ 0 :: rest := rfl
    have hat : (s ++ 0 :: rest).drop (0 + ends.length + spaces.length) = t ++ 0 :: rest := by
      rw [Nat.zero_add, h.eq, ← List.append_assoc, List.append_assoc, ← List.length_append,
        List.drop_left]
    have hplace : StringAt 0 (s ++ 0 :: rest) (0 + ends.length + spaces.length) t :=
      Strings.stringAt_iff.mpr ⟨rest, hat⟩
    have ht0 : 0 ∉ t := fun hmem => h0 (Strings.mem_of_mem_trim (h.trim_eq ▸ hmem))
    -- what is left has no layers to take off
    have hagain : Layered t [] [] t := ⟨rfl, by simp, by simp, h.starts, h.ends⟩
    exact ⟨_, _, t, h.complete h0 hbuf, hplace, h.starts, h.ends, h.trim_eq.symm, _, _,
      hagain.complete ht0 hat, hplace⟩

/-- The theorem at the string `"\n a"`. -/
theorem completes_iff_layered : (0 : Int8) ∉ [10, 32, 97] ∧ Completes [10, 32, 97] :=
  ⟨by decide, (completes_iff [10, 32, 97] (by decide)).mpr
    ⟨[10], [32], [97], rfl, List.forall_mem_singleton.mpr (by decide),
      List.forall_mem_singleton.mpr (by decide), by decide, by decide⟩⟩

/-- Of `" \na"` complete trimming leaves `"\na"`. -/
theorem completes_fails : ¬ ∀ s : List Int8, 0 ∉ s → Completes s := by
  intro hall
  obtain ⟨start, buf, t, hok, hat, -, -, htrim, -⟩ := hall [32, 10, 97] (by decide) []
  have hrun : smpStrTrimComplete [32, 10, 97, 0] (some 0) = .ok (some 1, [32, 10, 97, 0]) := by
    decide
  obtain ⟨rfl, rfl⟩ : 1 = start ∧ [32, 10, 97, 0] = buf := by
    simpa using hrun.symm.trans hok
  rw [htrim] at hat
  exact absurd hat (by decide)

end Complete

end Text
end Smpcil
