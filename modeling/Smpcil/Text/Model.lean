import Smpcil.Basic
import Smpcil.Errors
import Smpcil.Foundations.Loop
import Mathlib.Logic.Function.Basic

/-!
# The search of `smp_BoyerMoore.c`

Boyer–Moore search with its three tables.  A `char` is signed, as built for x86-64, and
an `int` has 32 bits: a conversion to `int` wraps, and a signed operation that leaves the
range is a fault.  Reading or writing outside an array is a fault too.
-/

namespace Smpcil
namespace Text

open Allocator (History Strategy)
open Loops (Pass loop forUp forDown)

/-! ## Memory -/

/-- A NUL-terminated string of `char`s; it fits into the address space. -/
structure CString where
  bytes : List Int8
  noNul : 0 ∉ bytes
  fits : bytes.length < 2 ^ 47

namespace CString

/-- `strlen`. -/
def strlen (s : CString) : Nat := s.bytes.length

/-- `s[i]`; the character behind the last one is the terminator. -/
def read (s : CString) (i : Int) : Exec Int8 :=
  if 0 ≤ i ∧ i ≤ s.strlen then .ok (s.bytes.getD i.toNat 0) else .error .outOfBounds

end CString

/-- An array of {lit}`size` values of type `int`; a cell without a value was never
stored. -/
structure IntArray where
  size : Nat
  cell : Nat → Option Int

namespace IntArray

/-- `int a[size]`. -/
def uninitialised (size : Nat) : IntArray := ⟨size, fun _ => none⟩

/-- `int a[size] = {0}`. -/
def zeros (size : Nat) : IntArray := ⟨size, fun _ => some 0⟩

/-- `a[i]`. -/
def read (a : IntArray) (i : Int) : Exec Int :=
  if 0 ≤ i ∧ i < a.size then
    match a.cell i.toNat with
    | some v => .ok v
    | none => .error .uninitialised
  else .error .outOfBounds

/-- `a[i] = v`. -/
def write (a : IntArray) (i v : Int) : Exec IntArray :=
  if 0 ≤ i ∧ i < a.size then .ok { a with cell := Function.update a.cell i.toNat (some v) }
  else .error .outOfBounds

end IntArray

/-- `a - b` in `int`. -/
def intSub (a b : Int) : Exec Int :=
  if -2 ^ 31 ≤ a - b ∧ a - b < 2 ^ 31 then .ok (a - b) else .error .overflow

/-- `SMP_INT_MAX`. -/
def smpIntMax (a b : Int) : Int := if a - b < 0 then b else a

/-- `SMP_BM_MAX_CHAR`. -/
def bmMaxChar : Nat := 256

/-- `SMP_BM_SIZE`. -/
def bmSize : Nat := 256

/-! ## The tables -/

/-- `smp_bm_badchar`. -/
def smpBmBadchar (substr : CString) (substrLen : Int) (bmBc : IntArray) : Exec IntArray := do
  let bmBc ← forUp 0 bmMaxChar (fun i bmBc => bmBc.write i substrLen) bmBc
  let last ← intSub substrLen 1
  forUp 0 last (fun i bmBc => do
    let c ← substr.read i
    bmBc.write c.toInt (substrLen - 1 - i)) bmBc

/-- One pass of the inner loop of `smp_bm_suffix`, which moves {lit}`permiss` to the left
while the characters agree.  The pattern is what its pointer gives to read, since its
length comes apart from it. -/
def suffixPass (substr : Int → Exec Int8) (substrLen persucceff permiss : Int) :
    Exec (Pass Int Int) := do
  if permiss ≥ 0 then
    let a ← substr permiss
    let b ← substr (permiss + substrLen - (persucceff + 1))
    if a = b then return .again (permiss - 1) else return .done permiss
  else return .done permiss

/-- The branch of `smp_bm_suffix` that compares characters. -/
def suffixCompare (substr : Int → Exec Int8) (substrLen curr : Int) (suff : IntArray)
    (permiss : Int) : Exec (IntArray × Int × Int) := do
  let permiss := if curr < permiss then curr else permiss
  let persucceff := curr
  let permiss ← loop .diverged (suffixPass substr substrLen persucceff) (substrLen.toNat + 1)
    permiss
  let suff ← suff.write curr (persucceff - permiss)
  return (suff, permiss, persucceff)

/-- One round of `smp_bm_suffix`; the state is {lit}`suff`, {lit}`permiss` and
{lit}`persucceff`. -/
def suffixRound (substr : Int → Exec Int8) (substrLen curr : Int)
    (s : IntArray × Int × Int) : Exec (IntArray × Int × Int) := do
  let (suff, permiss, persucceff) := s
  if curr > permiss then
    let v ← suff.read (curr + substrLen - (persucceff + 1))
    if v < curr - permiss then
      let suff ← suff.write curr v
      return (suff, permiss, persucceff)
    else suffixCompare substr substrLen curr suff permiss
  else suffixCompare substr substrLen curr suff permiss

/-- `smp_bm_suffix`. -/
def smpBmSuffix (substr : Int → Exec Int8) (substrLen : Int) (suff : IntArray) :
    Exec IntArray := do
  let last ← intSub substrLen 1
  let suff ← suff.write last substrLen
  let (suff, _, _) ← forDown (substrLen - 2) 0 (suffixRound substr substrLen) (suff, last, 0)
  return suff

/-- One round of the second loop of `smp_bm_good_suffix`; the state is {lit}`BMgs` and
{lit}`j`. -/
def borderRound (substrLen : Int) (suff : IntArray) (i : Int) (s : IntArray × Int) :
    Exec (IntArray × Int) := do
  let (bmGs, j) := s
  let v ← suff.read i
  if v = i + 1 then
    let bmGs ← forUp j (substrLen - (i + 1)) (fun j bmGs => do
      let g ← bmGs.read j
      if g = substrLen then bmGs.write j (substrLen - (i + 1)) else return bmGs) bmGs
    return (bmGs, max j (substrLen - (i + 1)))
  else return (bmGs, j)

/-- `smp_bm_good_suffix`. -/
def smpBmGoodSuffix (substr : Int → Exec Int8) (substrLen : Int) (bmGs : IntArray) :
    Exec IntArray := do
  let suff ← smpBmSuffix substr substrLen (.uninitialised bmSize)
  let bmGs ← forUp 0 substrLen (fun i bmGs => bmGs.write i substrLen) bmGs
  let (bmGs, _) ← forDown (substrLen - 1) 0 (borderRound substrLen suff) (bmGs, 0)
  forUp 0 (substrLen - 1) (fun i bmGs => do
    let v ← suff.read i
    bmGs.write (substrLen - (v + 1)) (substrLen - (i + 1))) bmGs

/-! ## The search -/

/-- One pass of the comparison at alignment {lit}`j`, from the end of the pattern. -/
def comparePass (substr text : CString) (j i : Int) : Exec (Pass Int Int) := do
  if i ≥ 0 then
    let a ← substr.read i
    let b ← text.read (i + j)
    if a = b then return .again (i - 1) else return .done i
  else return .done i

/-- One pass of the search; {lit}`last` is the last alignment, and the state is {lit}`j`,
{lit}`count` and {lit}`sub_point`. -/
def searchPass (substr : CString) (substrLen : Int) (text : CString) (last : Int)
    (bmBc bmGs : IntArray) (s : Int × Int × IntArray) :
    Exec (Pass (Int × Int × IntArray) IntArray) := do
  let (j, count, subPoint) := s
  if j ≤ last then
    let i ← loop .diverged (comparePass substr text j) (substrLen.toNat + 1) (substrLen - 1)
    if i < 0 then
      let count := count + 1
      let subPoint ← subPoint.write count j
      let shift ← bmGs.read 0
      let limit ← subPoint.read 0
      if count ≥ limit then return .done subPoint
      return .again (j + shift, count, subPoint)
    else
      let c ← text.read (i + j)
      let bc ← bmBc.read c.toInt
      let gs ← bmGs.read i
      return .again (j + smpIntMax (bc - substrLen + 1 + i) gs, count, subPoint)
  else
    let subPoint ← subPoint.write 0 count
    return .done subPoint

/-- `__smp_BoyerMoore`. -/
def boyerMoore (substr : CString) (substrLen : Int) (text : CString) (textLen : Int)
    (subPoint : IntArray) : Exec IntArray := do
  let bmBc ← smpBmBadchar substr substrLen (.zeros bmMaxChar)
  let bmGs ← smpBmGoodSuffix substr.read substrLen (.zeros bmSize)
  let last ← intSub textLen substrLen
  loop .diverged (searchPass substr substrLen text last bmBc bmGs) (textLen.toNat + 2)
    (0, 0, subPoint)

/-- `smp_alloc`, by the underlying allocator {lit}`place`; a failed request sets the error. -/
def smpAlloc (place : Strategy) (h : History) (size : Nat) : VoidPtr × History :=
  let answer := place h size
  let history := .alloc size answer :: h
  (answer.getD NULL, if answer.isNone then smpSetError place history else history)

/-- `smp_calloc`, which sets the error once more. -/
def smpCalloc (place : Strategy) (h : History) (size : Nat) : VoidPtr × History :=
  let (p, h) := smpAlloc place h size
  if p ≠ NULL then (p, h) else (p, smpSetError place h)

theorem smpCalloc_of_none {place : Strategy} {h : History} {n : Nat} (hp : place h n = none) :
    smpCalloc place h n = (NULL, (smpSetError place)^[2] (.alloc n none :: h)) := by
  simp [smpCalloc, smpAlloc, hp]

theorem smpCalloc_of_some {place : Strategy} {h : History} {n a : Nat} (hp : place h n = some a)
    (hne : a ≠ NULL) : smpCalloc place h n = (a, .alloc n (some a) :: h) := by
  simp [smpCalloc, smpAlloc, hp, hne]

/-- `smp_BoyerMoore`: the result array with its address. -/
def smpBoyerMoore (place : Strategy) (h : History) (substr text : CString) (limit : Nat) :
    Exec (Option (VoidPtr × IntArray) × History) := do
  if limit = 0 then return (none, h)
  let amt := (limit + 1) % 2 ^ 32
  let (point, h) := smpCalloc place h (4 * amt)
  if point = NULL then return (none, h)
  let subPoint ← (IntArray.zeros amt).write 0 (toInt limit)
  let subPoint ← boyerMoore substr (toInt substr.strlen) text (toInt text.strlen) subPoint
  return (some (point, subPoint), h)

/-- `smp_bm_substr_exist`. -/
def smpBmSubstrExist (text substr : CString) : Exec Bool := do
  let point ← (IntArray.zeros 3).write 0 2
  let point ← boyerMoore substr (toInt substr.strlen) text (toInt text.strlen) point
  return ¬ (← point.read 0) ≤ 0

end Text
end Smpcil
