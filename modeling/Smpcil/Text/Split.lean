import Smpcil.Text.Model

/-!
# Splitting a string

`smp_str_split` of `smp_string.c`.  The pieces of a split point into the text; a data
pointer is kept as its offset there.
-/

namespace Smpcil
namespace Text

open Allocator (History Strategy)
open Loops (forUp)

/-- `struct smp_str_s`; {lit}`data` is an offset into the text, or null. -/
structure SmpStr where
  len : Nat
  data : Option Int
deriving DecidableEq, Repr

/-- An array of {lit}`size` values of type `struct smp_str_s`. -/
structure StrArray where
  size : Nat
  elem : Nat → SmpStr

/-- `strs[i] = v`. -/
def StrArray.write (a : StrArray) (i : Int) (v : SmpStr) : Exec StrArray :=
  if 0 ≤ i ∧ i < a.size then .ok { a with elem := Function.update a.elem i.toNat v }
  else .error .outOfBounds

/-- `struct smp_split_s`. -/
structure SmpSplit where
  amount : Nat
  strs : StrArray

/-- `sizeof(struct smp_str_s)`. -/
def sizeofStr : Nat := 16

/-- `sizeof(struct smp_split_s)`. -/
def sizeofSplit : Nat := 16

/-- `a + b` in `int`. -/
def intAdd (a b : Int) : Exec Int :=
  if -2 ^ 31 ≤ a + b ∧ a + b < 2 ^ 31 then .ok (a + b) else .error .overflow

/-- `smp_str_batch_create`: all strings are null. -/
def smpStrBatchCreate (place : Strategy) (h : History) (amount : Nat) :
    Option (VoidPtr × StrArray) × History :=
  if amount = 0 then (none, h)
  else
    let (strs, h) := smpCalloc place h (sizeofStr * amount)
    if strs = NULL then (none, smpSetError place h)
    else (some (strs, ⟨amount, fun _ => ⟨0, none⟩⟩), h)

section BatchCreate

variable {place : Strategy} {h : History} {amount p : Nat}

theorem smpStrBatchCreate_of_none (hamount : amount ≠ 0)
    (hp : place h (sizeofStr * amount) = none) : smpStrBatchCreate place h amount =
      (none, (smpSetError place)^[3] (.alloc (sizeofStr * amount) none :: h)) := by
  simp [smpStrBatchCreate, hamount, smpCalloc_of_none hp]

theorem smpStrBatchCreate_of_some (hamount : amount ≠ 0)
    (hp : place h (sizeofStr * amount) = some p) (hne : p ≠ NULL) :
    smpStrBatchCreate place h amount = (some (p, ⟨amount, fun _ => ⟨0, none⟩⟩),
      .alloc (sizeofStr * amount) (some p) :: h) := by
  simp [smpStrBatchCreate, hamount, smpCalloc_of_some hp hne, hne]

end BatchCreate

/-- The address that `smp_split_create` returns; the fields of the structure are null. -/
def smpSplitCreate (place : Strategy) (h : History) : VoidPtr × History :=
  let (split, h) := smpCalloc place h sizeofSplit
  if split = NULL then (NULL, smpSetError place h) else (split, h)

theorem smpSplitCreate_of_none {place : Strategy} {h : History}
    (hp : place h sizeofSplit = none) : smpSplitCreate place h =
      (NULL, (smpSetError place)^[3] (.alloc sizeofSplit none :: h)) := by
  simp [smpSplitCreate, smpCalloc_of_none hp]

theorem smpSplitCreate_of_some {place : Strategy} {h : History} {a : Nat}
    (hp : place h sizeofSplit = some a) (hne : a ≠ NULL) :
    smpSplitCreate place h = (a, .alloc sizeofSplit (some a) :: h) := by
  simp [smpSplitCreate, smpCalloc_of_some hp hne, hne]

/-- `smp_split_destory`, for the address of the structure and that of its strings. -/
def smpSplitDestory (h : History) (split strs : VoidPtr) : History :=
  if strs = NULL then .free split :: h else .free split :: .free strs :: h

/-- One round of the loop of `__smp_str_split`; the state is the array of pieces and
{lit}`curr_point`. -/
def splitRound (delimLen : Int) (points : IntArray) (i : Int) (s : StrArray × Int) :
    Exec (StrArray × Int) := do
  let (strs, currPoint) := s
  let found ← points.read 0
  let point ← points.read i
  if i = 1 ∨ found = 1 then
    let strs ← strs.write currPoint ⟨toSize point, if point = 0 then none else some 0⟩
    return (strs, currPoint + 1)
  else
    let before ← points.read (i - 1)
    let start ← intAdd before delimLen
    let tmp ← intSub point start
    let strs ← strs.write currPoint (if tmp ≤ 0 then ⟨0, none⟩ else ⟨toSize tmp, some start⟩)
    return (strs, currPoint + 1)

/-- `__smp_str_split`. -/
def strSplit (text delim : CString) (points : IntArray) (split : SmpSplit) : Exec SmpSplit := do
  let delimLen := toInt delim.strlen
  let textLen := toInt text.strlen
  let found ← points.read 0
  if found = 0 then
    let strs ← split.strs.write 0 ⟨toSize textLen, some 0⟩
    return ⟨1, strs⟩
  else
    let (strs, currPoint) ← forUp 1 (found + 1) (splitRound delimLen points) (split.strs, 0)
    -- the loop leaves `i` one behind the last round
    let i := max 1 (found + 1)
    let point ← points.read (i - 1)
    let start := point + delimLen
    let len := toSize (textLen - start)
    let strs ← strs.write currPoint ⟨len, if len = 0 then none else some start⟩
    let amount ← intAdd found 1
    return ⟨toUint amount, strs⟩

/-- `smp_str_split`. -/
def smpStrSplit (place : Strategy) (h : History) (text delim : CString) (limit : Nat) :
    Exec (Option SmpSplit × History) := do
  if limit < 1 then return (none, h)
  let (split, h) := smpSplitCreate place h
  if split = NULL then return (none, h)
  match smpStrBatchCreate place h limit with
  | (none, h) => return (none, smpSplitDestory h split NULL)
  | (some (strs, pieces), h) =>
    match ← smpBoyerMoore place h delim text (limit - 1) with
    | (none, h) => return (none, smpSplitDestory h split strs)
    | (some (point, points), h) =>
      let result ← strSplit text delim points ⟨0, pieces⟩
      return (some result, .free point :: h)

end Text
end Smpcil
