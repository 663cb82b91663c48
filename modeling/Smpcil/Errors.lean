import Smpcil.Foundations.Allocator
import Mathlib.Logic.Function.Iterate

/-!
# The error text of `smp_error.c`

The first call of `smp_set_error` that gets a buffer for its text keeps that buffer in
`smp_errno` to the end of the program.  The text itself is left out: no function but
`smp_print_error` and `smp_get_error` reads it.

Main results:

- Definition {lit}`smpSetError`: what a call does to the history of the allocator.
- Theorem {lit}`kept_setErrors_eq`: when a row of calls gets no buffer.
-/

namespace Smpcil

open Allocator (History Strategy Trace FreesLive live kept)

variable {place : Strategy} {h : History}

/-- `SMP_ERROR_SIZE`. -/
def errorSize : Nat := 2048

/-- `smp_set_error`; `smp_errno` is null as long as no buffer was got. -/
def smpSetError (place : Strategy) (h : History) : History :=
  if kept h = [] then .keep errorSize (place h errorSize) :: h else h

/-- An error text is no block of the containers. -/
@[simp]
theorem live_smpSetError : live (smpSetError place h) = live h := by
  unfold smpSetError
  split_ifs <;> rfl

theorem trace_smpSetError (ht : Trace place h) : Trace place (smpSetError place h) := by
  unfold smpSetError
  split_ifs
  · exact ht.keep errorSize
  · exact ht

@[simp]
theorem freesLive_smpSetError : FreesLive (smpSetError place h) ↔ FreesLive h := by
  unfold smpSetError
  split_ifs <;> rfl

/-- Once there is a buffer nothing is asked. -/
theorem smpSetError_of_kept (hne : kept h ≠ []) : smpSetError place h = h := if_neg hne

/-! ## The buffer -/

/-- At most one buffer is kept. -/
def KeptOnce (h : History) : Prop := kept h = [] ∨ ∃ a, kept h = [⟨a, errorSize⟩]

theorem KeptOnce.congr {h' : History} (hk : KeptOnce h) (heq : kept h' = kept h) : KeptOnce h' := by
  unfold KeptOnce
  rw [heq]
  exact hk

theorem KeptOnce.setError (hk : KeptOnce h) : KeptOnce (smpSetError place h) := by
  unfold smpSetError
  split_ifs with hnone
  · cases place h errorSize with
    | none => exact Or.inl hnone
    | some a =>
        refine Or.inr ⟨a, ?_⟩
        rw [Allocator.kept_keep_some, hnone]
  · exact hk

/-- The allocator refuses the buffer {lit}`k` times running. -/
def Unheard (place : Strategy) : Nat → History → Prop
  | 0, _ => True
  | k + 1, h => place h errorSize = none ∧ Unheard place k (.keep errorSize none :: h)

/-- A row of calls gets no buffer exactly if all its requests are refused. -/
theorem kept_setErrors (hnone : kept h = []) (k : Nat) :
    kept ((smpSetError place)^[k] h) = [] ↔ Unheard place k h := by
  induction k generalizing h with
  | zero => simpa [Unheard] using hnone
  | succ k ih =>
      rw [Function.iterate_succ_apply, smpSetError, if_pos hnone, Unheard]
      cases hp : place h errorSize with
      | none =>
          rw [ih (by simpa using hnone)]
          simp
      | some a =>
          have hne : kept (.keep errorSize (some a) :: h) ≠ [] := by simp
          rw [Function.iterate_fixed (smpSetError_of_kept hne)]
          simp

/-- A row of {lit}`k` calls changes nothing that is kept: there is a buffer, or all requests for
one are refused. -/
def Hushed (place : Strategy) (k : Nat) (h : History) : Prop := kept h ≠ [] ∨ Unheard place k h

theorem kept_setErrors_eq (k : Nat) :
    kept ((smpSetError place)^[k] h) = kept h ↔ Hushed place k h := by
  unfold Hushed
  by_cases hnone : kept h = []
  · rw [hnone, kept_setErrors hnone]
    simp
  · rw [Function.iterate_fixed (smpSetError_of_kept hnone)]
    simp [hnone]

end Smpcil
