import Mathlib.Algebra.Order.Ring.Int

/-!
# Conventions of the C code

The values shared by all modules: data pointers, status codes and the ways in
which a modelled run can go wrong.  A run is a value of {lit}`Exec`.
-/

namespace Smpcil

/-- `void *` to data the library never looks into; {lit}`0` is `NULL`. -/
abbrev VoidPtr := Nat

/-- The null data pointer. -/
def NULL : VoidPtr := 0

/-- `SMP_STATUS`: {lit}`ok` is `SMP_OK` and {lit}`failure` is `SMP_FAILURE`. -/
inductive Status where
  | ok
  | failure
deriving DecidableEq, Repr

/-! ## Numbers -/

/-- Conversion to `int`, the type of `SMP_VALUE`. -/
def toInt (n : Nat) : Int := (n : Int).bmod (2 ^ 32)

/-- Conversion from `int` to `size_t`. -/
def toSize (i : Int) : Nat := (i % 2 ^ 64).toNat

/-- Conversion from `int` to `unsigned int`. -/
def toUint (i : Int) : Nat := (i % 2 ^ 32).toNat

/-- A small number converts to itself. -/
theorem bmod_of_lt {n : Nat} (h : n < 2 ^ 31) : (n : Int).bmod (2 ^ 32) = n := by
  rw [Int.bmod_def]
  omega

theorem toInt_of_lt {n : Nat} (h : n < 2 ^ 31) : toInt n = n := bmod_of_lt h

theorem toSize_toInt {n : Nat} (h : n < 2 ^ 31) : toSize (toInt n) = n := by
  have hmod : (n : Int) % 2 ^ 64 = n := Int.emod_eq_of_lt (Int.natCast_nonneg n) (by omega)
  have hsize : toSize n = n := (congrArg Int.toNat hmod).trans (Int.toNat_natCast n)
  exact (congrArg toSize (toInt_of_lt h)).trans hsize

/-- A number that passes through `int` keeps its low 32 bits; the upper half of these counts
as negative. -/
theorem toSize_toInt_eq (n : Nat) : toSize (toInt n) =
    if n % 2 ^ 32 < 2 ^ 31 then n % 2 ^ 32 else n % 2 ^ 32 + (2 ^ 64 - 2 ^ 32) := by
  unfold toSize toInt
  rw [Int.bmod_def]
  split_ifs <;> omega

/-- The order of the numbers that pass through `int` is that of their low 32 bits. -/
theorem toSize_toInt_le {m n : Nat} :
    toSize (toInt m) ≤ toSize (toInt n) ↔ m % 2 ^ 32 ≤ n % 2 ^ 32 := by
  have hm := Nat.mod_lt m (Nat.two_pow_pos 32)
  have hn := Nat.mod_lt n (Nat.two_pow_pos 32)
  rw [toSize_toInt_eq, toSize_toInt_eq]
  generalize m % 2 ^ 32 = a at *
  generalize n % 2 ^ 32 = b at *
  split_ifs <;> omega

theorem toSize_toInt_eq_zero {n : Nat} : toSize (toInt n) = 0 ↔ n % 2 ^ 32 = 0 := by
  have hzero : toSize (toInt 0) = 0 := rfl
  have hle := @toSize_toInt_le n 0
  rw [hzero, Nat.zero_mod, Nat.le_zero, Nat.le_zero] at hle
  exact hle

/-- A number converts to zero when its low 32 bits are zero. -/
theorem toInt_eq_zero {n : Nat} : toInt n = 0 ↔ n % 2 ^ 32 = 0 := by
  unfold toInt
  rw [Int.bmod_def]
  split_ifs <;> omega

/-! ## Runs -/

/-- How a run of the C code can fail to return. -/
inductive Fault where
  /-- An array was indexed outside its bounds. -/
  | outOfBounds
  /-- A memory cell was read before anything was stored in it. -/
  | uninitialised
  /-- A signed operation left the range of its type. -/
  | overflow
  /-- A `while` loop or a recursion used up its fuel. -/
  | diverged
  /-- Memory was accessed that is not live, for instance after it was freed. -/
  | useAfterFree
deriving DecidableEq, Repr

/-- The outcome of running a C function. -/
abbrev Exec := Except Fault

@[simp]
theorem Exec.ok_bind {α β : Type} (a : α) (f : α → Exec β) :
    ((Except.ok a : Exec α) >>= f) = f a := rfl

@[simp]
theorem Exec.error_bind {α β : Type} (e : Fault) (f : α → Exec β) :
    ((Except.error e : Exec α) >>= f) = .error e := rfl

@[simp]
theorem Exec.pure_eq {α : Type} (a : α) : (pure a : Exec α) = .ok a := rfl

/-- A sequence of two runs returns exactly when both do. -/
theorem Exec.bind_eq_ok {α β : Type} {x : Exec α} {f : α → Exec β} {b : β} :
    (x >>= f) = .ok b ↔ ∃ a, x = .ok a ∧ f a = .ok b := by
  cases x with
  | error e => simp [bind, Except.bind]
  | ok a => simp [bind, Except.bind]

end Smpcil
