import Smpcil.Basic
import Smpcil.Foundations.Units
import Mathlib.Logic.Function.Basic

/-!
# Semaphores

The operations of `smp_sem.c` on a set of semaphores: a process describes what it takes and
gives back in an array of `struct sembuf`, and `semop` performs the array as a whole or not at
all.  The fields of the structure are narrower than the arguments they are made from.

The kernel is a parameter.  It may refuse any call; what it performs it performs as documented.

Main results:

- Theorems {lit}`smpSemSetopGet_exact_iff` and {lit}`smpSemSetopRelease_exact_iff`: when an
  entry says what its arguments say.
- Theorem {lit}`Runs.balanced`: no interleaving of processes makes or loses a unit.
- Theorem {lit}`semaphores_conserved`: the units of every run, exclusion, and the exits of
  processes.
-/

namespace Smpcil
namespace Ipc

open Units

/-! ## The functions -/

/-- `struct sembuf`. -/
structure Sembuf where
  semNum : Nat
  semOp : Int
  semFlg : Int
deriving DecidableEq, Repr

/-- Conversion of an `int` to `unsigned short`. -/
def toUshort (v : Int) : Nat := (v % 2 ^ 16).toNat

/-- Conversion of an `int` to `short`. -/
def toShort (v : Int) : Int := v.bmod (2 ^ 16)

/-- `-v` in `int`. -/
def intNeg (v : Int) : Exec Int := if v = -2 ^ 31 then .error .overflow else .ok (-v)

/-- `smp_sem_setop_get`. -/
def smpSemSetopGet (i n way : Int) : Exec Sembuf := do
  let n ← if n < 0 then intNeg n else pure n
  let op ← intNeg n
  return ⟨toUshort i, toShort op, toShort way⟩

/-- `smp_sem_setop_release`. -/
def smpSemSetopRelease (i n way : Int) : Exec Sembuf := do
  let n ← if n > 0 then intNeg n else pure n
  let op ← intNeg n
  return ⟨toUshort i, toShort op, toShort way⟩

/-! ## The kernel -/

section Kernel

variable {ι : Type}

/-- A set of semaphores: their values, and what the kernel will add to them when a process
exits. -/
structure SemSet (ι : Type) where
  value : Nat → Nat
  adj : ι → Nat → Int

/-- `SEMVMX`, the greatest value of a semaphore. -/
def semvmx : Nat := 32767

/-- The bit of `SEM_UNDO`. -/
def semUndo (flg : Int) : Bool := flg / 2 ^ 12 % 2 = 1

variable [DecidableEq ι]

/-- One entry of the array of `semop`, for the process {lit}`p`. -/
def performOne (nsems : Nat) (p : ι) (s : SemSet ι) (b : Sembuf) : Option (SemSet ι) :=
  if nsems ≤ b.semNum then none
  else if b.semOp = 0 then if s.value b.semNum = 0 then some s else none
  else if s.value b.semNum + b.semOp < 0 then none
  else if 0 < b.semOp ∧ (semvmx : Int) < s.value b.semNum + b.semOp then none
  else some
    { value := Function.update s.value b.semNum (s.value b.semNum + b.semOp).toNat
      adj := if semUndo b.semFlg then Function.update s.adj p
          (Function.update (s.adj p) b.semNum (s.adj p b.semNum - b.semOp))
        else s.adj }

/-- All entries, in order. -/
def perform (nsems : Nat) (p : ι) (s : SemSet ι) : List Sembuf → Option (SemSet ι)
  | [] => some s
  | b :: ops => (performOne nsems p s b).bind fun s => perform nsems p s ops

/-- The value of a semaphore after an adjustment. -/
def adjusted (v : Nat) (a : Int) : Nat := (max 0 (min (semvmx : Int) (v + a))).toNat

/-- The set when the process {lit}`p` has exited. -/
def exited (p : ι) (s : SemSet ι) : SemSet ι where
  value := fun i => adjusted (s.value i) (s.adj p i)
  adj := Function.update s.adj p fun _ => 0

/-- What the kernel does for a process: a call of `semop`, which may fail, and its exit. -/
structure Kernel (ι : Type) where
  semop : ι → List Sembuf → SemSet ι → Option (SemSet ι)
  exit : ι → SemSet ι → SemSet ι

/-- The documented behaviour of the kernel. -/
structure Kernel.Documented (k : Kernel ι) (nsems : Nat) : Prop where
  semop : ∀ {p ops s s'}, k.semop p ops s = some s' → perform nsems p s ops = some s'
  exit : ∀ p s, k.exit p s = exited p s

/-- `smp_semop`. -/
def smpSemop (k : Kernel ι) (p : ι) (s : SemSet ι) (ops : List Sembuf) : Status × SemSet ι :=
  match k.semop p ops s with
  | some s => (.ok, s)
  | none => (.failure, s)

end Kernel

/-! ## Entries -/

section Entries

variable {i n way : Int}

theorem intNeg_eq {v : Int} (h : -2 ^ 31 < v) : intNeg v = .ok (-v) := if_neg (by omega)

/-- An entry that takes units. -/
theorem smpSemSetopGet_eq (hn : -2 ^ 31 < n) (hmax : n < 2 ^ 31) :
    smpSemSetopGet i n way = .ok ⟨toUshort i, toShort (-(n.natAbs : Int)), toShort way⟩ := by
  unfold smpSemSetopGet
  by_cases hneg : n < 0
  · have habs : -(n.natAbs : Int) = - -n := by omega
    simp only [if_pos hneg, intNeg_eq hn, Exec.ok_bind, intNeg_eq (show -2 ^ 31 < -n by omega),
      Exec.pure_eq, habs]
  · have habs : -(n.natAbs : Int) = -n := by omega
    simp only [if_neg hneg, Exec.pure_eq, Exec.ok_bind, intNeg_eq hn, habs]

/-- An entry that gives units back. -/
theorem smpSemSetopRelease_eq (hn : -2 ^ 31 < n) (hmax : n < 2 ^ 31) :
    smpSemSetopRelease i n way = .ok ⟨toUshort i, toShort n.natAbs, toShort way⟩ := by
  unfold smpSemSetopRelease
  by_cases hpos : n > 0
  · have habs : (n.natAbs : Int) = - -n := by omega
    simp only [if_pos hpos, intNeg_eq hn, Exec.ok_bind, intNeg_eq (show -2 ^ 31 < -n by omega),
      Exec.pure_eq, habs]
  · have habs : (n.natAbs : Int) = -n := by omega
    simp only [if_neg hpos, Exec.pure_eq, Exec.ok_bind, intNeg_eq hn, habs]

/-- The least `int` cannot be negated. -/
theorem setop_overflow (hn : n = -2 ^ 31) :
    smpSemSetopGet i n way = .error .overflow ∧ smpSemSetopRelease i n way = .error .overflow := by
  subst hn
  exact ⟨rfl, rfl⟩

theorem toUshort_eq_iff : (toUshort i : Int) = i ↔ 0 ≤ i ∧ i < 2 ^ 16 := by
  unfold toUshort
  omega

theorem toShort_eq_iff {v : Int} : toShort v = v ↔ -2 ^ 15 ≤ v ∧ v < 2 ^ 15 := by
  unfold toShort
  rw [Int.bmod_def]
  omega

/-- An entry takes as many units as it is asked for, of the semaphore it is asked for, precisely
if there are at most {lit}`2 ^ 15` of them and the number of the semaphore is an
`unsigned short`. -/
theorem smpSemSetopGet_exact_iff (hn : -2 ^ 31 ≤ n) (hmax : n < 2 ^ 31) :
    (∃ b, smpSemSetopGet i n way = .ok b ∧ b.semFlg = toShort way ∧ (b.semNum : Int) = i ∧
        b.semOp = -(n.natAbs : Int)) ↔
      (0 ≤ i ∧ i < 2 ^ 16) ∧ n.natAbs ≤ 2 ^ 15 := by
  by_cases hleast : n = -2 ^ 31
  · rw [(@setop_overflow i n way hleast).1]
    apply iff_of_false
    · rintro ⟨b, hb, -⟩
      cases hb
    · omega
  · rw [smpSemSetopGet_eq (by omega) hmax]
    constructor
    · rintro ⟨b, hb, -, hnum, hop⟩
      cases hb
      dsimp only at hop
      have hshort := toShort_eq_iff.mp hop
      exact ⟨toUshort_eq_iff.mp hnum, by omega⟩
    · rintro ⟨hi, hle⟩
      refine ⟨_, rfl, rfl, toUshort_eq_iff.mpr hi, ?_⟩
      dsimp only
      rw [toShort_eq_iff]
      omega

/-- An entry gives back as many units as it is asked for precisely if there are less than
{lit}`2 ^ 15` of them. -/
theorem smpSemSetopRelease_exact_iff (hn : -2 ^ 31 ≤ n) (hmax : n < 2 ^ 31) :
    (∃ b, smpSemSetopRelease i n way = .ok b ∧ b.semFlg = toShort way ∧ (b.semNum : Int) = i ∧
        b.semOp = n.natAbs) ↔
      (0 ≤ i ∧ i < 2 ^ 16) ∧ n.natAbs < 2 ^ 15 := by
  by_cases hleast : n = -2 ^ 31
  · rw [(@setop_overflow i n way hleast).2]
    apply iff_of_false
    · rintro ⟨b, hb, -⟩
      cases hb
    · omega
  · rw [smpSemSetopRelease_eq (by omega) hmax]
    constructor
    · rintro ⟨b, hb, -, hnum, hop⟩
      cases hb
      dsimp only at hop
      have hshort := toShort_eq_iff.mp hop
      exact ⟨toUshort_eq_iff.mp hnum, by omega⟩
    · rintro ⟨hi, hle⟩
      refine ⟨_, rfl, rfl, toUshort_eq_iff.mpr hi, ?_⟩
      dsimp only
      rw [toShort_eq_iff]
      omega

end Entries

/-! ## Processes -/

/-- What a process asks of a semaphore {lit}`i`: to take {lit}`n` units, or to give them back.
The functions of the library take {lit}`n` with either sign. -/
inductive Request where
  | get (i n : Int)
  | release (i n : Int)
deriving DecidableEq, Repr

namespace Request

/-- The semaphore of a request. -/
def sem : Request → Nat
  | get i _ => i.toNat
  | release i _ => i.toNat

/-- The units of a request. -/
def units : Request → Nat
  | get _ n => n.natAbs
  | release _ n => n.natAbs

/-- What a request asks to add to the value of its semaphore. -/
def op : Request → Int
  | get _ n => -(n.natAbs : Int)
  | release _ n => n.natAbs

/-- The entry of a request. -/
def encode (way : Int) : Request → Exec Sembuf
  | get i n => smpSemSetopGet i n way
  | release i n => smpSemSetopRelease i n way

/-- The requests that their entries can express. -/
def InRange : Request → Prop
  | get i n => (0 ≤ i ∧ i < 2 ^ 16) ∧ n.natAbs ≤ 2 ^ 15
  | release i n => (0 ≤ i ∧ i < 2 ^ 16) ∧ n.natAbs < 2 ^ 15

/-- A process gives back units that it holds. -/
def Allowed (held : Nat → Nat) : Request → Prop
  | get _ _ => True
  | release i n => n.natAbs ≤ held i.toNat

/-- What the process holds after a request. -/
def apply (held : Nat → Nat) (r : Request) : Nat → Nat :=
  match r with
  | get _ _ => Function.update held r.sem (held r.sem + r.units)
  | release _ _ => Function.update held r.sem (held r.sem - r.units)

/-- What an entry of a request in range says. -/
theorem encode_exact {way : Int} {r : Request} {b : Sembuf} (hr : r.InRange)
    (hb : r.encode way = .ok b) :
    b.semNum = r.sem ∧ b.semFlg = toShort way ∧ b.semOp = r.op := by
  cases r with
  | get i n =>
      have hn := hr.2
      rcases (@smpSemSetopGet_exact_iff i n way (by omega) (by omega)).mpr hr with
        ⟨b', hb', hflg, hnum, hop⟩
      obtain rfl : b' = b := Except.ok.inj (hb'.symm.trans hb)
      exact ⟨Int.ofNat_inj.mp (hnum.trans (Int.toNat_of_nonneg hr.1.1).symm), hflg, hop⟩
  | release i n =>
      have hn := hr.2
      rcases (@smpSemSetopRelease_exact_iff i n way (by omega) (by omega)).mpr hr with
        ⟨b', hb', hflg, hnum, hop⟩
      obtain rfl : b' = b := Except.ok.inj (hb'.symm.trans hb)
      exact ⟨Int.ofNat_inj.mp (hnum.trans (Int.toNat_of_nonneg hr.1.1).symm), hflg, hop⟩

end Request

/-- The array of a call, with the same flags in all entries. -/
def encodeAll (way : Int) : List Request → Exec (List Sembuf)
  | [] => .ok []
  | r :: rs => do
      let b ← r.encode way
      let ops ← encodeAll way rs
      return b :: ops

/-- A process gives back units that it holds, those taken earlier in the array included. -/
def AllAllowed : (Nat → Nat) → List Request → Prop
  | _, [] => True
  | held, r :: rs => r.Allowed held ∧ AllAllowed (r.apply held) rs

/-- What the process holds after all requests of a call. -/
def applyAll (held : Nat → Nat) (rs : List Request) : Nat → Nat := rs.foldl Request.apply held

/-- The processes with the semaphores they share: what each of them holds, and what was lost. -/
structure Sys (ι : Type) where
  sems : SemSet ι
  held : ι → Nat → Nat
  lost : Nat → Nat

variable {ι : Type} [DecidableEq ι]

/-- The interleavings of the processes {lit}`ι`.  The semaphores start with the values
{lit}`total`; a process either uses `SEM_UNDO` in all calls or in none, and may exit at any time,
with whatever it holds. -/
inductive Runs (k : Kernel ι) (undo : ι → Bool) (total : Nat → Nat) : Sys ι → Prop where
  | start : Runs k undo total ⟨⟨total, fun _ _ => 0⟩, fun _ _ => 0, fun _ => 0⟩
  | call {s : Sys ι} {p : ι} {rs : List Request} {way : Int} {ops : List Sembuf} {st : Status}
      {sems : SemSet ι} : Runs k undo total s → (∀ r ∈ rs, r.InRange) → AllAllowed (s.held p) rs →
      semUndo (toShort way) = undo p → encodeAll way rs = .ok ops →
      smpSemop k p s.sems ops = (st, sems) →
      Runs k undo total ⟨sems,
        if st = .ok then Function.update s.held p (applyAll (s.held p) rs) else s.held, s.lost⟩
  | exit {s : Sys ι} (p : ι) : Runs k undo total s →
      Runs k undo total ⟨k.exit p s.sems, Function.update s.held p fun _ => 0,
        fun i => s.lost i + if undo p then 0 else s.held p i⟩

/-- The units of the semaphores, in the hands of the processes. -/
def Sys.hands (s : Sys ι) : Hands ι Nat := ⟨s.sems.value, s.held, s.lost⟩

section Balance

variable [Fintype ι] {k : Kernel ι} {undo : ι → Bool} {total : Nat → Nat} {nsems : Nat}
  {s : Sys ι} {p : ι} {sems : SemSet ι} {rs : List Request} {way : Int} {ops : List Sembuf}

/-- No unit is made, and the kernel gives back at exit what a process that uses `SEM_UNDO`
holds. -/
structure Balanced (undo : ι → Bool) (total : Nat → Nat) (s : Sys ι) : Prop where
  total : ∀ i, s.hands.total i = total i
  adj : ∀ p i, s.sems.adj p i = if undo p then (s.held p i : Int) else 0

/-- A process that takes or gives back units of one semaphore. -/
theorem Balanced.move (hb : Balanced undo total s) {i h' : Nat} {d : Int} {sems : SemSet ι}
    (htotal : ∀ i', (Hands.mk sems.value
      (Function.update s.held p (Function.update (s.held p) i h')) s.lost).total i' =
        s.hands.total i')
    (hadj : sems.adj = if undo p then Function.update s.sems.adj p
      (Function.update (s.sems.adj p) i (s.sems.adj p i - d)) else s.sems.adj)
    (hd : (h' : Int) = s.held p i - d) :
    Balanced undo total ⟨sems, Function.update s.held p (Function.update (s.held p) i h'),
      s.lost⟩ := by
  constructor
  case total => exact fun i' => (htotal i').trans (hb.total i')
  case adj =>
    intro q i'
    have hq := hb.adj q i'
    show sems.adj q i' = if undo q then
      ((Function.update s.held p (Function.update (s.held p) i h') q i' : Nat) : Int) else 0
    rw [hadj]
    by_cases hqp : q = p
    · subst hqp
      by_cases hundo : undo q
      · simp only [hundo, if_true] at hq ⊢
        by_cases hi : i' = i
        · subst hi
          simp only [Function.update_self]
          omega
        · simp only [Function.update_self, Function.update_of_ne hi, hq]
      · simpa only [hundo, if_false, Bool.false_eq_true] using hq
    · rw [Function.update_of_ne hqp, ← hq]
      by_cases hundo : undo p
      · rw [if_pos hundo, Function.update_of_ne hqp]
      · rw [if_neg hundo]

omit [Fintype ι] in
/-- What the kernel has done when it has performed an entry that asks for units. -/
theorem performOne_some {b : Sembuf} (h : performOne nsems p s.sems b = some sems) :
    (b.semOp = 0 ∧ sems = s.sems) ∨
      (0 ≤ (s.sems.value b.semNum : Int) + b.semOp ∧
        sems.value = Function.update s.sems.value b.semNum
          (s.sems.value b.semNum + b.semOp).toNat ∧
        sems.adj = if semUndo b.semFlg then Function.update s.sems.adj p
            (Function.update (s.sems.adj p) b.semNum (s.sems.adj p b.semNum - b.semOp))
          else s.sems.adj) := by
  unfold performOne at h
  split at h
  case isTrue => cases h
  split at h
  case isTrue hzero =>
    split at h
    case isTrue => exact Or.inl ⟨hzero, (Option.some.inj h).symm⟩
    case isFalse => cases h
  split at h
  case isTrue => cases h
  case isFalse henough =>
    split at h
    case isTrue => cases h
    case isFalse =>
      rw [← Option.some.inj h]
      exact Or.inr ⟨Int.not_lt.mp henough, rfl, rfl⟩

/-- A request that asks for nothing changes nothing. -/
theorem Request.apply_zero {held : Nat → Nat} {r : Request} (h : r.op = 0) :
    r.apply held = held := by
  have hunits : r.units = 0 := by
    cases r with
    | get i n =>
        simp only [op] at h
        simp only [units]
        omega
    | release i n =>
        simp only [op] at h
        simp only [units]
        omega
  cases r with
  | get i n => rw [apply, hunits, Nat.add_zero, Function.update_eq_self]
  | release i n => rw [apply, hunits, Nat.sub_zero, Function.update_eq_self]

/-- One request keeps the balance. -/
theorem Balanced.request (hb : Balanced undo total s) {r : Request} {b : Sembuf}
    (hr : r.InRange) (hallowed : r.Allowed (s.held p)) (hway : semUndo (toShort way) = undo p)
    (henc : r.encode way = .ok b) (hone : performOne nsems p s.sems b = some sems) :
    Balanced undo total ⟨sems, Function.update s.held p (r.apply (s.held p)), s.lost⟩ := by
  rcases Request.encode_exact hr henc with ⟨hnum, hflg, hop⟩
  rcases performOne_some hone with ⟨hzero, rfl⟩ | ⟨henough, hvalue, hadj⟩
  · rw [Request.apply_zero (hop ▸ hzero), Function.update_eq_self]
    exact hb
  · rw [hnum, hop] at henough hvalue hadj
    rw [hflg, hway] at hadj
    cases r with
    | get i n =>
        refine hb.move (fun i' => ?_) hadj ?_
        · rw [hvalue]
          have hle : n.natAbs ≤ s.hands.free i.toNat := by
            simp only [Request.op, Request.sem] at henough
            show n.natAbs ≤ s.sems.value i.toNat
            omega
          have hfree : ((s.sems.value i.toNat : Int) + -(n.natAbs : Int)).toNat =
              s.sems.value i.toNat - n.natAbs := by omega
          simp only [Request.op, Request.sem, Request.units, hfree]
          exact Hands.total_take hle i'
        · simp only [Request.op, Request.sem, Request.units]
          omega
    | release i n =>
        refine hb.move (fun i' => ?_) hadj ?_
        · rw [hvalue]
          have hfree : ((s.sems.value i.toNat : Int) + (n.natAbs : Int)).toNat =
              s.sems.value i.toNat + n.natAbs := by omega
          simp only [Request.op, Request.sem, Request.units, hfree]
          exact Hands.total_give (s := s.hands) hallowed i'
        · have hle : n.natAbs ≤ s.held p i.toNat := hallowed
          simp only [Request.op, Request.sem, Request.units]
          omega

/-- All requests of a call keep the balance. -/
theorem Balanced.requests (hb : Balanced undo total s) (hrs : ∀ r ∈ rs, r.InRange)
    (hallowed : AllAllowed (s.held p) rs) (hway : semUndo (toShort way) = undo p)
    (henc : encodeAll way rs = .ok ops) (hops : perform nsems p s.sems ops = some sems) :
    Balanced undo total ⟨sems, Function.update s.held p (applyAll (s.held p) rs), s.lost⟩ := by
  induction rs generalizing s ops with
  | nil =>
      cases henc
      cases hops
      rw [applyAll, List.foldl_nil, Function.update_eq_self]
      exact hb
  | cons r rs ih =>
      rcases Exec.bind_eq_ok.mp henc with ⟨b, hencOne, henc⟩
      rcases Exec.bind_eq_ok.mp henc with ⟨rest, hencRest, hpure⟩
      cases hpure
      rcases Option.bind_eq_some_iff.mp hops with ⟨sems₁, hone, hrest⟩
      have hb₁ := hb.request (hrs r List.mem_cons_self) hallowed.1 hway hencOne hone
      have hheld : Function.update s.held p (r.apply (s.held p)) p = r.apply (s.held p) :=
        Function.update_self ..
      have hrest' : AllAllowed (Function.update s.held p (r.apply (s.held p)) p) rs := by
        rw [hheld]
        exact hallowed.2
      have hdone := ih hb₁ (fun r' hr' => hrs r' (List.mem_cons_of_mem r hr')) hrest' hencRest hrest
      dsimp only at hdone
      rw [hheld, Function.update_idem] at hdone
      exact hdone

/-- The exit of a process keeps the balance. -/
theorem Balanced.exit (hb : Balanced undo total s) (htotal : ∀ i, total i ≤ semvmx) (p : ι) :
    Balanced undo total ⟨exited p s.sems, Function.update s.held p fun _ => 0,
      fun i => s.lost i + if undo p then 0 else s.held p i⟩ := by
  constructor
  case total =>
    intro i
    have hi := hb.total i
    have hmax := htotal i
    by_cases hundo : undo p
    · -- the adjustment is what the process holds, and fits
      have hback := Hands.total_back (s := s.hands) (p := p) i
      have hadj := hb.adj p i
      have hheld := Hands.held_le_total (s := s.hands.back p) (p := p) (k := i)
      have hfree := Hands.free_le_total (s := s.hands.back p) (k := i)
      rw [hback, hi] at hfree
      rw [← hi, ← hback]
      have hvalue : adjusted (s.sems.value i) (s.sems.adj p i) =
          s.sems.value i + s.held p i := by
        have hle : s.sems.value i + s.held p i ≤ total i := hfree
        rw [hadj, if_pos hundo]
        unfold adjusted
        omega
      simp only [Sys.hands, Hands.total, Hands.back, exited, hvalue, hundo, if_true, Nat.add_zero]
    · have hleave := Hands.total_leave (s := s.hands) (p := p) i
      have hadj := hb.adj p i
      have hfree := Hands.free_le_total (s := s.hands) (k := i)
      rw [hi] at hfree
      rw [← hi, ← hleave]
      have hvalue : adjusted (s.sems.value i) (s.sems.adj p i) = s.sems.value i := by
        have hle : s.sems.value i ≤ total i := hfree
        rw [hadj, if_neg hundo]
        unfold adjusted
        omega
      simp only [Sys.hands, Hands.total, Hands.leave, exited, hvalue, hundo, if_false,
        Bool.false_eq_true]
  case adj =>
    intro q i
    show Function.update s.sems.adj p (fun _ => 0) q i = if undo q then
      ((Function.update s.held p (fun _ => 0) q i : Nat) : Int) else 0
    by_cases hqp : q = p
    · subst hqp
      simp only [Function.update_self, Nat.cast_zero, ite_self]
    · rw [Function.update_of_ne hqp, Function.update_of_ne hqp]
      exact hb.adj q i

/-- No interleaving of processes makes or loses a unit. -/
theorem Runs.balanced (hk : k.Documented nsems) (htotal : ∀ i, total i ≤ semvmx)
    (hrun : Runs k undo total s) : Balanced undo total s := by
  induction hrun with
  | start =>
      constructor
      · intro i
        simp [Sys.hands, Hands.total]
      · intro p i
        simp
  | @call s p rs way ops st sems _ hrs hallowed hway henc hcall ih =>
      unfold smpSemop at hcall
      split at hcall
      case h_1 s' hs' =>
        cases hcall
        exact ih.requests hrs hallowed hway henc (hk.semop hs')
      case h_2 =>
        cases hcall
        exact ih
  | exit p _ ih =>
      rw [hk.exit]
      exact ih.exit htotal p

omit [Fintype ι] in
/-- If all processes use `SEM_UNDO`, nothing is lost. -/
theorem Runs.lost_eq_zero (hundo : ∀ p, undo p) (hrun : Runs k undo total s) (i : Nat) :
    s.lost i = 0 := by
  induction hrun with
  | start => rfl
  | call _ _ _ _ _ _ ih => exact ih
  | exit p _ ih =>
      show _ + (if undo p then 0 else _) = 0
      rw [ih, if_pos (hundo p)]

end Balance

/-- In every interleaving of the processes the units of each semaphore are its value, those that
the processes hold and those that were lost; of a semaphore that starts with one unit there is at
most one holder; and if all processes use `SEM_UNDO`, nothing is lost when they exit. -/
theorem semaphores_conserved {ι : Type} [DecidableEq ι] [Fintype ι] {k : Kernel ι} {nsems : Nat}
    {undo : ι → Bool} {total : Nat → Nat} {s : Sys ι} (hk : k.Documented nsems)
    (htotal : ∀ i, total i ≤ 32767) (hrun : Runs k undo total s) :
    (∀ i, s.sems.value i + ∑ p, s.held p i + s.lost i = total i) ∧
      (∀ i p q, total i = 1 → 0 < s.held p i → 0 < s.held q i → p = q) ∧
      ((∀ p, undo p) → ∀ i, s.lost i = 0) := by
  have hb := hrun.balanced hk htotal
  refine ⟨hb.total, fun i p q hone hp hq => ?_, fun hundo i => hrun.lost_eq_zero hundo i⟩
  exact Hands.exclusive (s := s.hands) ((hb.total i).trans hone) hp hq

/-- The kernel that performs everything that it can perform. -/
def willing (ι : Type) [DecidableEq ι] (nsems : Nat) : Kernel ι where
  semop := fun p ops s => perform nsems p s ops
  exit := exited

theorem willing_documented (ι : Type) [DecidableEq ι] (nsems : Nat) :
    (willing ι nsems).Documented nsems := ⟨fun h => h, fun _ _ => rfl⟩

/-- One process takes the only unit of a semaphore, another one does not get it, and then the
first one exits without giving it back. -/
theorem semaphores_conserved_sample : ∃ s : Sys (Fin 2),
    Runs (willing (Fin 2) 3) (fun _ => true) (fun _ => 1) s ∧ s.sems.value 0 = 1 ∧
      ((∀ i, s.sems.value i + ∑ p, s.held p i + s.lost i = 1) ∧
        (∀ i p q, 1 = 1 → 0 < s.held p i → 0 < s.held q i → p = q) ∧
        ((∀ _ : Fin 2, true) → ∀ i, s.lost i = 0)) := by
  have hrange : ∀ r ∈ [Request.get 0 1], r.InRange := by
    intro r hr
    rw [List.mem_singleton.mp hr]
    exact ⟨⟨by decide, by decide⟩, by decide⟩
  have hway : semUndo (toShort 4096) = true := by decide
  have henc : encodeAll 4096 [.get 0 1] = .ok [⟨0, -1, 4096⟩] := rfl
  have hstart : Runs (willing (Fin 2) 3) (fun _ => true) (fun _ => 1) _ := .start
  have htaken := @Runs.call _ _ _ _ _ _ 0 _ _ _ .ok _ hstart hrange ⟨trivial, trivial⟩ hway henc rfl
  have hrefused := @Runs.call _ _ _ _ _ _ 1 _ _ _ .failure _ htaken hrange ⟨trivial, trivial⟩ hway
    henc rfl
  have hexit := hrefused.exit 0
  exact ⟨_, hexit, by decide,
    semaphores_conserved (willing_documented (Fin 2) 3) (fun _ => by decide) hexit⟩

end Ipc
end Smpcil
