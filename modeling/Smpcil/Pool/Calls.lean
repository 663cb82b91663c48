import Smpcil.Basic
import Smpcil.Errors

/-!
# The pool as the containers see it

The containers make three calls of the pool that holds them, and set the error text.  The
calls are a parameter of the containers, and what the containers rely on is the contract
{lit}`Serves`: a request is refused or answered with a block apart from all earlier ones.

Main results:

- Definition {lit}`Serves`: the contract.
- Definition {lit}`Begun`: the states of a pool after its creation and requests.
- Theorem {lit}`ofStrategy_serves`: every sound allocator meets it.
- Definition {lit}`bumpPool`: a pool to run the containers on.
-/

namespace Smpcil

open Allocator

/-- The calls of a container, over a state {lit}`π` of its pool and the surroundings. -/
structure PoolCalls (π : Type) where
  /-- `smp_mpool_create`; false if there is no pool. -/
  create : π → Nat → Exec (Bool × π)
  /-- `smp_mpalloc`. -/
  mpalloc : π → Nat → Exec (VoidPtr × π)
  /-- `smp_mpdestory`. -/
  destory : π → Exec π
  /-- `smp_set_error`. -/
  setError : π → π

namespace PoolCalls

variable {π : Type}

/-- The alignment of the blocks of a pool. -/
def alignment : Nat := 8

/-- The end of the user part of the address space. -/
def bound : Nat := 2 ^ 47

/-- The answer {lit}`m` to a request of {lit}`n` bytes, with the blocks before and after
it: a refusal, or a new block apart from the old ones. -/
def Granted (n : Nat) (old : List Block) (m : VoidPtr) (new : List Block) : Prop :=
  (m = NULL ∧ new = old) ∨
    (m ≠ NULL ∧ alignment ∣ m ∧ m + n ≤ bound ∧ (∀ b ∈ old, Apart ⟨m, n⟩ b) ∧
      new = ⟨m, n⟩ :: old)

/-- No answer takes a block back. -/
theorem Granted.mono {n : Nat} {old new : List Block} {m : VoidPtr} (h : Granted n old m new) :
    ∀ b ∈ old, b ∈ new := by
  rcases h with ⟨-, rfl⟩ | ⟨-, -, -, -, rfl⟩
  · exact fun b hb => hb
  · exact fun b hb => List.mem_cons_of_mem _ hb

/-- The contract of a pool whose state is {lit}`Good` and has handed out
{lit}`blocks`. -/
structure Serves (calls : PoolCalls π) (Good : π → Prop) (blocks : π → List Block) : Prop where
  create : ∀ {w w' n}, Good w → calls.create w n = .ok (true, w') → Good w'
  mpalloc : ∀ {w} n, Good w → ∃ m w', calls.mpalloc w n = .ok (m, w') ∧ Good w' ∧
    Granted n (blocks w) m (blocks w')
  setError : ∀ {w}, Good w → Good (calls.setError w) ∧ blocks (calls.setError w) = blocks w
  apart : ∀ {w}, Good w → (blocks w).Pairwise Apart
  bounded : ∀ {w}, Good w → ∀ b ∈ blocks w, b.addr ≠ NULL ∧ b.addr + b.size ≤ bound

/-- The states of a pool behind requests for sizes in {lit}`P`, and error texts. -/
inductive Asked (calls : PoolCalls π) (P : Nat → Prop) : π → π → Prop where
  | none {w : π} : Asked calls P w w
  | ask {w w' w'' : π} {n : Nat} {m : VoidPtr} : Asked calls P w w' → P n →
      calls.mpalloc w' n = .ok (m, w'') → Asked calls P w w''
  | error {w w' : π} : Asked calls P w w' → Asked calls P w (calls.setError w')

theorem Asked.one {calls : PoolCalls π} {P : Nat → Prop} {w w' : π} {n : Nat} {m : VoidPtr}
    (hn : P n) (hcall : calls.mpalloc w n = .ok (m, w')) : Asked calls P w w' :=
  Asked.none.ask hn hcall

theorem Asked.trans {calls : PoolCalls π} {P : Nat → Prop} {w w' w'' : π}
    (h : Asked calls P w w') (h' : Asked calls P w' w'') : Asked calls P w w'' := by
  induction h' with
  | none => exact h
  | ask _ hn hcall ih => exact ih.ask hn hcall
  | error _ ih => exact ih.error

/-- The states of a pool that was created with {lit}`size` bytes and asked for sizes in
{lit}`P`. -/
def Begun (calls : PoolCalls π) (Good : π → Prop) (P : Nat → Prop) (size : Nat) (w : π) : Prop :=
  ∃ w₀ w₁, Good w₀ ∧ calls.create w₀ size = .ok (true, w₁) ∧ Asked calls P w₁ w

theorem Begun.ask {calls : PoolCalls π} {Good : π → Prop} {P : Nat → Prop} {size : Nat} {w w' : π}
    (h : Begun calls Good P size w) (h' : Asked calls P w w') : Begun calls Good P size w' := by
  rcases h with ⟨w₀, w₁, hgood, hcreate, hasked⟩
  exact ⟨w₀, w₁, hgood, hcreate, hasked.trans h'⟩

/-- The pool of an allocator that answers every request itself. -/
def ofStrategy (place : Strategy) : PoolCalls History where
  create h _ := .ok (true, h)
  mpalloc h n := .ok ((place h n).getD NULL, .alloc n (place h n) :: h)
  destory h := .ok h
  setError h := smpSetError place h

/-- A sound allocator meets the contract. -/
theorem ofStrategy_serves {place : Strategy} (hs : Sound alignment bound place) :
    (ofStrategy place).Serves (Trace place) live := by
  constructor
  case create =>
    intro h h' n hgood hcreate
    simp only [ofStrategy, Except.ok.injEq, Prod.mk.injEq, true_and] at hcreate
    exact hcreate ▸ hgood
  case mpalloc =>
    intro h n hgood
    refine ⟨_, _, rfl, hgood.alloc n, ?_⟩
    cases hp : place h n with
    | none => exact Or.inl ⟨rfl, rfl⟩
    | some m =>
        exact Or.inr ⟨Nat.pos_iff_ne_zero.mp (hs.nonzero hp), hs.aligned hp, hs.bounded hp,
          hs.fresh hp, rfl⟩
  case setError => exact fun hgood => ⟨trace_smpSetError hgood, live_smpSetError⟩
  case apart =>
    intro h hgood
    exact hgood.apart hs
  case bounded =>
    intro h hgood b hb
    rcases hgood.block hs hb with ⟨hpos, -, hle⟩
    exact ⟨Nat.pos_iff_ne_zero.mp hpos, hle⟩

/-- The pool that places blocks one behind the other. -/
def bumpPool : PoolCalls History := ofStrategy (bump alignment bound)

/-- The histories of that pool. -/
abbrev BumpTrace : History → Prop := Trace (bump alignment bound)

theorem bumpPool_serves : bumpPool.Serves BumpTrace live :=
  ofStrategy_serves (bump_sound (by decide))

/-- The placement of that pool, if it refuses all but the first {lit}`k` requests. -/
def firstPlaces (k : Nat) : Strategy := fun h n =>
  if h.length < k then bump alignment bound h n else none

theorem firstPlaces_sound (k : Nat) : Sound alignment bound (firstPlaces k) := by
  refine (bump_sound (by decide)).refuse fun {h n a} hp => ?_
  unfold firstPlaces at hp
  split at hp
  · exact hp
  · simp at hp

end PoolCalls
end Smpcil
