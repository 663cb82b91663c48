import Smpcil.Foundations.Allocator
import Mathlib.Data.List.Perm.Basic

/-!
# Ledgers

The blocks that a program holds of an allocator, kept beside the history of its requests and
frees.

Main results:

- Definition {lit}`Ledger`: everything live is held, and nothing is freed twice.
- Theorems {lit}`Ledger.request` and {lit}`Ledger.free`: requests and frees keep the ledger.
- Theorem {lit}`Ledger.apart`: the blocks held are pairwise apart.
-/

namespace Allocator

variable {place : Strategy} {align bound a n : Nat} {h : History} {b : Block}
  {held held' : List Block}

/-- Everything live is held, no block held is empty, and every free was of a live block. -/
structure Ledger (place : Strategy) (h : History) (held : List Block) : Prop where
  trace : Trace place h
  all : (live h).Perm held
  pos : ∀ b ∈ held, 0 < b.size
  frees : FreesLive h

/-- The block of an answer, if there is one. -/
def answered (n : Nat) (answer : Option Nat) : List Block := (answer.map fun a => ⟨a, n⟩).toList

@[simp] theorem answered_none : answered n none = [] := rfl

@[simp] theorem answered_some : answered n (some a) = [⟨a, n⟩] := rfl

namespace Ledger

theorem nil : Ledger place [] [] :=
  ⟨.nil, List.Perm.refl [], fun _ hb => absurd hb List.not_mem_nil, trivial⟩

/-- The order in which the blocks are held does not matter. -/
theorem perm (hl : Ledger place h held) (hperm : held.Perm held') : Ledger place h held' :=
  ⟨hl.trace, hl.all.trans hperm, fun b hb => hl.pos b (hperm.mem_iff.mpr hb), hl.frees⟩

/-- A request adds the block of its answer. -/
theorem request (hl : Ledger place h held) (hn : 0 < n) :
    Ledger place (.alloc n (place h n) :: h) (answered n (place h n) ++ held) := by
  have htrace : Trace place (.alloc n (place h n) :: h) := hl.trace.alloc n
  cases hp : place h n with
  | none =>
      rw [hp] at htrace
      exact ⟨htrace, hl.all, hl.pos, hl.frees⟩
  | some a =>
      rw [hp] at htrace
      rw [answered_some, List.singleton_append]
      refine ⟨htrace, (hl.all.cons (⟨a, n⟩ : Block) :), ?_, hl.frees⟩
      intro b hb
      rcases List.mem_cons.mp hb with rfl | hb
      · exact hn
      · exact hl.pos b hb

/-- The blocks held are pairwise apart. -/
theorem apart (hl : Ledger place h held) (hs : Sound align bound place) :
    held.Pairwise Apart :=
  hl.all.pairwise (hl.trace.apart hs) fun hbc => hbc.symm

/-- No other block held has the address of this one. -/
theorem addr_ne (hl : Ledger place h (b :: held)) (hs : Sound align bound place) :
    ∀ c ∈ held, c.addr ≠ b.addr := by
  intro c hc heq
  have hapart := (List.pairwise_cons.mp (hl.apart hs)).1 c hc
  have hb := hl.pos b List.mem_cons_self
  have hc' := hl.pos c (List.mem_cons_of_mem b hc)
  unfold Apart at hapart
  omega

/-- A block that is held can be freed. -/
theorem free (hl : Ledger place h (b :: held)) (hs : Sound align bound place) :
    Ledger place (.free b.addr :: h) held := by
  have hmem : b ∈ live h := hl.all.mem_iff.mpr List.mem_cons_self
  refine ⟨hl.trace.free b.addr, ?_, fun c hc => hl.pos c (List.mem_cons_of_mem b hc),
    ⟨b, hmem, rfl⟩, hl.frees⟩
  have hgone : (b :: held).filter (fun c => c.addr ≠ b.addr) = held := by
    rw [List.filter_cons_of_neg (by simp)]
    exact List.filter_eq_self.mpr fun c hc => by simpa using hl.addr_ne hs c hc
  rw [live_free]
  exact hgone ▸ hl.all.filter _

end Ledger

end Allocator
