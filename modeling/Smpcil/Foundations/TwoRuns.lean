import Smpcil.Foundations.Loop

/-!
# Two runs side by side

Two runs in {lit}`Except` that do the same: both return, with related results, or both stop
at the same fault.

Main results:

- Definition {lit}`Lift`: the relation on runs that a relation on results gives.
- Theorem {lit}`Lift.bind`: the rule of sequences.
- Theorem {lit}`Lift.loop`: the rule of loops, a relation between the states of the two runs
  that every pass keeps.
-/

namespace TwoRuns

open Loops (Pass loop)

variable {σ σ' ρ ρ' α β γ δ ε : Type}

/-- Both runs return related results, or both stop at the same fault. -/
def Lift (R : α → β → Prop) : Except ε α → Except ε β → Prop
  | .ok a, .ok b => R a b
  | .error e, .error e' => e' = e
  | .ok _, .error _ => False
  | .error _, .ok _ => False

theorem Lift.mono {R R' : α → β → Prop} {x : Except ε α} {y : Except ε β} (h : Lift R x y)
    (himp : ∀ a b, R a b → R' a b) : Lift R' x y := by
  cases x <;> cases y
  · exact h
  · exact h
  · exact h
  · exact himp _ _ h

/-- Sequences of runs that do the same. -/
theorem Lift.bind {R : α → β → Prop} {S : γ → δ → Prop} {x : Except ε α} {y : Except ε β}
    {f : α → Except ε γ} {g : β → Except ε δ} (h : Lift R x y)
    (hrest : ∀ a b, R a b → Lift S (f a) (g b)) : Lift S (x >>= f) (y >>= g) := by
  cases x <;> cases y
  · exact h
  · exact h.elim
  · exact h.elim
  · exact hrest _ _ h

/-- The outcomes of two passes that do the same. -/
def PassRel (R : σ → σ' → Prop) (S : ρ → ρ' → Prop) : Pass σ ρ → Pass σ' ρ' → Prop
  | .again s, .again s' => R s s'
  | .done r, .done r' => S r r'
  | .again _, .done _ => False
  | .done _, .again _ => False

/-- Loops whose passes do the same from related states. -/
theorem Lift.loop {R : σ → σ' → Prop} {S : ρ → ρ' → Prop} {d : ε}
    {pass : σ → Except ε (Pass σ ρ)} {pass' : σ' → Except ε (Pass σ' ρ')}
    (hpass : ∀ s s', R s s' → Lift (PassRel R S) (pass s) (pass' s')) :
    ∀ {fuel : Nat} {s : σ} {s' : σ'}, R s s' → Lift S (loop d pass fuel s)
      (loop d pass' fuel s') := by
  intro fuel
  induction fuel with
  | zero => intro s s' _; rfl
  | succ fuel ih =>
      intro s s' hs
      have hp := hpass s s' hs
      simp only [Loops.loop]
      revert hp
      cases pass s <;> cases pass' s'
      · exact fun hp => hp
      · exact fun hp => hp.elim
      · exact fun hp => hp.elim
      · rename_i p p'
        cases p <;> cases p'
        · exact fun hp => ih hp
        · exact fun hp => hp.elim
        · exact fun hp => hp.elim
        · exact fun hp => hp

end TwoRuns
