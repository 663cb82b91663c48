import Mathlib.Data.Int.Init
import Mathlib.Tactic.Common

/-!
# Loops in an error monad

A `while` loop whose body may fault or leave early, and the counted `for` loops
built from an integer range.  Loops run in {lit}`Except`: a fault stops the run, and a
`while` loop that uses up its fuel reports the fault its caller chose for
divergence.

Main results:

- Theorem {lit}`loop_spec`: the total-correctness rule, an invariant with a bound on
  the passes still to come.
- Theorem {lit}`loop_returns`: the rule for termination alone.
- Theorem {lit}`loop_error`: the rule for a loop that ends in a fault.
- Theorem {lit}`loop_mono`: a finished run does not depend on the fuel.
- Theorems {lit}`forUp_spec` and {lit}`forDown_spec`: the invariant rules of the counted
  loops.
- Theorem {lit}`forUp_error`: the rule for a counted loop whose body faults.
- Theorems {lit}`loop_congr` and {lit}`forUp_congr`: bodies that agree make equal loops.
-/

namespace Loops

variable {σ ρ ε : Type}

/-- The outcome of one pass: go round again, or leave the loop with a result. -/
inductive Pass (σ ρ : Type) where
  | again (s : σ)
  | done (r : ρ)

/-- Run {lit}`pass` until it leaves the loop; {lit}`d` is the fault of a run that
needs more than the given number of passes. -/
def loop (d : ε) (pass : σ → Except ε (Pass σ ρ)) : Nat → σ → Except ε ρ
  | 0, _ => .error d
  | fuel + 1, s =>
      match pass s with
      | .error e => .error e
      | .ok (.done r) => .ok r
      | .ok (.again s') => loop d pass fuel s'

/-- A finished loop gives the same result under any larger fuel. -/
theorem loop_mono {d : ε} {pass : σ → Except ε (Pass σ ρ)} {r : ρ} :
    ∀ {fuel fuel' : Nat} {s : σ}, fuel ≤ fuel' →
      loop d pass fuel s = .ok r → loop d pass fuel' s = .ok r := by
  intro fuel
  induction fuel with
  | zero => intro fuel' s _ h; simp [loop] at h
  | succ fuel ih =>
      intro fuel' s hle h
      obtain ⟨fuel', rfl⟩ : ∃ n, fuel' = n + 1 := ⟨fuel' - 1, by omega⟩
      cases hpass : pass s with
      | error e => simp [loop, hpass] at h
      | ok p =>
          cases p with
          | done r' => simpa [loop, hpass] using h
          | again s' =>
              simp only [loop, hpass] at h ⊢
              exact ih (by omega) h

/-- Total correctness of a loop.  {lit}`Inv n s` bounds the passes still to come by
{lit}`n`: every pass either leaves with the postcondition or goes on under a smaller
bound. -/
theorem loop_spec {d : ε} {pass : σ → Except ε (Pass σ ρ)}
    (Inv : Nat → σ → Prop) (Post : ρ → Prop)
    (hpass : ∀ n s, Inv n s →
      (∃ r, pass s = .ok (.done r) ∧ Post r) ∨
        ∃ s' m, pass s = .ok (.again s') ∧ Inv m s' ∧ m < n) :
    ∀ {fuel n : Nat} {s : σ}, Inv n s → n < fuel →
      ∃ r, loop d pass fuel s = .ok r ∧ Post r := by
  intro fuel
  induction fuel with
  | zero => intro n s _ h; omega
  | succ fuel ih =>
      intro n s hs hfuel
      rcases hpass n s hs with ⟨r, hr, hpost⟩ | ⟨s', m, hs', hinv, hlt⟩
      · exact ⟨r, by simp [loop, hr], hpost⟩
      · rcases ih hinv (by omega) with ⟨r, hr, hpost⟩
        exact ⟨r, by simpa [loop, hs'] using hr, hpost⟩

/-- A loop returns if every pass that goes on does so under a smaller bound. -/
theorem loop_returns {d : ε} {pass : σ → Except ε (Pass σ ρ)} (Inv : Nat → σ → Prop)
    (hpass : ∀ n s, Inv n s → (∃ r, pass s = .ok (.done r)) ∨
      ∃ s' m, pass s = .ok (.again s') ∧ Inv m s' ∧ m < n)
    {fuel n : Nat} {s : σ} (hs : Inv n s) (hfuel : n < fuel) :
    ∃ r, loop d pass fuel s = .ok r := by
  have hspec : ∃ r, loop d pass fuel s = .ok r ∧ True := by
    refine loop_spec Inv (fun _ => True) (fun n s hs => ?_) hs hfuel
    rcases hpass n s hs with ⟨r, hr⟩ | hagain
    · exact Or.inl ⟨r, hr, trivial⟩
    · exact Or.inr hagain
  rcases hspec with ⟨r, hrun, -⟩
  exact ⟨r, hrun⟩

/-- A loop faults if its passes go on under a smaller bound until one of them faults. -/
theorem loop_error {d e : ε} {pass : σ → Except ε (Pass σ ρ)} (Inv : Nat → σ → Prop)
    (hpass : ∀ n s, Inv n s → pass s = .error e ∨
      ∃ s' m, pass s = .ok (.again s') ∧ Inv m s' ∧ m < n) :
    ∀ {fuel n : Nat} {s : σ}, Inv n s → n < fuel → loop d pass fuel s = .error e := by
  intro fuel
  induction fuel with
  | zero => intro n s _ h; omega
  | succ fuel ih =>
      intro n s hs hfuel
      rcases hpass n s hs with herr | ⟨s', m, hs', hinv, hlt⟩
      · simp [loop, herr]
      · simpa [loop, hs'] using ih hinv (by omega)

/-- Partial correctness of a loop: whatever a finished run returns satisfies the
postcondition that every pass from the invariant establishes or carries on. -/
theorem loop_partial {d : ε} {pass : σ → Except ε (Pass σ ρ)}
    (Inv : σ → Prop) (Post : ρ → Prop)
    (hdone : ∀ s r, Inv s → pass s = .ok (.done r) → Post r)
    (hagain : ∀ s s', Inv s → pass s = .ok (.again s') → Inv s') :
    ∀ {fuel : Nat} {s : σ} {r : ρ}, Inv s → loop d pass fuel s = .ok r → Post r := by
  intro fuel
  induction fuel with
  | zero => intro s r _ h; simp [loop] at h
  | succ fuel ih =>
      intro s r hs h
      cases hp : pass s with
      | error e => simp [loop, hp] at h
      | ok p =>
          cases p with
          | done r' =>
              simp only [loop, hp, Except.ok.injEq] at h
              subst h
              exact hdone s r' hs hp
          | again s' =>
              simp only [loop, hp] at h
              exact ih (hagain s s' hs hp) h

/-- Two loops whose passes agree on the states of an invariant have the same outcome. -/
theorem loop_congr {d : ε} {pass pass' : σ → Except ε (Pass σ ρ)} (Inv : σ → Prop)
    (hpass : ∀ s, Inv s → pass' s = pass s)
    (hagain : ∀ s s', Inv s → pass s = .ok (.again s') → Inv s') :
    ∀ {fuel : Nat} {s : σ}, Inv s → loop d pass' fuel s = loop d pass fuel s := by
  intro fuel
  induction fuel with
  | zero => intro s _; rfl
  | succ fuel ih =>
      intro s hs
      simp only [loop, hpass s hs]
      cases hp : pass s with
      | error e => rfl
      | ok p =>
          cases p with
          | done r => rfl
          | again s' => exact ih (hagain s s' hs hp)

/-- A finished loop finishes from every state that a pass leads to. -/
theorem loop_ok_again {d : ε} {pass : σ → Except ε (Pass σ ρ)} {fuel : Nat} {s s' : σ} {r : ρ}
    (h : loop d pass fuel s = .ok r) (hs : pass s = .ok (.again s')) :
    ∃ fuel', loop d pass fuel' s' = .ok r := by
  cases fuel with
  | zero => simp [loop] at h
  | succ fuel =>
      simp only [loop, hs] at h
      exact ⟨fuel, h⟩

/-- A finished loop meets no fault. -/
theorem loop_ok_ne_error {d e : ε} {pass : σ → Except ε (Pass σ ρ)} {fuel : Nat} {s : σ} {r : ρ}
    (h : loop d pass fuel s = .ok r) : pass s ≠ .error e := by
  intro hs
  cases fuel with
  | zero => simp [loop] at h
  | succ fuel => simp [loop, hs] at h

/-! ## Counted loops -/

/-- {lit}`n` rounds of {lit}`body`, at the indices {lit}`lo`, {lit}`lo + 1` and so on. -/
def countUp (body : Int → σ → Except ε σ) : Nat → Int → σ → Except ε σ
  | 0, _, s => .ok s
  | n + 1, lo, s =>
      match body lo s with
      | .error e => .error e
      | .ok s' => countUp body n (lo + 1) s'

/-- The loop `for (i = lo; i < hi; i++)`. -/
def forUp (lo hi : Int) (body : Int → σ → Except ε σ) (s : σ) : Except ε σ :=
  countUp body (hi - lo).toNat lo s

/-- The loop `for (i = hi; i >= lo; i--)`, run as its mirror image upwards. -/
def forDown (hi lo : Int) (body : Int → σ → Except ε σ) (s : σ) : Except ε σ :=
  countUp (fun k => body (hi + lo - k)) (hi - lo + 1).toNat lo s

/-- The invariant rule of a counted run whose body never faults. -/
theorem countUp_spec {body : Int → σ → Except ε σ} (Inv : Int → σ → Prop)
    {n : Nat} {lo : Int} {s : σ}
    (hbody : ∀ i s, lo ≤ i → i < lo + n → Inv i s →
      ∃ s', body i s = .ok s' ∧ Inv (i + 1) s')
    (hs : Inv lo s) : ∃ s', countUp body n lo s = .ok s' ∧ Inv (lo + n) s' := by
  induction n generalizing lo s with
  | zero => exact ⟨s, rfl, by simpa using hs⟩
  | succ n ih =>
      obtain ⟨s', hs', hinv⟩ := hbody lo s (Int.le_refl lo) (by omega) hs
      obtain ⟨t, ht, htinv⟩ := @ih (lo + 1) s'
        (fun i u h₁ h₂ => hbody i u (by omega) (by push_cast; omega)) hinv
      refine ⟨t, by simpa [countUp, hs'] using ht, ?_⟩
      have heq : lo + ((n + 1 : Nat) : Int) = lo + 1 + n := by push_cast; omega
      rwa [heq]

/-- A counted run that keeps its invariant up to some index and faults there
faults as a whole. -/
theorem countUp_error {body : Int → σ → Except ε σ} {e : ε} (Inv : Int → σ → Prop)
    {n : Nat} {lo bad : Int} {s : σ} (hlo : lo ≤ bad) (hbad : bad < lo + n)
    (hbody : ∀ i s, lo ≤ i → i < bad → Inv i s →
      ∃ s', body i s = .ok s' ∧ Inv (i + 1) s')
    (hfault : ∀ s, Inv bad s → body bad s = .error e)
    (hs : Inv lo s) : countUp body n lo s = .error e := by
  induction n generalizing lo s with
  | zero => simp at hbad; omega
  | succ n ih =>
      by_cases heq : lo = bad
      · subst heq
        simp [countUp, hfault s hs]
      · obtain ⟨s', hs', hinv⟩ := hbody lo s (Int.le_refl lo) (by omega) hs
        have hrest := @ih (lo + 1) s' (by omega)
          (by push_cast at hbad; omega) (fun i u h₁ h₂ => hbody i u (by omega) h₂) hinv
        simpa [countUp, hs'] using hrest

/-- The invariant rule of `for (i = lo; i < hi; i++)`. -/
theorem forUp_spec {body : Int → σ → Except ε σ} {lo hi : Int} {s : σ}
    (Inv : Int → σ → Prop) (hle : lo ≤ hi)
    (hbody : ∀ i s, lo ≤ i → i < hi → Inv i s → ∃ s', body i s = .ok s' ∧ Inv (i + 1) s')
    (hs : Inv lo s) : ∃ s', forUp lo hi body s = .ok s' ∧ Inv hi s' := by
  have h := countUp_spec (n := (hi - lo).toNat) Inv
    (fun i u h₁ h₂ => hbody i u h₁ (by omega)) hs
  rwa [show lo + ((hi - lo).toNat : Int) = hi by omega] at h

/-- A loop `for (i = lo; i < hi; i++)` with an empty range does nothing. -/
@[simp]
theorem forUp_empty {body : Int → σ → Except ε σ} {lo hi : Int} {s : σ} (h : hi ≤ lo) :
    forUp lo hi body s = .ok s := by
  simp [forUp, show (hi - lo).toNat = 0 by omega, countUp]

/-- A loop `for (i = lo; i < hi; i++)` that reaches a faulting index faults. -/
theorem forUp_error {body : Int → σ → Except ε σ} {lo hi bad : Int} {s : σ} {e : ε}
    (Inv : Int → σ → Prop) (hlo : lo ≤ bad) (hbad : bad < hi)
    (hbody : ∀ i s, lo ≤ i → i < bad → Inv i s → ∃ s', body i s = .ok s' ∧ Inv (i + 1) s')
    (hfault : ∀ s, Inv bad s → body bad s = .error e)
    (hs : Inv lo s) : forUp lo hi body s = .error e :=
  countUp_error Inv hlo (by omega) hbody hfault hs

/-- Two counted runs whose bodies agree on the indices of the run have the same outcome. -/
theorem countUp_congr {body body' : Int → σ → Except ε σ} {n : Nat} {lo : Int} {s : σ}
    (hbody : ∀ i s, lo ≤ i → i < lo + n → body' i s = body i s) :
    countUp body' n lo s = countUp body n lo s := by
  induction n generalizing lo s with
  | zero => rfl
  | succ n ih =>
      simp only [countUp, hbody lo s (Int.le_refl lo) (by omega)]
      cases body lo s with
      | error e => rfl
      | ok s' => exact ih fun i u h₁ h₂ => hbody i u (by omega) (by push_cast; omega)

/-- Two loops `for (i = lo; i < hi; i++)` whose bodies agree have the same outcome. -/
theorem forUp_congr {body body' : Int → σ → Except ε σ} {lo hi : Int} {s : σ}
    (hbody : ∀ i s, lo ≤ i → i < hi → body' i s = body i s) :
    forUp lo hi body' s = forUp lo hi body s :=
  countUp_congr fun i u h₁ h₂ => hbody i u h₁ (by omega)

/-- The invariant rule of `for (i = hi; i >= lo; i--)`; {lit}`Inv i` is what holds when
the indices above {lit}`i` are done. -/
theorem forDown_spec {body : Int → σ → Except ε σ} {hi lo : Int} {s : σ}
    (Inv : Int → σ → Prop) (hle : lo ≤ hi + 1)
    (hbody : ∀ i s, lo ≤ i → i ≤ hi → Inv i s → ∃ s', body i s = .ok s' ∧ Inv (i - 1) s')
    (hs : Inv hi s) : ∃ s', forDown hi lo body s = .ok s' ∧ Inv (lo - 1) s' := by
  have hmirror : ∀ k u, lo ≤ k → k < lo + ((hi - lo + 1).toNat : Int) → Inv (hi + lo - k) u →
      ∃ s', body (hi + lo - k) u = .ok s' ∧ Inv (hi + lo - (k + 1)) s' := by
    intro k u h₁ h₂ hk
    have hstep := hbody (hi + lo - k) u (by omega) (by omega) hk
    rwa [show hi + lo - k - 1 = hi + lo - (k + 1) by omega] at hstep
  have h := countUp_spec (fun k => Inv (hi + lo - k)) hmirror
    (show Inv (hi + lo - lo) s by rwa [show hi + lo - lo = hi by omega])
  rwa [show hi + lo - (lo + ((hi - lo + 1).toNat : Int)) = lo - 1 by omega] at h

end Loops
