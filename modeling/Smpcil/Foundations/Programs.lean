import Mathlib.Data.List.Basic
import Mathlib.Logic.Function.Basic

/-!
# Programs that make calls

A program has a result, or makes a call and goes on with the answer.  Clients run such programs
side by side: in every step one client begins a program, has one call answered, or finishes.  The
environment answers a call in any way that a relation allows, and changes as it does so.

Main results:

- Definition {lit}`Run`: the runs of a system of clients, with the events that a bystander sees.
- Theorem {lit}`Run.invariant`: what every step keeps holds along every run.
- Theorem {lit}`Run.begun_nodup`: no two programs begun have one number.
-/

namespace Programs

variable {C A X Y : Type}

/-- A program with calls {lit}`C`, answers {lit}`A` and results {lit}`X`. -/
inductive Prog (C A X : Type) where
  | ret (x : X)
  | call (c : C) (k : A → Prog C A X)

namespace Prog

/-- A program, and another one for its result. -/
def bind : Prog C A X → (X → Prog C A Y) → Prog C A Y
  | ret x, f => f x
  | call c k, f => call c fun a => (k a).bind f

instance : Monad (Prog C A) where
  pure := ret
  bind := bind

/-- One call, whose answer is the result. -/
def invoke (c : C) : Prog C A A := call c ret

@[simp] theorem pure_eq (x : X) : (pure x : Prog C A X) = ret x := rfl

@[simp] theorem ret_bind (x : X) (f : X → Prog C A Y) : (ret x >>= f) = f x := rfl

@[simp] theorem call_bind (c : C) (k : A → Prog C A X) (f : X → Prog C A Y) :
    (call c k >>= f) = call c fun a => k a >>= f := rfl

@[simp] theorem invoke_bind (c : C) (f : A → Prog C A Y) : (invoke c >>= f) = call c f := rfl

@[simp] theorem bind_ite (b : Prop) [Decidable b] (P Q : Prog C A X) (f : X → Prog C A Y) :
    ((if b then P else Q) >>= f) = if b then P >>= f else Q >>= f := by
  split <;> rfl

end Prog

/-! ## One program alone -/

section Alone

variable {κ : Type}

/-- A program runs by itself, from a state of its environment to its result and the state then,
with calls answered as {lit}`K` allows. -/
inductive Alone (K : C → κ → A → κ → Prop) : Prog C A X → κ → X → κ → Prop
  | ret (x : X) (k : κ) : Alone K (.ret x) k x k
  | call {c : C} {f : A → Prog C A X} {k k' k'' : κ} {a : A} {x : X} :
      K c k a k' → Alone K (f a) k' x k'' → Alone K (.call c f) k x k''

variable {K : C → κ → A → κ → Prop} {P : Prog C A X} {c : C} {f : A → Prog C A X}
  {g : X → Prog C A Y} {k k' : κ} {x y : X} {z : Y}

namespace Alone

@[simp] theorem ret_iff : Alone K (.ret x) k y k' ↔ y = x ∧ k' = k := by
  constructor
  · intro h
    cases h
    exact ⟨rfl, rfl⟩
  · rintro ⟨rfl, rfl⟩
    exact .ret y k'

theorem call_iff :
    Alone K (.call c f) k x k' ↔ ∃ a m, K c k a m ∧ Alone K (f a) m x k' := by
  constructor
  · intro h
    cases h with
    | call hK hrest => exact ⟨_, _, hK, hrest⟩
  · rintro ⟨a, m, hK, hrest⟩
    exact .call hK hrest

/-- A program and another one for its result run one after the other. -/
theorem bind_iff : Alone K (P >>= g) k z k' ↔ ∃ x m, Alone K P k x m ∧ Alone K (g x) m z k' := by
  induction P generalizing k with
  | ret x =>
      rw [Prog.ret_bind]
      constructor
      · intro h
        exact ⟨x, k, .ret x k, h⟩
      · rintro ⟨y, m, hP, hg⟩
        obtain ⟨rfl, rfl⟩ := ret_iff.mp hP
        exact hg
  | call c f ih =>
      rw [Prog.call_bind]
      constructor
      · intro h
        obtain ⟨a, m, hK, hrest⟩ := call_iff.mp h
        obtain ⟨x, m', hP, hg⟩ := ih a |>.mp hrest
        exact ⟨x, m', .call hK hP, hg⟩
      · rintro ⟨x, m', hP, hg⟩
        obtain ⟨a, m, hK, hrest⟩ := call_iff.mp hP
        exact .call hK ((ih a).mpr ⟨x, m', hrest, hg⟩)

/-- More answers allow more runs. -/
theorem mono {K' : C → κ → A → κ → Prop} (hle : ∀ {c k a k'}, K c k a k' → K' c k a k')
    (hrun : Alone K P k x k') : Alone K' P k x k' := by
  induction hrun with
  | ret x k => exact .ret x k
  | call hK _ ih => exact .call (hle hK) ih

end Alone

end Alone

/-! ## Clients side by side -/

section Clients

variable {ι κ R : Type}

/-- A client at work: the number of its program, the request that the program is for, and what
is left of it. -/
structure Busy (R C A X : Type) where
  id : ℕ
  request : R
  rest : Prog C A X

/-- Clients in an environment, and how many programs have been begun. -/
structure System (ι κ R C A X : Type) where
  env : κ
  client : ι → Option (Busy R C A X)
  count : ℕ

/-- What a bystander sees. -/
inductive Event (ι R X : Type) where
  | begin (i : ι) (n : ℕ) (r : R)
  | finish (i : ι) (n : ℕ) (x : X)
deriving DecidableEq

/-- The number of a program that an event begins. -/
def Event.begun : Event ι R X → Option ℕ
  | .begin _ n _ => some n
  | .finish _ _ _ => none

/-- No client is at work, and none has been. -/
structure System.Fresh (s : System ι κ R C A X) : Prop where
  idle : ∀ i, s.client i = none
  count : s.count = 0

theorem System.Fresh.client_ne {s : System ι κ R C A X} (hfresh : s.Fresh) {i : ι}
    {b : Busy R C A X} : s.client i ≠ some b := by
  rw [hfresh.idle i]
  exact (Option.some_ne_none b).symm

variable [DecidableEq ι]

/-- One step of one client. -/
inductive Step (code : R → Prog C A X) (K : ι → C → κ → A → κ → Prop) :
    System ι κ R C A X → List (Event ι R X) → System ι κ R C A X → Prop
  | begin {s : System ι κ R C A X} {i : ι} (r : R) : s.client i = none →
      Step code K s [.begin i s.count r]
        { s with client := Function.update s.client i (some ⟨s.count, r, code r⟩)
                 count := s.count + 1 }
  | call {s : System ι κ R C A X} {i : ι} {n : ℕ} {r : R} {c : C} {f : A → Prog C A X} {a : A}
      {e : κ} : s.client i = some ⟨n, r, .call c f⟩ → K i c s.env a e →
      Step code K s []
        { s with env := e, client := Function.update s.client i (some ⟨n, r, f a⟩) }
  | finish {s : System ι κ R C A X} {i : ι} {n : ℕ} {r : R} {x : X} :
      s.client i = some ⟨n, r, .ret x⟩ →
      Step code K s [.finish i n x] { s with client := Function.update s.client i none }

/-- The runs from a system, with their events. -/
inductive Run (code : R → Prog C A X) (K : ι → C → κ → A → κ → Prop)
    (s₀ : System ι κ R C A X) : List (Event ι R X) → System ι κ R C A X → Prop
  | start : Run code K s₀ [] s₀
  | step {H es : List (Event ι R X)} {s s' : System ι κ R C A X} :
      Run code K s₀ H s → Step code K s es s' → Run code K s₀ (H ++ es) s'

variable {code : R → Prog C A X} {K : ι → C → κ → A → κ → Prop}
  {s₀ s : System ι κ R C A X} {H : List (Event ι R X)}

namespace Run

/-- What every step keeps holds along every run. -/
theorem invariant {I : List (Event ι R X) → System ι κ R C A X → Prop} (hstart : I [] s₀)
    (hstep : ∀ {H es s s'}, I H s → Step code K s es s' → I (H ++ es) s')
    (hrun : Run code K s₀ H s) : I H s := by
  induction hrun with
  | start => exact hstart
  | step _ hone ih => exact hstep ih hone

/-- The programs begun have the numbers below the count, each once. -/
theorem begun_eq (hfresh : s₀.Fresh) (hrun : Run code K s₀ H s) :
    H.filterMap Event.begun = List.range s.count := by
  refine hrun.invariant (I := fun H s => H.filterMap Event.begun = List.range s.count) ?_ ?_
  · rw [hfresh.count]
    rfl
  · intro H es s s' ih hone
    rw [List.filterMap_append, ih]
    cases hone with
    | begin r _ => exact (List.range_succ (n := s.count)).symm
    | call _ _ => exact List.append_nil _
    | finish _ => exact List.append_nil _

/-- No two programs begun have one number. -/
theorem begun_nodup (hfresh : s₀.Fresh) (hrun : Run code K s₀ H s) :
    (H.filterMap Event.begun).Nodup := by
  rw [hrun.begun_eq hfresh]
  exact List.nodup_range

end Run

end Clients

end Programs
