import Smpcil.Foundations.Programs
import Mathlib.Data.List.Nodup

/-!
# Linearizability

A log of whole requests and results explains a history if it leads the object from its first
state to its last, has every finished request once, with its result, and has requests that do not
overlap in the order in which they were made.

An outline of a program says what holds at every point of it, however the other clients move, and
at which calls the object changes.

Main results:

- Definition {lit}`Explains`: what a log says of a history.
- Theorem {lit}`Outline.explained`: clients whose program has an outline are linearizable.
-/

namespace Programs

variable {ι κ σ R C A X : Type}

/-- A request and its result. -/
structure Entry (R X : Type) where
  id : ℕ
  request : R
  result : X

/-- One request after another leads the object from one state to another. -/
inductive Legal (effect : R → X → σ → σ → Prop) : σ → List (Entry R X) → σ → Prop
  | nil (o : σ) : Legal effect o [] o
  | snoc {o o' o'' : σ} {log : List (Entry R X)} {n : ℕ} {r : R} {x : X} :
      Legal effect o log o' → effect r x o' o'' → Legal effect o (log ++ [⟨n, r, x⟩]) o''

/-- The numbers of the requests of a log. -/
def ids (log : List (Entry R X)) : List ℕ := log.map Entry.id

/-- A log explains a history and the last state of the object. -/
structure Explains (effect : R → X → σ → σ → Prop) (o₀ o : σ) (H : List (Event ι R X))
    (log : List (Entry R X)) : Prop where
  legal : Legal effect o₀ log o
  once : (ids log).Nodup
  begun : ∀ e ∈ log, ∃ i, .begin i e.id e.request ∈ H
  answered : ∀ i n x, .finish i n x ∈ H → ∃ r, .begin i n r ∈ H ∧ ⟨n, r, x⟩ ∈ log
  order : ∀ i j m n x r, [.finish i m x, .begin j n r].Sublist H → n ∈ ids log →
    [m, n].Sublist (ids log)

variable {effect : R → X → σ → σ → Prop} {o₀ o o' : σ} {H : List (Event ι R X)}
  {log : List (Entry R X)} {i : ι} {n : ℕ} {r : R} {x : X}

@[simp] theorem ids_append (log log' : List (Entry R X)) :
    ids (log ++ log') = ids log ++ ids log' := List.map_append

@[simp] theorem ids_singleton (e : Entry R X) : ids [e] = [e.id] := rfl

theorem mem_ids {e : Entry R X} (he : e ∈ log) : e.id ∈ ids log := List.mem_map_of_mem he

/-- Two elements in order, of a list with one more at its end. -/
theorem pair_sublist_snoc {α : Type} {a b c : α} {l : List α} :
    [a, b].Sublist (l ++ [c]) ↔ [a, b].Sublist l ∨ a ∈ l ∧ b = c := by
  constructor
  · intro h
    rw [List.sublist_append_iff] at h
    obtain ⟨l₁, l₂, hsplit, h₁, h₂⟩ := h
    rcases List.sublist_singleton.mp h₂ with rfl | rfl
    · rw [List.append_nil] at hsplit
      exact .inl (hsplit ▸ h₁)
    · obtain ⟨rfl, hlast⟩ := List.append_inj' (show [a] ++ [b] = l₁ ++ [c] from hsplit) rfl
      exact .inr ⟨List.singleton_sublist.mp h₁, List.singleton_inj.mp hlast⟩
  · rintro (h | ⟨ha, rfl⟩)
    · exact h.trans (List.sublist_append_left l [c])
    · exact (List.singleton_sublist.mpr ha).append (List.Sublist.refl [b])

/-! ## How a log grows with a history -/

namespace Explains

/-- Before anything has happened. -/
theorem empty : Explains effect o o ([] : List (Event ι R X)) [] where
  legal := .nil o
  once := List.nodup_nil
  begun := fun _ he => absurd he List.not_mem_nil
  answered := fun _ _ _ he => absurd he List.not_mem_nil
  order := fun _ _ _ _ _ _ _ hn => absurd hn List.not_mem_nil

/-- A request takes effect. -/
theorem extend (hex : Explains effect o₀ o H log) (hnew : n ∉ ids log)
    (hbegun : .begin i n r ∈ H) (heffect : effect r x o o') :
    Explains effect o₀ o' H (log ++ [⟨n, r, x⟩]) where
  legal := hex.legal.snoc heffect
  once := by
    rw [ids_append, ids_singleton]
    exact hex.once.append (List.nodup_singleton n) (List.disjoint_singleton.mpr hnew)
  begun := by
    intro e he
    rcases List.mem_append.mp he with he | he
    · exact hex.begun e he
    · rw [List.mem_singleton.mp he]
      exact ⟨i, hbegun⟩
  answered := by
    intro j m y hm
    obtain ⟨r', hr', hmem⟩ := hex.answered j m y hm
    exact ⟨r', hr', List.mem_append_left _ hmem⟩
  order := by
    intro j k m m' y r' hsub hm'
    rw [ids_append, ids_singleton] at hm' ⊢
    rcases List.mem_append.mp hm' with hm' | hm'
    · exact pair_sublist_snoc.mpr (.inl (hex.order j k m m' y r' hsub hm'))
    · -- whatever finished before the new request began is in the log already
      have hfinished := hsub.subset List.mem_cons_self
      obtain ⟨_, _, hmem⟩ := hex.answered j m y hfinished
      exact pair_sublist_snoc.mpr (.inr ⟨mem_ids hmem, List.mem_singleton.mp hm'⟩)

/-- A request is made. -/
theorem begin (hex : Explains effect o₀ o H log) (hnew : n ∉ ids log) :
    Explains effect o₀ o (H ++ [.begin i n r]) log where
  legal := hex.legal
  once := hex.once
  begun := by
    intro e he
    obtain ⟨j, hj⟩ := hex.begun e he
    exact ⟨j, List.mem_append_left _ hj⟩
  answered := by
    intro j m y hm
    rcases List.mem_append.mp hm with hm | hm
    · obtain ⟨r', hr', hmem⟩ := hex.answered j m y hm
      exact ⟨r', List.mem_append_left _ hr', hmem⟩
    · cases List.mem_singleton.mp hm
  order := by
    intro j k m m' y r' hsub hm'
    rcases pair_sublist_snoc.mp hsub with hsub | ⟨-, hlast⟩
    · exact hex.order j k m m' y r' hsub hm'
    · cases hlast
      exact absurd hm' hnew

/-- A request is answered. -/
theorem finish (hex : Explains effect o₀ o H log) (hbegun : .begin i n r ∈ H)
    (hmem : ⟨n, r, x⟩ ∈ log) : Explains effect o₀ o (H ++ [.finish i n x]) log where
  legal := hex.legal
  once := hex.once
  begun := by
    intro e he
    obtain ⟨j, hj⟩ := hex.begun e he
    exact ⟨j, List.mem_append_left _ hj⟩
  answered := by
    intro j m y hm
    rcases List.mem_append.mp hm with hm | hm
    · obtain ⟨r', hr', hmem'⟩ := hex.answered j m y hm
      exact ⟨r', List.mem_append_left _ hr', hmem'⟩
    · cases List.mem_singleton.mp hm
      exact ⟨r, List.mem_append_left _ hbegun, hmem⟩
  order := by
    intro j k m m' y r' hsub hm'
    rcases pair_sublist_snoc.mp hsub with hsub | ⟨-, hlast⟩
    · exact hex.order j k m m' y r' hsub hm'
    · cases hlast

end Explains

/-! ## Outlines -/

/-- What becomes of a request that has taken effect with the result {lit}`m`, or not yet. -/
inductive Advance (effect : X → σ → σ → Prop) : Option X → Option X → σ → σ → Prop
  | silent (m : Option X) (o : σ) : Advance effect m m o o
  | commit {o o' : σ} (x : X) : effect x o o' → Advance effect none (some x) o o'

/-- What holds of the environment while clients are at work: always, of a client that is idle, and
of a client at work on a request, at every point of its program and with the result that the
request has taken effect with, if it has. -/
structure Outline [DecidableEq ι] (code : R → Prog C A X) (K : ι → C → κ → A → κ → Prop)
    (view : κ → σ) (effect : R → X → σ → σ → Prop) where
  env : κ → Prop
  idle : ι → κ → Prop
  busy : ι → R → Option X → Prog C A X → κ → Prop
  begin : ∀ {i r k}, env k → idle i k → busy i r none (code r) k
  call : ∀ {i r m c f k a k'}, env k → busy i r m (.call c f) k → K i c k a k' →
    env k' ∧ ∃ m', busy i r m' (f a) k' ∧ Advance (effect r) m m' (view k) (view k')
  finish : ∀ {i r m x k}, env k → busy i r m (.ret x) k →
    idle i k ∧ (m = some x ∨ m = none ∧ effect r x (view k) (view k))
  idle_stable : ∀ {i j r m c f k a k'}, env k → j ≠ i → busy i r m (.call c f) k →
    K i c k a k' → idle j k → idle j k'
  busy_stable : ∀ {i j r m c f k a k' r' m' P}, env k → j ≠ i → busy i r m (.call c f) k →
    K i c k a k' → busy j r' m' P k → busy j r' m' P k'

/-- What a log says of a request: the result with which it has taken effect. -/
def taken (log : List (Entry R X)) (n : ℕ) : Option X :=
  (log.find? fun e => e.id == n).map Entry.result

theorem taken_eq_none (hnew : n ∉ ids log) : taken log n = none := by
  have hfind : (log.find? fun e => e.id == n) = none := by
    rw [List.find?_eq_none]
    intro e he heq
    exact hnew (beq_iff_eq.mp heq ▸ mem_ids he)
  rw [taken, hfind, Option.map_none]

theorem not_mem_ids_of_taken (h : taken log n = none) : n ∉ ids log := by
  intro hmem
  obtain ⟨e, he, hid⟩ := List.mem_map.mp hmem
  rw [taken, Option.map_eq_none_iff, List.find?_eq_none] at h
  exact h e he (beq_iff_eq.mpr hid)

theorem taken_snoc_self (hnew : n ∉ ids log) : taken (log ++ [⟨n, r, x⟩]) n = some x := by
  have hnone := taken_eq_none hnew
  rw [taken, Option.map_eq_none_iff] at hnone
  simp [taken, List.find?_append, hnone]

theorem taken_snoc_of_ne {m : ℕ} (hne : m ≠ n) :
    taken (log ++ [⟨n, r, x⟩]) m = taken log m := by
  simp [taken, List.find?_append, hne.symm]

/-- The result of a request in a log is the one that it has there. -/
theorem exists_entry_of_taken (h : taken log n = some x) :
    ∃ e ∈ log, e.id = n ∧ e.result = x := by
  obtain ⟨e, hfind, hx⟩ := Option.map_eq_some_iff.mp h
  exact ⟨e, List.mem_of_find?_eq_some hfind, beq_iff_eq.mp (List.find?_some hfind :), hx⟩

/-! ## What the numbers say -/

section Books

variable {s : System ι κ R C A X}

/-- The clients at work, the history and the log agree on which number is whose. -/
structure Books (H : List (Event ι R X)) (s : System ι κ R C A X) (log : List (Entry R X)) :
    Prop where
  begun : ∀ i b, s.client i = some b → .begin i b.id b.request ∈ H ∧ b.id < s.count
  apart : ∀ i j b b', s.client i = some b → s.client j = some b' → b.id = b'.id → i = j
  agree : ∀ i b, s.client i = some b → ∀ e ∈ log, e.id = b.id → e.request = b.request
  below : ∀ n ∈ ids log, n < s.count

namespace Books

theorem fresh (hfresh : s.Fresh) : Books ([] : List (Event ι R X)) s [] where
  begun := fun _ _ hb => absurd hb hfresh.client_ne
  apart := fun _ _ _ _ hb => absurd hb hfresh.client_ne
  agree := fun _ _ _ _ he => absurd he List.not_mem_nil
  below := fun _ hn => absurd hn List.not_mem_nil

/-- The number of the next program is in no log. -/
theorem count_not_mem (hbooks : Books H s log) : s.count ∉ ids log := fun hmem =>
  absurd (hbooks.below s.count hmem) (Nat.lt_irrefl s.count)

/-- The request of a client at work takes effect. -/
theorem extend (hbooks : Books H s log) {b : Busy R C A X} (hb : s.client i = some b) (x : X) :
    Books H s (log ++ [⟨b.id, b.request, x⟩]) where
  begun := hbooks.begun
  apart := hbooks.apart
  agree := by
    intro j b' hb' e he hid
    rcases List.mem_append.mp he with he | he
    · exact hbooks.agree j b' hb' e he hid
    · rw [List.mem_singleton.mp he] at hid ⊢
      have hij := hbooks.apart i j b b' hb hb' hid
      subst hij
      rw [hb, Option.some.injEq] at hb'
      rw [hb']
  below := by
    intro m hm
    rw [ids_append, ids_singleton] at hm
    rcases List.mem_append.mp hm with hm | hm
    · exact hbooks.below m hm
    · rw [List.mem_singleton.mp hm]
      exact (hbooks.begun i b hb).2

variable [DecidableEq ι]

/-- A client begins a program. -/
theorem begin (hbooks : Books H s log) (P : Prog C A X) :
    Books (H ++ [.begin i s.count r])
      { s with client := Function.update s.client i (some ⟨s.count, r, P⟩)
               count := s.count + 1 } log where
  begun := by
    intro j b hb
    dsimp only at hb ⊢
    by_cases hj : j = i
    · subst hj
      rw [Function.update_self, Option.some.injEq] at hb
      subst hb
      exact ⟨List.mem_append_right _ (List.mem_singleton.mpr rfl), Nat.lt_succ_self s.count⟩
    · rw [Function.update_of_ne hj] at hb
      obtain ⟨hmem, hlt⟩ := hbooks.begun j b hb
      exact ⟨List.mem_append_left _ hmem, Nat.lt_succ_of_lt hlt⟩
  apart := by
    intro j k b b' hb hb' hid
    dsimp only at hb hb'
    by_cases hj : j = i <;> by_cases hk : k = i
    · rw [hj, hk]
    · subst hj
      rw [Function.update_self, Option.some.injEq] at hb
      rw [Function.update_of_ne hk] at hb'
      subst hb
      dsimp only at hid
      exact absurd (hbooks.begun k b' hb').2 (by omega)
    · subst hk
      rw [Function.update_of_ne hj] at hb
      rw [Function.update_self, Option.some.injEq] at hb'
      subst hb'
      dsimp only at hid
      exact absurd (hbooks.begun j b hb).2 (by omega)
    · rw [Function.update_of_ne hj] at hb
      rw [Function.update_of_ne hk] at hb'
      exact hbooks.apart j k b b' hb hb' hid
  agree := by
    intro j b hb e he hid
    dsimp only at hb
    by_cases hj : j = i
    · subst hj
      rw [Function.update_self, Option.some.injEq] at hb
      subst hb
      dsimp only at hid
      exact absurd (hid ▸ mem_ids he) hbooks.count_not_mem
    · rw [Function.update_of_ne hj] at hb
      exact hbooks.agree j b hb e he hid
  below := fun m hm => Nat.lt_succ_of_lt (hbooks.below m hm)

/-- A client goes on with its program. -/
theorem advance (hbooks : Books H s log) {b : Busy R C A X} (hb : s.client i = some b)
    (P : Prog C A X) (e : κ) :
    Books H
      { s with env := e
               client := Function.update s.client i (some { b with rest := P }) } log := by
  -- every client at work has the number and the request that it had
  have hsame : ∀ j b', Function.update s.client i (some { b with rest := P }) j = some b' →
      ∃ b₀, s.client j = some b₀ ∧ b₀.id = b'.id ∧ b₀.request = b'.request := by
    intro j b' hb'
    by_cases hj : j = i
    · subst hj
      rw [Function.update_self, Option.some.injEq] at hb'
      exact ⟨b, hb, by rw [← hb'], by rw [← hb']⟩
    · rw [Function.update_of_ne hj] at hb'
      exact ⟨b', hb', rfl, rfl⟩
  constructor
  case begun =>
    intro j b' hb'
    obtain ⟨b₀, hb₀, hid, hreq⟩ := hsame j b' hb'
    rw [← hid, ← hreq]
    exact hbooks.begun j b₀ hb₀
  case apart =>
    intro j k b' b'' hb' hb'' heq
    obtain ⟨b₀, hb₀, hid, -⟩ := hsame j b' hb'
    obtain ⟨b₁, hb₁, hid', -⟩ := hsame k b'' hb''
    exact hbooks.apart j k b₀ b₁ hb₀ hb₁ (by rw [hid, hid', heq])
  case agree =>
    intro j b' hb' e he heq
    obtain ⟨b₀, hb₀, hid, hreq⟩ := hsame j b' hb'
    rw [← hreq]
    exact hbooks.agree j b₀ hb₀ e he (by rw [heq, hid])
  case below => exact hbooks.below

/-- A client finishes. -/
theorem finish (hbooks : Books H s log) (es : List (Event ι R X)) :
    Books (H ++ es) { s with client := Function.update s.client i none } log := by
  have hsame : ∀ j b, Function.update s.client i none j = some b → s.client j = some b := by
    intro j b hb
    by_cases hj : j = i
    · subst hj
      rw [Function.update_self] at hb
      cases hb
    · rwa [Function.update_of_ne hj] at hb
  constructor
  case begun =>
    intro j b hb
    obtain ⟨hmem, hlt⟩ := hbooks.begun j b (hsame j b hb)
    exact ⟨List.mem_append_left _ hmem, hlt⟩
  case apart =>
    intro j k b b' hb hb'
    exact hbooks.apart j k b b' (hsame j b hb) (hsame k b' hb')
  case agree =>
    intro j b hb
    exact hbooks.agree j b (hsame j b hb)
  case below => exact hbooks.below

end Books

end Books

/-! ## Clients with an outline -/

namespace Outline

variable [DecidableEq ι] {code : R → Prog C A X} {K : ι → C → κ → A → κ → Prop} {view : κ → σ}
  {s₀ s s' : System ι κ R C A X} {es : List (Event ι R X)}

/-- What holds along the runs of clients with an outline. -/
structure Invariant (L : Outline code K view effect) (o₀ : σ) (H : List (Event ι R X))
    (s : System ι κ R C A X) (log : List (Entry R X)) : Prop where
  env : L.env s.env
  idle : ∀ i, s.client i = none → L.idle i s.env
  busy : ∀ i b, s.client i = some b → L.busy i b.request (taken log b.id) b.rest s.env
  books : Books H s log
  explains : Explains effect o₀ (view s.env) H log

variable {L : Outline code K view effect} {b : Busy R C A X} {P : Prog C A X} {c : C}
  {f : A → Prog C A X} {a : A} {e : κ}

namespace Invariant

theorem fresh (hfresh : s.Fresh) (henv : L.env s.env) (hidle : ∀ i, L.idle i s.env) :
    L.Invariant (view s.env) [] s [] where
  env := henv
  idle := fun i _ => hidle i
  busy := fun _ _ hb => absurd hb hfresh.client_ne
  books := .fresh hfresh
  explains := .empty

theorem begin (hinv : L.Invariant o₀ H s log) (hidle : s.client i = none) :
    L.Invariant o₀ (H ++ [.begin i s.count r])
      { s with client := Function.update s.client i (some ⟨s.count, r, code r⟩)
               count := s.count + 1 } log := by
  have hnew := hinv.books.count_not_mem
  constructor
  case env => exact hinv.env
  case idle =>
    intro j hj
    dsimp only at hj ⊢
    by_cases hji : j = i
    · subst hji
      exact hinv.idle j hidle
    · rw [Function.update_of_ne hji] at hj
      exact hinv.idle j hj
  case busy =>
    intro j b hb
    dsimp only at hb ⊢
    by_cases hji : j = i
    · subst hji
      rw [Function.update_self, Option.some.injEq] at hb
      subst hb
      dsimp only
      rw [taken_eq_none hnew]
      exact L.begin hinv.env (hinv.idle j hidle)
    · rw [Function.update_of_ne hji] at hb
      exact hinv.busy j b hb
  case books => exact hinv.books.begin (code r)
  case explains => exact hinv.explains.begin hnew

/-- What holds of the clients when the call of one of them is answered: of that client as the
outline says, and of the others still. -/
theorem others (hinv : L.Invariant o₀ H s log) (hb : s.client i = some b)
    (hrest : b.rest = .call c f) (hK : K i c s.env a e) {log' : List (Entry R X)}
    (hbusy : L.busy i b.request (taken log' b.id) (f a) e)
    (htaken : ∀ n ≠ b.id, taken log' n = taken log n) :
    (∀ j, Function.update s.client i (some { b with rest := f a }) j = none → L.idle j e) ∧
      ∀ j b', Function.update s.client i (some { b with rest := f a }) j = some b' →
        L.busy j b'.request (taken log' b'.id) b'.rest e := by
  have hmover := hinv.busy i b hb
  rw [hrest] at hmover
  constructor
  · intro j hj
    by_cases hji : j = i
    · subst hji
      rw [Function.update_self] at hj
      cases hj
    · rw [Function.update_of_ne hji] at hj
      exact L.idle_stable hinv.env hji hmover hK (hinv.idle j hj)
  · intro j b' hb'
    by_cases hji : j = i
    · subst hji
      rw [Function.update_self, Option.some.injEq] at hb'
      subst hb'
      exact hbusy
    · rw [Function.update_of_ne hji] at hb'
      have hid : b'.id ≠ b.id := fun heq => hji (hinv.books.apart j i b' b hb' hb heq)
      rw [htaken b'.id hid]
      exact L.busy_stable hinv.env hji hmover hK (hinv.busy j b' hb')

theorem call (hinv : L.Invariant o₀ H s log) (hb : s.client i = some b)
    (hrest : b.rest = .call c f) (hK : K i c s.env a e) :
    ∃ log', L.Invariant o₀ H
      { s with env := e
               client := Function.update s.client i (some { b with rest := f a }) } log' := by
  have hmover := hinv.busy i b hb
  rw [hrest] at hmover
  obtain ⟨henv, m', hbusy, hadvance⟩ := L.call hinv.env hmover hK
  cases hm : taken log b.id with
  | some y =>
      rw [hm] at hadvance
      generalize hv : view e = o at hadvance
      cases hadvance with
      | silent =>
          rw [← hm] at hbusy
          obtain ⟨hidle', hbusy'⟩ := hinv.others hb hrest hK hbusy fun _ _ => rfl
          have hex := hinv.explains
          rw [← hv] at hex
          exact ⟨log, henv, hidle', hbusy', hinv.books.advance hb (f a) e, hex⟩
  | none =>
      rw [hm] at hadvance
      generalize hv : view e = o at hadvance
      cases hadvance with
      | silent =>
          rw [← hm] at hbusy
          obtain ⟨hidle', hbusy'⟩ := hinv.others hb hrest hK hbusy fun _ _ => rfl
          have hex := hinv.explains
          rw [← hv] at hex
          exact ⟨log, henv, hidle', hbusy', hinv.books.advance hb (f a) e, hex⟩
      | commit x heffect =>
          have hnew := not_mem_ids_of_taken hm
          have hex := hinv.explains.extend hnew (hinv.books.begun i b hb).1 heffect
          rw [← hv] at hex
          rw [← taken_snoc_self (r := b.request) (x := x) hnew] at hbusy
          obtain ⟨hidle', hbusy'⟩ := hinv.others hb hrest hK hbusy fun _ hne =>
            taken_snoc_of_ne hne
          exact ⟨_, henv, hidle', hbusy', (hinv.books.extend hb x).advance hb (f a) e, hex⟩

theorem finish (hinv : L.Invariant o₀ H s log) (hb : s.client i = some b)
    (hrest : b.rest = .ret x) :
    ∃ log', L.Invariant o₀ (H ++ [.finish i b.id x])
      { s with client := Function.update s.client i none } log' := by
  have hdone := hinv.busy i b hb
  rw [hrest] at hdone
  obtain ⟨hidle, hresult⟩ := L.finish hinv.env hdone
  have hbegun := (hinv.books.begun i b hb).1
  have hidle' : ∀ j, Function.update s.client i none j = none → L.idle j s.env := by
    intro j hj
    by_cases hji : j = i
    · subst hji
      exact hidle
    · rw [Function.update_of_ne hji] at hj
      exact hinv.idle j hj
  have hsame : ∀ j b', Function.update s.client i none j = some b' →
      s.client j = some b' ∧ b'.id ≠ b.id := by
    intro j b' hb'
    by_cases hji : j = i
    · subst hji
      rw [Function.update_self] at hb'
      cases hb'
    · rw [Function.update_of_ne hji] at hb'
      exact ⟨hb', fun heq => hji (hinv.books.apart j i b' b hb' hb heq)⟩
  rcases hresult with hm | ⟨hm, heffect⟩
  · obtain ⟨entry, hmem, hid, hx⟩ := exists_entry_of_taken hm
    have hreq := hinv.books.agree i b hb entry hmem hid
    obtain ⟨n, r, y⟩ := entry
    dsimp only at hid hreq hx
    subst hid hreq hx
    refine ⟨log, hinv.env, hidle', ?_, hinv.books.finish _, hinv.explains.finish hbegun hmem⟩
    intro j b' hb'
    exact hinv.busy j b' (hsame j b' hb').1
  · have hnew := not_mem_ids_of_taken hm
    have hex := hinv.explains.extend hnew hbegun heffect
    refine ⟨_, hinv.env, hidle', ?_, (hinv.books.extend hb x).finish _,
      hex.finish hbegun (List.mem_append_right _ (List.mem_singleton.mpr rfl))⟩
    intro j b' hb'
    obtain ⟨hb'', hne⟩ := hsame j b' hb'
    rw [taken_snoc_of_ne hne]
    exact hinv.busy j b' hb''

/-- A step of any client. -/
theorem step (hinv : L.Invariant o₀ H s log) (hstep : Step code K s es s') :
    ∃ log', L.Invariant o₀ (H ++ es) s' log' := by
  cases hstep with
  | begin r hidle => exact ⟨log, hinv.begin hidle⟩
  | call hb hK =>
      rw [List.append_nil]
      exact hinv.call hb rfl hK
  | finish hb => exact hinv.finish hb rfl

end Invariant

/-- Clients whose program has an outline are linearizable: some log explains all that a bystander
has seen.  The outline holds all the time. -/
theorem explained (L : Outline code K view effect) (hfresh : s₀.Fresh) (henv : L.env s₀.env)
    (hidle : ∀ i, L.idle i s₀.env) (hrun : Run code K s₀ H s) :
    ∃ log, L.Invariant (view s₀.env) H s log := by
  refine hrun.invariant (I := fun H s => ∃ log, L.Invariant (view s₀.env) H s log) ?_ ?_
  · exact ⟨[], .fresh hfresh henv hidle⟩
  · rintro H es s s' ⟨log, hinv⟩ hstep
    exact hinv.step hstep

end Outline

end Programs
