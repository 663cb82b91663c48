import Mathlib.Data.List.Basic
import Mathlib.Data.List.Cycle
import Mathlib.Data.List.Iterate
import Mathlib.Data.List.Nodup
import Mathlib.Data.List.Perm.Subperm
import Mathlib.Tactic.Common

/-!
# Null-terminated chains

The nodes met by following one link field through memory until it is null.  Nodes
are addresses and {lit}`0` is the null address.  The link field is any function, so one
memory can hold many chains over many fields.

Main results:

- Definition {lit}`Chain`: the list of the nodes of a chain.
- Theorem {lit}`Chain.unique`: memory determines the list.
- Theorem {lit}`Chain.nodup`: a chain that ends is acyclic.
- Theorems {lit}`Chain.congr` and {lit}`Chain.snoc`: what stores do to a chain.
- Theorems {lit}`Chain.ring_next` and {lit}`iterate_eq_rotate`: a chain closed to a ring.
-/

namespace Chains

variable {next next' : Nat → Nat} {p q a b : Nat} {l l₁ l₂ : List Nat}

/-- Following {lit}`next` from {lit}`p` meets the nodes of the list and then null. -/
def Chain (next : Nat → Nat) : Nat → List Nat → Prop
  | p, [] => p = 0
  | p, a :: l => p = a ∧ a ≠ 0 ∧ Chain next (next a) l

@[simp]
theorem chain_nil : Chain next p [] ↔ p = 0 := Iff.rfl

@[simp]
theorem chain_cons : Chain next p (a :: l) ↔ p = a ∧ a ≠ 0 ∧ Chain next (next a) l := Iff.rfl

/-- A chain starts at the first of its nodes. -/
theorem Chain.head_eq (h : Chain next p l) : p = l.headD 0 := by
  cases l with
  | nil => exact h
  | cons a l => exact h.1

/-- A chain starts at null or at one of its nodes. -/
theorem Chain.head_mem (h : Chain next p l) : p = 0 ∨ p ∈ l := by
  cases l with
  | nil => exact Or.inl h
  | cons a l => exact Or.inr (by simp [h.1])

/-- A chain from null has no nodes. -/
theorem Chain.eq_nil (h : Chain next 0 l) : l = [] := by
  cases l with
  | nil => rfl
  | cons a l => exact absurd h.1.symm h.2.1

/-- A chain from a node starts with it. -/
theorem Chain.exists_cons (h : Chain next p l) (hp : p ≠ 0) :
    ∃ l', l = p :: l' ∧ Chain next (next p) l' := by
  cases l with
  | nil => exact absurd h hp
  | cons a l =>
      rcases h with ⟨rfl, -, hrest⟩
      exact ⟨l, rfl, hrest⟩

theorem Chain.ne_zero (h : Chain next p l) (ha : a ∈ l) : a ≠ 0 := by
  induction l generalizing p with
  | nil => simp at ha
  | cons b l ih =>
      rcases List.mem_cons.mp ha with rfl | ha
      · exact h.2.1
      · exact ih h.2.2 ha

/-- The link field determines the nodes of a chain. -/
theorem Chain.unique (h₁ : Chain next p l₁) (h₂ : Chain next p l₂) : l₁ = l₂ := by
  induction l₁ generalizing p l₂ with
  | nil =>
      rw [chain_nil] at h₁
      subst h₁
      exact h₂.eq_nil.symm
  | cons a l ih =>
      rcases h₁ with ⟨rfl, hne, hrest⟩
      rcases h₂.exists_cons hne with ⟨l', rfl, hrest'⟩
      rw [ih hrest hrest']

/-- The rest of a chain is a chain. -/
theorem Chain.drop (h : Chain next p (l₁ ++ l₂)) : Chain next (l₂.headD 0) l₂ := by
  induction l₁ generalizing p with
  | nil =>
      have hp := Chain.head_eq (l := l₂) h
      exact hp ▸ h
  | cons a l ih => exact ih h.2.2

/-- The link of a node leads to the next one. -/
theorem Chain.next_eq (h : Chain next p (l₁ ++ a :: l₂)) : next a = l₂.headD 0 :=
  h.drop.2.2.head_eq

/-- The part of a chain from one of its nodes on. -/
theorem Chain.exists_from (h : Chain next p l) (ha : a ∈ l) :
    ∃ t, Chain next a (a :: t) ∧ t.length < l.length := by
  rcases List.append_of_mem ha with ⟨s, t, rfl⟩
  refine ⟨t, h.drop, ?_⟩
  rw [List.length_append, List.length_cons]
  omega

/-- The link of a node leads to a node or to null. -/
theorem Chain.next_mem (h : Chain next p l) (ha : a ∈ l) : next a = 0 ∨ next a ∈ l := by
  rcases List.append_of_mem ha with ⟨s, t, rfl⟩
  rw [h.next_eq]
  cases t with
  | nil => exact Or.inl rfl
  | cons b t => exact Or.inr (by simp)

/-- A node without a successor is the last one. -/
theorem Chain.exists_snoc (h : Chain next p l) (ha : a ∈ l) (hend : next a = 0) :
    ∃ l₁, l = l₁ ++ [a] := by
  rcases List.append_of_mem ha with ⟨l₁, l₂, rfl⟩
  cases l₂ with
  | nil => exact ⟨l₁, rfl⟩
  | cons b l₂ =>
      have hnext := h.next_eq
      rw [hend] at hnext
      exact absurd hnext.symm (h.ne_zero (by simp))

/-- A chain that ends meets no node twice. -/
theorem Chain.nodup (h : Chain next p l) : l.Nodup := by
  induction l generalizing p with
  | nil => simp
  | cons a l ih =>
      refine List.nodup_cons.mpr ⟨fun hmem => ?_, ih h.2.2⟩
      -- a second visit would continue in the same way for ever
      rcases List.append_of_mem hmem with ⟨s, t, rfl⟩
      have hlong := h.2.2
      have hshort : Chain next (next a) t := hlong.drop.2.2
      have hlen := congrArg List.length (hlong.unique hshort)
      simp at hlen
      omega

/-- A chain of addresses below a bound is shorter than the bound. -/
theorem Chain.length_lt {n : Nat} (h : Chain next p l) (hn : 0 < n) (hlt : ∀ a ∈ l, a < n) :
    l.length < n := by
  have hnodup : (0 :: l).Nodup :=
    List.nodup_cons.mpr ⟨fun h₀ => h.ne_zero h₀ rfl, h.nodup⟩
  have hsub : 0 :: l ⊆ List.range n := by
    intro a ha
    rcases List.mem_cons.mp ha with rfl | ha
    · exact List.mem_range.mpr hn
    · exact List.mem_range.mpr (hlt a ha)
  have hlen := (List.subperm_of_subset hnodup hsub).length_le
  rwa [List.length_range, List.length_cons] at hlen

/-! ## Rings -/

/-- Following the links and starting again behind the last node goes round the ring. -/
theorem Chain.ring_next (h : Chain next p l) (ha : a ∈ l) :
    (if next a = 0 then p else next a) = l.next a ha := by
  rcases List.getElem_of_mem ha with ⟨i, hi, rfl⟩
  rw [List.next_getElem l h.nodup i hi]
  have hnext : next l[i] = (l.drop (i + 1)).headD 0 := by
    have hsplit : l = l.take i ++ l[i] :: l.drop (i + 1) := by simp
    have hchain := h
    rw [hsplit] at hchain
    exact hchain.next_eq
  by_cases hlast : i + 1 < l.length
  · have hhead : next l[i] = l[i + 1] := by
      rw [hnext, List.drop_eq_getElem_cons hlast, List.headD_cons]
    have hne : next l[i] ≠ 0 := hhead ▸ h.ne_zero (List.getElem_mem hlast)
    simp only [if_neg hne, Nat.mod_eq_of_lt hlast]
    exact hhead
  · have hlen : i + 1 = l.length := by omega
    have hnull : next l[i] = 0 := by
      rw [hnext, List.drop_eq_nil_of_le (by omega), List.headD_nil]
    simp only [if_pos hnull, hlen, Nat.mod_self]
    rw [h.head_eq]
    cases l with
    | nil => simp at hi
    | cons b l => rfl

/-- Where a walk round a ring is after some steps. -/
theorem iterate_next {f : Nat → Nat} (hl : l.Nodup) (hf : ∀ a (ha : a ∈ l), f a = l.next a ha)
    {i : Nat} (hi : i < l.length) (k : Nat) : l[(k + i) % l.length]? = some (f^[k] l[i]) := by
  induction k with
  | zero => simp [Nat.mod_eq_of_lt hi]
  | succ k ih =>
      have hk : (k + i) % l.length < l.length := Nat.mod_lt _ (by omega)
      have hk' : (k + 1 + i) % l.length < l.length := Nat.mod_lt _ (by omega)
      rw [List.getElem?_eq_getElem hk, Option.some.injEq] at ih
      rw [List.getElem?_eq_getElem hk', Function.iterate_succ_apply', ← ih,
        hf _ (List.getElem_mem hk), List.next_getElem l hl _ hk]
      simp [Nat.add_right_comm]

/-- Going round a ring from one of its nodes meets every node once. -/
theorem iterate_eq_rotate {f : Nat → Nat} (hl : l.Nodup) (hf : ∀ a (ha : a ∈ l), f a = l.next a ha)
    {i : Nat} (hi : i < l.length) : List.iterate f l[i] l.length = l.rotate i := by
  apply List.ext_getElem (by simp)
  intro k hk hk'
  have hat := iterate_next hl hf hi k
  rw [List.getElem?_eq_getElem (Nat.mod_lt _ (by omega)), Option.some.injEq] at hat
  rw [List.getElem_iterate, List.getElem_rotate, ← hat]

/-- A full round ends where it began. -/
theorem iterate_length {f : Nat → Nat} (hl : l.Nodup) (hf : ∀ a (ha : a ∈ l), f a = l.next a ha)
    (ha : a ∈ l) : f^[l.length] a = a := by
  rcases List.getElem_of_mem ha with ⟨i, hi, rfl⟩
  have hat := iterate_next hl hf hi l.length
  rw [Nat.add_mod_left, Nat.mod_eq_of_lt hi, List.getElem?_eq_getElem hi, Option.some.injEq] at hat
  exact hat.symm

/-! ## Stores -/

/-- Stores away from its nodes do not change a chain. -/
theorem Chain.congr (h : Chain next p l) (hsame : ∀ a ∈ l, next' a = next a) :
    Chain next' p l := by
  induction l generalizing p with
  | nil => exact h
  | cons a l ih =>
      rcases h with ⟨rfl, hne, hrest⟩
      refine ⟨rfl, hne, ?_⟩
      rw [hsame p (by simp)]
      exact ih hrest fun b hb => hsame b (by simp [hb])

/-- Linking a node behind the last one extends the chain. -/
theorem Chain.snoc (h : Chain next p (l ++ [a])) (hb : b ≠ 0)
    (hsame : ∀ c ∈ l, next' c = next c) (hlast : next' a = b) (hend : next' b = 0) :
    Chain next' p (l ++ [a, b]) := by
  induction l generalizing p with
  | nil =>
      rcases h with ⟨rfl, hne, -⟩
      exact ⟨rfl, hne, hlast, hb, hend⟩
  | cons c l ih =>
      rcases h with ⟨rfl, hne, hrest⟩
      refine ⟨rfl, hne, ?_⟩
      rw [hsame p (by simp)]
      exact ih hrest fun d hd => hsame d (by simp [hd])

/-- Cutting the chain behind a node. -/
theorem Chain.cut (h : Chain next p (l ++ a :: l₂)) (hsame : ∀ c ∈ l, next' c = next c)
    (hend : next' a = 0) : Chain next' p (l ++ [a]) := by
  induction l generalizing p with
  | nil =>
      rcases h with ⟨rfl, hne, -⟩
      exact ⟨rfl, hne, hend⟩
  | cons c l ih =>
      rcases h with ⟨rfl, hne, hrest⟩
      refine ⟨rfl, hne, ?_⟩
      rw [hsame p (by simp)]
      exact ih hrest fun d hd => hsame d (by simp [hd])

/-- Leaving out the node behind another one. -/
theorem Chain.skip (h : Chain next p (l ++ a :: b :: l₂)) (hsame : ∀ c ∈ l, next' c = next c)
    (hskip : next' a = next b) (hrest : ∀ c ∈ l₂, next' c = next c) :
    Chain next' p (l ++ a :: l₂) := by
  induction l generalizing p with
  | nil =>
      rcases h with ⟨rfl, hne, -, -, htail⟩
      refine ⟨rfl, hne, ?_⟩
      rw [hskip]
      exact htail.congr hrest
  | cons c l ih =>
      rcases h with ⟨rfl, hne, htail⟩
      refine ⟨rfl, hne, ?_⟩
      rw [hsame p (by simp)]
      exact ih htail fun d hd => hsame d (by simp [hd])

/-- Taking a node out: the node before it, if there is one, gets its link. -/
theorem Chain.unlink (h : Chain next p (l₁ ++ a :: l₂))
    (hlink : ∀ c ∈ l₁ ++ l₂, next' c = if l₁.getLast? = some c then next a else next c) :
    Chain next' ((l₁ ++ l₂).headD 0) (l₁ ++ l₂) := by
  have hnodup := h.nodup
  have hrest : ∀ c ∈ l₂, l₁.getLast? ≠ some c := by
    intro c hc heq
    exact (List.nodup_append.mp hnodup).2.2 c (List.mem_of_getLast? heq) c (by simp [hc]) rfl
  have hsame : ∀ c ∈ l₂, next' c = next c := fun c hc => by
    rw [hlink c (by simp [hc]), if_neg (hrest c hc)]
  rcases List.eq_nil_or_concat l₁ with rfl | ⟨l, b, hl⟩
  · have hdrop : Chain next (next a) l₂ := h.2.2
    rw [hdrop.head_eq] at hdrop
    exact hdrop.congr hsame
  · rw [List.concat_eq_append] at hl
    subst hl
    have hhead := h.head_eq
    rw [List.append_assoc, List.singleton_append] at h hhead
    have hskip : Chain next' p (l ++ b :: l₂) := by
      refine h.skip ?_ ?_ hsame
      · intro c hc
        have hne : b ≠ c := by
          rintro rfl
          exact (List.nodup_append.mp h.nodup).2.2 b hc b (by simp) rfl
        rw [hlink c (by simp [hc]), if_neg (by simpa using hne)]
      · rw [hlink b (by simp), if_pos (by simp)]
    rw [List.append_assoc, List.singleton_append]
    have hstart : p = (l ++ b :: l₂).headD 0 := hskip.head_eq
    exact hstart ▸ hskip

end Chains
