import Smpcil.PartList.Model
import Smpcil.Foundations.Chain

/-!
# What a list visits

The invariant of a list after any sequence of pushes, and the traversal of such a list.  A
push spaces the elements of a part by their size, the traversal by the size of an `int`.

Main results:

- Definition {lit}`Parts`: the invariant.
- Theorem {lit}`Parts.push`: a push hands out the next slot, or nothing.
- Theorem {lit}`traversal_visits_iff`: when the traversal visits the slots handed out.
-/

namespace Smpcil
namespace PartList

open Allocator Chains PoolCalls
open Loops (Pass loop loop_spec)

variable {π : Type}

/-! ## Stores -/

namespace SmpList

variable (list : SmpList π) (p v q : Nat)

@[simp] theorem setElems_elems :
    ((list.setElems p v).mem q).elems = if q = p then v else (list.mem q).elems := by
  by_cases h : q = p <;> simp [setElems, h]

@[simp] theorem setElems_next : ((list.setElems p v).mem q).next = (list.mem q).next := by
  by_cases h : q = p <;> simp [setElems, h]

@[simp] theorem setElems_elemMnt :
    ((list.setElems p v).mem q).elemMnt = (list.mem q).elemMnt := by
  by_cases h : q = p <;> simp [setElems, h]

@[simp] theorem setNext_elems : ((list.setNext p v).mem q).elems = (list.mem q).elems := by
  by_cases h : q = p <;> simp [setNext, h]

@[simp] theorem setNext_next :
    ((list.setNext p v).mem q).next = if q = p then v else (list.mem q).next := by
  by_cases h : q = p <;> simp [setNext, h]

@[simp] theorem setNext_elemMnt :
    ((list.setNext p v).mem q).elemMnt = (list.mem q).elemMnt := by
  by_cases h : q = p <;> simp [setNext, h]

@[simp] theorem setElemMnt_elems :
    ((list.setElemMnt p v).mem q).elems = (list.mem q).elems := by
  by_cases h : q = p <;> simp [setElemMnt, h]

@[simp] theorem setElemMnt_next : ((list.setElemMnt p v).mem q).next = (list.mem q).next := by
  by_cases h : q = p <;> simp [setElemMnt, h]

@[simp] theorem setElemMnt_elemMnt :
    ((list.setElemMnt p v).mem q).elemMnt = if q = p then v else (list.mem q).elemMnt := by
  by_cases h : q = p <;> simp [setElemMnt, h]

end SmpList

/-! ## Slots -/

/-- The addresses of the elements of a part, when neighbours are {lit}`step` bytes apart. -/
def partSlots (step : Nat) (part : Lpart) : List VoidPtr :=
  (List.range part.elemMnt).map fun i => part.elems + step * i

/-- The addresses of the elements of the parts {lit}`ps`. -/
def slots (step : Nat) (list : SmpList π) (ps : List Nat) : List VoidPtr :=
  ps.flatMap fun p => partSlots step (list.mem p)

variable {calls : PoolCalls π} {Good : π → Prop} {blocks : π → List Block}
variable {e u fuel : Nat} {list list' : SmpList π} {ps : List Nat} {l : List VoidPtr}

theorem slots_congr {step : Nat} (h : ∀ p ∈ ps, (list'.mem p).elems = (list.mem p).elems ∧
    (list'.mem p).elemMnt = (list.mem p).elemMnt) : slots step list' ps = slots step list ps := by
  induction ps with
  | nil => rfl
  | cons p ps ih =>
      have hp := h p (by simp)
      have hhead : partSlots step (list'.mem p) = partSlots step (list.mem p) := by
        rw [partSlots, hp.1, hp.2, partSlots]
      have htail := ih fun q hq => h q (by simp [hq])
      simp only [slots, List.flatMap_cons] at htail ⊢
      rw [hhead, htail]

theorem slots_append (step : Nat) (list : SmpList π) (ps qs : List Nat) :
    slots step list (ps ++ qs) = slots step list ps ++ slots step list qs :=
  List.flatMap_append

/-- One more element in a part. -/
theorem partSlots_succ (step n : Nat) (elems : VoidPtr) (next : Nat) :
    partSlots step ⟨elems, next, n + 1⟩ =
      partSlots step ⟨elems, next, n⟩ ++ [elems + step * n] := by
  simp [partSlots, List.range_succ]

/-- With at most one element in a part the spacing does not matter. -/
theorem partSlots_eq {step step' : Nat} {part : Lpart} (h : part.elemMnt ≤ 1) :
    partSlots step part = partSlots step' part := by
  have hcases : part.elemMnt = 0 ∨ part.elemMnt = 1 := by omega
  rcases hcases with h₀ | h₁
  · simp [partSlots, h₀]
  · simp [partSlots, h₁]

/-! ## The invariant -/

/-- The list has the parts {lit}`ps ++ [last]`, all but the last one full, and has handed out
the addresses of their elements; {lit}`e` is the size of an element and {lit}`u` the number of
elements of a part. -/
structure Parts (Good : π → Prop) (blocks : π → List Block) (e u : Nat) (list : SmpList π)
    (ps : List Nat) (last : Nat) (l : List VoidPtr) : Prop where
  elemPos : 0 < e
  partPos : 0 < u
  partLt : u < 2 ^ 32
  sizeLt : e * u < 2 ^ 64
  elemSize : list.elemSize = e
  partElemMaxmnt : list.partElemMaxmnt = u
  good : Good list.mpool
  chain : Chain (fun p => (list.mem p).next) list.addr (ps ++ [last])
  tail : list.tail = last
  full : ∀ p ∈ ps, (list.mem p).elemMnt = u
  lastLe : (list.mem last).elemMnt ≤ u
  taken : l = slots e list (ps ++ [last])
  elems : ∀ p ∈ ps ++ [last], (list.mem p).elems ≠ NULL ∧
    (list.mem p).elems + e * u ≤ PoolCalls.bound
  block : ∀ p ∈ ps ++ [last], ∃ size, 0 < size ∧ ⟨p, size⟩ ∈ blocks list.mpool

variable {last : Nat}

namespace Parts

/-- A change of memory away from the parts changes nothing. -/
theorem refused (h : Parts Good blocks e u list ps last l) {pool : π} {mem : Nat → Lpart}
    (hgood : Good pool) (hblocks : ∀ b ∈ blocks list.mpool, b ∈ blocks pool)
    (hmem : ∀ p ∈ ps ++ [last], mem p = list.mem p) :
    Parts Good blocks e u { list with mpool := pool, mem := mem } ps last l := by
  constructor
  case elemPos => exact h.elemPos
  case partPos => exact h.partPos
  case partLt => exact h.partLt
  case sizeLt => exact h.sizeLt
  case elemSize => exact h.elemSize
  case partElemMaxmnt => exact h.partElemMaxmnt
  case good => exact hgood
  case chain => exact h.chain.congr fun p hp => by simp only [hmem p hp]
  case tail => exact h.tail
  case full =>
    intro p hp
    simp only [hmem p (List.mem_append_left _ hp)]
    exact h.full p hp
  case lastLe =>
    simp only [hmem last (by simp)]
    exact h.lastLe
  case taken =>
    rw [h.taken]
    exact (slots_congr fun p hp => by simp only [hmem p hp, and_self]).symm
  case elems =>
    intro p hp
    simp only [hmem p hp]
    exact h.elems p hp
  case block =>
    intro p hp
    rcases h.block p hp with ⟨size, hpos, hmem⟩
    exact ⟨size, hpos, hblocks _ hmem⟩

/-- A new block is none of the parts. -/
theorem ne_fresh (h : Parts Good blocks e u list ps last l) {m n : Nat} (hn : 0 < n)
    (hfresh : ∀ b ∈ blocks list.mpool, Apart ⟨m, n⟩ b) : ∀ p ∈ ps ++ [last], p ≠ m := by
  rintro p hp rfl
  rcases h.block p hp with ⟨size, hpos, hmem⟩
  have happ := hfresh _ hmem
  unfold Apart at happ
  simp only at happ
  omega

/-! ## Growing -/

/-- A full list gets a new part, or stays as it is. -/
theorem grow (hserves : calls.Serves Good blocks) (h : Parts Good blocks e u list ps last l)
    (hfull : (list.mem last).elemMnt = u) :
    ∃ m list', listGrow calls list = .ok (m, list') ∧
      ((m = 0 ∧ Parts Good blocks e u list' ps last l) ∨
      (m ≠ 0 ∧ Parts Good blocks e u list' (ps ++ [last]) m l ∧ (list'.mem m).elemMnt = 0)) := by
  rcases hserves.mpalloc sizeofLpart h.good with
    ⟨m, pool, hcall, hgood, ⟨rfl, hsame⟩ | ⟨hm, -, -, hfresh, hnew⟩⟩
  · have hrun : listGrow calls list = .ok (0, { list with mpool := pool }) := by
      simp [listGrow, hcall]
    exact ⟨_, _, hrun, Or.inl ⟨rfl, h.refused hgood (fun b hb => hsame ▸ hb) fun _ _ => rfl⟩⟩
  · have hne := h.ne_fresh (by decide) hfresh
    have hsize : list.elemSize * list.partElemMaxmnt % 2 ^ 64 = e * u := by
      rw [h.elemSize, h.partElemMaxmnt]
      exact Nat.mod_eq_of_lt h.sizeLt
    have hold : ∀ b ∈ blocks list.mpool, b ∈ blocks pool := fun b hb => by
      rw [hnew]
      exact List.mem_cons_of_mem _ hb
    rcases hserves.mpalloc (e * u) hgood with
      ⟨elems, pool₂, hcall₂, hgood₂, ⟨rfl, hsame₂⟩ | ⟨helems, -, hend, -, hnew₂⟩⟩
    · -- the new part is lost, and no part of the list was touched
      have hrun : listGrow calls list =
          .ok (0, SmpList.setElems { list with mpool := pool₂ } m NULL) := by
        simp only [listGrow, hcall, Exec.ok_bind, if_neg hm, hsize, hcall₂, Exec.pure_eq, if_true]
      refine ⟨_, _, hrun, Or.inl ⟨rfl, h.refused hgood₂ (fun b hb => hsame₂ ▸ hold b hb) ?_⟩⟩
      intro p hp
      exact Function.update_of_ne (hne p hp) _ _
    · have hrun : listGrow calls list = .ok (m,
          { ((((SmpList.setElems { list with mpool := pool₂ } m elems).setElemMnt m 0).setNext
            m 0).setNext last m) with tail := m }) := by
        simp only [listGrow, hcall, Exec.ok_bind, if_neg hm, hsize, hcall₂, Exec.pure_eq,
          if_neg helems, SmpList.setNext_tail, SmpList.setElemMnt_tail, SmpList.setElems_tail,
          h.tail]
      have hlm : last ≠ m := hne last (by simp)
      have hpm : ∀ p ∈ ps, p ≠ m := fun p hp => hne p (List.mem_append_left _ hp)
      have hpl : ∀ p ∈ ps, p ≠ last := fun p hp =>
        (List.nodup_append.mp h.chain.nodup).2.2 p hp last (by simp)
      refine ⟨_, _, hrun, Or.inr ⟨hm, ?_, by simp⟩⟩
      constructor
      case elemPos => exact h.elemPos
      case partPos => exact h.partPos
      case partLt => exact h.partLt
      case sizeLt => exact h.sizeLt
      case elemSize => exact h.elemSize
      case partElemMaxmnt => exact h.partElemMaxmnt
      case good => exact hgood₂
      case chain =>
        rw [List.append_assoc]
        refine h.chain.snoc hm ?_ ?_ ?_
        · intro p hp
          simp [hpm p hp, hpl p hp]
        · simp
        · simp [hlm.symm]
      case tail => rfl
      case full =>
        intro p hp
        rcases List.mem_append.mp hp with hp | hp
        · simpa [hpm p hp] using h.full p hp
        · rw [List.mem_singleton.mp hp]
          simpa [hlm] using hfull
      case lastLe => simp
      case taken =>
        have hempty : slots e { ((((SmpList.setElems { list with mpool := pool₂ } m
            elems).setElemMnt m 0).setNext m 0).setNext last m) with tail := m } [m] = [] := by
          simp [slots, partSlots]
        rw [slots_append, hempty, List.append_nil, h.taken]
        exact (slots_congr fun p hp => by simp [hne p hp]).symm
      case elems =>
        intro p hp
        rcases List.mem_append.mp hp with hp | hp
        · simpa [hne p hp] using h.elems p hp
        · rw [List.mem_singleton.mp hp]
          simpa using And.intro helems hend
      case block =>
        have hall : ∀ b ∈ blocks pool, b ∈ blocks pool₂ := fun b hb => by
          rw [hnew₂]
          exact List.mem_cons_of_mem _ hb
        intro p hp
        rcases List.mem_append.mp hp with hp | hp
        · rcases h.block p hp with ⟨size, hpos, hmem⟩
          exact ⟨size, hpos, hall _ (hold _ hmem)⟩
        · refine ⟨sizeofLpart, by decide, hall _ ?_⟩
          rw [List.mem_singleton.mp hp, hnew]
          exact List.mem_cons_self

/-- The next element of a last part that has room. -/
theorem take (h : Parts Good blocks e u list ps last l) (hroom : (list.mem last).elemMnt < u) :
    (listTake list last).1 ≠ NULL ∧
      Parts Good blocks e u (listTake list last).2 ps last (l ++ [(listTake list last).1]) := by
  have hcount : ((list.mem last).elemMnt + 1) % 2 ^ 32 = (list.mem last).elemMnt + 1 :=
    Nat.mod_eq_of_lt (Nat.lt_of_le_of_lt hroom h.partLt)
  rcases h.elems last (by simp) with ⟨hnonnull, hend⟩
  have hle : e * (list.mem last).elemMnt ≤ e * u := Nat.mul_le_mul_left e (Nat.le_of_lt hroom)
  have hoff : ((list.mem last).elems + list.elemSize * (list.mem last).elemMnt) % 2 ^ 64 =
      (list.mem last).elems + e * (list.mem last).elemMnt := by
    rw [h.elemSize]
    exact Nat.mod_eq_of_lt (Nat.lt_of_le_of_lt
      ((Nat.add_le_add_left hle _).trans hend) (by decide))
  have hpl : ∀ p ∈ ps, p ≠ last := fun p hp =>
    (List.nodup_append.mp h.chain.nodup).2.2 p hp last (by simp)
  unfold listTake
  simp only [hcount, hoff]
  refine ⟨fun hnull => hnonnull (Nat.eq_zero_of_add_eq_zero hnull).1, ?_⟩
  constructor
  case elemPos => exact h.elemPos
  case partPos => exact h.partPos
  case partLt => exact h.partLt
  case sizeLt => exact h.sizeLt
  case elemSize => exact h.elemSize
  case partElemMaxmnt => exact h.partElemMaxmnt
  case good => exact h.good
  case chain => exact h.chain.congr fun p _ => list.setElemMnt_next last _ p
  case tail => exact h.tail
  case full =>
    intro p hp
    simpa [hpl p hp] using h.full p hp
  case lastLe =>
    simp only [SmpList.setElemMnt_elemMnt, if_true]
    exact hroom
  case taken =>
    have hold : slots e (list.setElemMnt last ((list.mem last).elemMnt + 1)) ps =
        slots e list ps := slots_congr fun p hp => by simp [hpl p hp]
    have hnew : slots e (list.setElemMnt last ((list.mem last).elemMnt + 1)) [last] =
        slots e list [last] ++ [(list.mem last).elems + e * (list.mem last).elemMnt] := by
      simp only [slots, List.flatMap_singleton, SmpList.setElemMnt, Function.update_self]
      exact partSlots_succ e _ _ _
    rw [slots_append, hold, hnew, ← List.append_assoc, ← slots_append, h.taken]
  case elems =>
    intro p hp
    simpa using h.elems p hp
  case block => exact h.block

/-- A push hands out the next slot, or null. -/
theorem push (hserves : calls.Serves Good blocks) (h : Parts Good blocks e u list ps last l) :
    ∃ p list' ps' last', smpListPush calls list = .ok (p, list') ∧
      ((p = NULL ∧ Parts Good blocks e u list' ps' last' l) ∨
      (p ≠ NULL ∧ Parts Good blocks e u list' ps' last' (l ++ [p]))) := by
  by_cases hfull : (list.mem last).elemMnt = u
  · have hcheck : (list.mem list.tail).elemMnt = list.partElemMaxmnt := by
      rw [h.tail, h.partElemMaxmnt, hfull]
    rcases h.grow hserves hfull with ⟨m, list₁, hgrow, ⟨rfl, h₁⟩ | ⟨hm, h₁, hempty⟩⟩
    · have hrun : smpListPush calls list = .ok (NULL, list₁) := by
        simp [smpListPush, hcheck, hgrow]
      exact ⟨_, _, ps, last, hrun, Or.inl ⟨rfl, h₁⟩⟩
    · have hrun : smpListPush calls list = .ok (listTake list₁ m) := by
        simp [smpListPush, hcheck, hgrow, hm]
      have htake := h₁.take (hempty ▸ h.partPos)
      exact ⟨_, _, _, _, hrun, Or.inr htake⟩
  · have hcheck : (list.mem last).elemMnt ≠ list.partElemMaxmnt := by
      rwa [h.partElemMaxmnt]
    have hrun : smpListPush calls list = .ok (listTake list last) := by
      simp [smpListPush, h.tail, hcheck]
    have htake := h.take (Nat.lt_of_le_of_ne h.lastLe hfull)
    exact ⟨_, _, _, _, hrun, Or.inr htake⟩

/-! ## Traversal -/

/-- The traversal goes through the parts with the size of an `int` as the step. -/
theorem traversal (h : Parts Good blocks e u list ps last l) (hfuel : ps.length + 1 < fuel) :
    smpListTraversal fuel list = .ok (slots sizeofInt list (ps ++ [last])) := by
  have hloop : ∃ visited, loop .diverged (visitPartsPass list) fuel (list.addr, []) = .ok visited ∧
      visited = slots sizeofInt list (ps ++ [last]) := by
    apply loop_spec (fun k (s : Nat × List VoidPtr) => ∃ rest,
      Chain (fun p => (list.mem p).next) s.1 rest ∧ rest.length = k ∧
        s.2 ++ slots sizeofInt list rest = slots sizeofInt list (ps ++ [last]))
    · rintro k ⟨part, visited⟩ ⟨rest, hchain, hk, hvisited⟩
      cases rest with
      | nil =>
          have hend : part = 0 := hchain
          exact Or.inl ⟨visited, by simp [visitPartsPass, hend], by simpa [slots] using hvisited⟩
      | cons p rest =>
          rcases hchain with ⟨rfl, hne, hrest⟩
          refine Or.inr ⟨_, rest.length, by simp [visitPartsPass, hne]; rfl,
            ⟨rest, hrest, rfl, ?_⟩, by simp [← hk]⟩
          rw [← hvisited, List.append_assoc]
          rfl
    · exact ⟨ps ++ [last], h.chain, rfl, rfl⟩
    · simpa using hfuel
  rcases hloop with ⟨visited, hrun, rfl⟩
  exact hrun

/-- There is at most one part more than there are slots. -/
theorem parts_le (h : Parts Good blocks e u list ps last l) : ps.length ≤ l.length := by
  have hpart : ∀ qs : List Nat, (∀ p ∈ qs, (list.mem p).elemMnt = u) →
      qs.length ≤ (slots e list qs).length := by
    intro qs
    induction qs with
    | nil => intro _; exact Nat.le_refl 0
    | cons p qs ih =>
        intro hfull
        have htail := ih fun q hq => hfull q (by simp [hq])
        have hhead : (partSlots e (list.mem p)).length = u := by
          simp [partSlots, hfull p (by simp)]
        have hpos := h.partPos
        simp only [slots, List.flatMap_cons, List.length_append, List.length_cons] at htail ⊢
        omega
  rw [h.taken, slots_append, List.length_append]
  exact Nat.le_trans (hpart ps h.full) (Nat.le_add_right _ _)

/-- The step of the traversal gives the slots handed out exactly when it is the size of an
element, or no part has a second element. -/
theorem slots_eq_iff (h : Parts Good blocks e u list ps last l) :
    slots sizeofInt list (ps ++ [last]) = l ↔ e = sizeofInt ∨ u = 1 ∨ l.length ≤ 1 := by
  rw [h.taken]
  constructor
  · intro heq
    by_contra hnot
    simp only [not_or, not_le] at hnot
    rcases hnot with ⟨hint, hone, hmore⟩
    have hu : 2 ≤ u := by
      have hpos := h.partPos
      omega
    -- the first part has a second element
    obtain ⟨first, rest, hfirst⟩ : ∃ first rest, ps ++ [last] = first :: rest := by
      cases ps with
      | nil => exact ⟨last, [], rfl⟩
      | cons p ps => exact ⟨p, ps ++ [last], rfl⟩
    have hmnt : 2 ≤ (list.mem first).elemMnt := by
      cases ps with
      | nil =>
          simp only [List.nil_append, List.cons.injEq] at hfirst
          have hlen : 1 < (list.mem last).elemMnt := by simpa [slots, partSlots] using hmore
          exact hfirst.1 ▸ hlen
      | cons p ps =>
          rw [List.cons_append, List.cons.injEq] at hfirst
          rw [← hfirst.1, h.full p (by simp)]
          exact hu
    have hsecond : ∀ step, (slots step list (ps ++ [last]))[1]? =
        some ((list.mem first).elems + step * 1) := by
      intro step
      rw [hfirst, slots, List.flatMap_cons]
      have hlen : 1 < (partSlots step (list.mem first)).length := by
        rw [partSlots, List.length_map, List.length_range]
        exact hmnt
      rw [List.getElem?_append_left hlen]
      simp only [partSlots, List.getElem?_map]
      rw [List.getElem?_range hmnt]
      rfl
    have hsame := (hsecond sizeofInt).symm.trans ((congrArg (·[1]?) heq).trans (hsecond e))
    simp only [Option.some.injEq, Nat.mul_one, Nat.add_left_cancel_iff] at hsame
    exact hint hsame.symm
  · intro hcase
    rcases hcase with rfl | hsmall
    · rfl
    · have hmnt : ∀ p ∈ ps ++ [last], (list.mem p).elemMnt ≤ 1 := by
        intro p hp
        rcases hsmall with hone | hlen
        · rcases List.mem_append.mp hp with hp | hp
          · rw [h.full p hp, hone]
          · rw [List.mem_singleton.mp hp]
            exact hone ▸ h.lastLe
        · rcases List.append_of_mem hp with ⟨s, t, hsplit⟩
          rw [hsplit] at hlen
          simp only [slots, List.flatMap_append, List.flatMap_cons, List.length_append, partSlots,
            List.length_map, List.length_range] at hlen
          omega
      have hcongr : ∀ qs : List Nat, (∀ p ∈ qs, (list.mem p).elemMnt ≤ 1) →
          slots sizeofInt list qs = slots e list qs := by
        intro qs
        induction qs with
        | nil => intro _; rfl
        | cons p qs ih =>
            intro hle
            have hhead : partSlots sizeofInt (list.mem p) = partSlots e (list.mem p) :=
              partSlots_eq (hle p (by simp))
            have htail := ih fun q hq => hle q (by simp [hq])
            simp only [slots, List.flatMap_cons] at htail ⊢
            rw [hhead, htail]
      exact hcongr _ hmnt

end Parts

/-! ## Runs -/

/-- The lists of all runs of pushes on a new list, with the addresses that the successful
pushes returned, in order. -/
inductive Pushed (calls : PoolCalls π) (Good : π → Prop) (e u : Nat) :
    SmpList π → List VoidPtr → Prop where
  | create {w w' : π} {raw : Nat → Lpart} {list : SmpList π} : Good w →
      smpListCreate calls w raw e u = .ok (some list, w') → Pushed calls Good e u list []
  | push {list list' : SmpList π} {l : List VoidPtr} {p : VoidPtr} : Pushed calls Good e u list l →
      smpListPush calls list = .ok (p, list') →
      Pushed calls Good e u list' (if p = NULL then l else l ++ [p])

/-- A new list has one empty part, of the size that `size_t` arithmetic gives. -/
theorem smpListCreate_fields (hserves : calls.Serves Good blocks) {w w' : π} {raw : Nat → Lpart}
    (hw : Good w) (hcreate : smpListCreate calls w raw e u = .ok (some list, w')) :
    ∃ addr elems, 0 < e ∧ 0 < u ∧ addr ≠ NULL ∧ elems ≠ NULL ∧
      elems + e * u % 2 ^ 64 ≤ PoolCalls.bound ∧ Good w' ∧
      ⟨addr, sizeofList⟩ ∈ blocks w' ∧ ⟨elems, e * u % 2 ^ 64⟩ ∈ blocks w' ∧
      list =
        { addr := addr
          elemSize := e
          tail := addr
          mpool := w'
          partElemMaxmnt := u
          mem := Function.update raw addr ⟨elems, 0, 0⟩ } := by
  rcases Exec.bind_eq_ok.mp hcreate with ⟨⟨created, w₁⟩, hcall, hinit⟩
  cases created with
  | false => simp at hinit
  | true =>
      have hgood₁ := hserves.create hw hcall
      simp only [not_true_eq_false, if_false] at hinit
      unfold smpListInit at hinit
      by_cases hzero : e = 0 ∨ u = 0
      · simp [hzero] at hinit
      rw [if_neg hzero] at hinit
      rcases hserves.mpalloc sizeofList hgood₁ with ⟨addr, w₂, hcall₂, hgood₂, hgrant₂⟩
      rw [hcall₂, Exec.ok_bind] at hinit
      by_cases haddr : addr = NULL
      · simp [haddr] at hinit
      · rcases hgrant₂ with ⟨hnull, -⟩ | ⟨-, -, -, -, hnew₂⟩
        · exact absurd hnull haddr
        · rcases hserves.mpalloc (e * u % 2 ^ 64) hgood₂ with
            ⟨elems, w₃, hcall₃, hgood₃, hgrant₃⟩
          simp only [if_neg haddr, hcall₃, Exec.ok_bind] at hinit
          by_cases helems : elems = NULL
          · simp [helems] at hinit
          · rcases hgrant₃ with ⟨hnull, -⟩ | ⟨-, -, hend, -, hnew₃⟩
            · exact absurd hnull helems
            · simp only [if_neg helems, Exec.pure_eq, Except.ok.injEq, Prod.mk.injEq,
                Option.some.injEq] at hinit
              rcases hinit with ⟨rfl, rfl⟩
              exact ⟨addr, elems, by omega, by omega, haddr, helems, hend, hgood₃,
                by simp [hnew₃, hnew₂], by simp [hnew₃], rfl⟩

/-- A new list has one empty part. -/
theorem smpListCreate_parts (hserves : calls.Serves Good blocks) {w w' : π} {raw : Nat → Lpart}
    (hpos : 0 < e) (hposu : 0 < u) (hlt : e * u < 2 ^ 64) (hltu : u < 2 ^ 32) (hw : Good w)
    (hcreate : smpListCreate calls w raw e u = .ok (some list, w')) :
    ∃ last, Parts Good blocks e u list [] last [] := by
  rcases smpListCreate_fields hserves hw hcreate with
    ⟨addr, elems, -, -, haddr, helems, hend, hgood, hblock, -, rfl⟩
  rw [Nat.mod_eq_of_lt hlt] at hend
  refine ⟨addr, ?_⟩
  constructor
  case elemPos => exact hpos
  case partPos => exact hposu
  case partLt => exact hltu
  case sizeLt => exact hlt
  case elemSize => rfl
  case partElemMaxmnt => rfl
  case good => exact hgood
  case chain => exact ⟨rfl, haddr, by simp⟩
  case tail => rfl
  case full => simp
  case lastLe => simp
  case taken => simp [slots, partSlots]
  case elems => simpa using And.intro helems hend
  case block =>
    intro p hp
    rw [List.nil_append, List.mem_singleton] at hp
    exact ⟨sizeofList, by decide, hp ▸ hblock⟩

/-- The invariant holds after every run. -/
theorem Pushed.parts (hserves : calls.Serves Good blocks) (hpos : 0 < e) (hposu : 0 < u)
    (hlt : e * u < 2 ^ 64) (hltu : u < 2 ^ 32) (h : Pushed calls Good e u list l) :
    ∃ ps last, Parts Good blocks e u list ps last l := by
  induction h with
  | create hw hcreate =>
      rcases smpListCreate_parts hserves hpos hposu hlt hltu hw hcreate with ⟨last, hparts⟩
      exact ⟨[], last, hparts⟩
  | push _ hpush ih =>
      rcases ih with ⟨ps, last, hparts⟩
      rcases hparts.push hserves with ⟨p', list₂, ps', last', hrun, hout⟩
      rw [hpush, Except.ok.injEq, Prod.mk.injEq] at hrun
      rcases hrun with ⟨rfl, rfl⟩
      rcases hout with ⟨hnull, hparts'⟩ | ⟨hne, hparts'⟩
      · rw [if_pos hnull]
        exact ⟨ps', last', hparts'⟩
      · rw [if_neg hne]
        exact ⟨ps', last', hparts'⟩

/-! ## Visited addresses -/

/-- The traversal visits exactly the addresses {lit}`l` that pushes returned, in order, and a
push that returns null does not change what it visits. -/
def Visits (calls : PoolCalls π) (list : SmpList π) (l : List VoidPtr) : Prop :=
  ∀ fuel, l.length + 1 < fuel → smpListTraversal fuel list = .ok l ∧
    ∀ list', smpListPush calls list = .ok (NULL, list') → smpListTraversal fuel list' = .ok l

/-- After every run of pushes the traversal visits the addresses that were returned exactly
when elements have the size of an `int`, or parts hold one element, or at most one element
was pushed. -/
theorem traversal_visits_iff (hserves : calls.Serves Good blocks) (hpos : 0 < e) (hposu : 0 < u)
    (hlt : e * u < 2 ^ 64) (hltu : u < 2 ^ 32) (h : Pushed calls Good e u list l) :
    Visits calls list l ↔ e = sizeofInt ∨ u = 1 ∨ l.length ≤ 1 := by
  rcases h.parts hserves hpos hposu hlt hltu with ⟨ps, last, hparts⟩
  have hfuel : ∀ {list ps last}, Parts Good blocks e u list ps last l → ∀ fuel,
      l.length + 1 < fuel →
        smpListTraversal fuel list = .ok (slots sizeofInt list (ps ++ [last])) :=
    fun hp fuel hlen => hp.traversal (Nat.lt_of_le_of_lt (Nat.succ_le_succ hp.parts_le) hlen)
  constructor
  · intro hvisits
    have hrun := (hvisits (l.length + 2) (Nat.lt_succ_self _)).1
    rw [hfuel hparts _ (Nat.lt_succ_self _), Except.ok.injEq] at hrun
    exact hparts.slots_eq_iff.mp hrun
  · intro hcase fuel hlen
    refine ⟨?_, fun list' hpush => ?_⟩
    · rw [hfuel hparts fuel hlen, hparts.slots_eq_iff.mpr hcase]
    · rcases hparts.push hserves with ⟨p, list₂, ps', last', hrun, hout⟩
      rw [hpush, Except.ok.injEq, Prod.mk.injEq] at hrun
      rcases hrun with ⟨rfl, rfl⟩
      rcases hout with ⟨-, hparts'⟩ | ⟨hne, -⟩
      · rw [hfuel hparts' fuel hlen, hparts'.slots_eq_iff.mpr hcase]
      · exact absurd rfl hne

/-- A list of eight-byte elements after two pushes. -/
theorem pushed_two : ∃ list, Pushed bumpPool BumpTrace 8 5 list [72, 80] ∧
    smpListTraversal 4 list = .ok [72, 76] := by
  have h₀ : Pushed bumpPool BumpTrace 8 5 _ [] :=
    @Pushed.create _ _ _ _ _ [] _ (fun _ => ⟨0, 0, 0⟩) _ Trace.nil rfl
  have h₁ := @Pushed.push _ _ _ _ _ _ _ _ 72 h₀ rfl
  have h₂ := @Pushed.push _ _ _ _ _ _ _ _ 80 h₁ rfl
  exact ⟨_, h₂, rfl⟩

theorem traversal_visits_iff_two : ∃ list, Pushed bumpPool BumpTrace 8 5 list [72, 80] ∧
    (Visits bumpPool list [72, 80] ↔ 8 = sizeofInt ∨ 5 = 1 ∨ [72, 80].length ≤ 1) := by
  rcases pushed_two with ⟨list, hpushed, -⟩
  exact ⟨list, hpushed, traversal_visits_iff bumpPool_serves (by decide) (by decide) (by decide)
    (by decide) hpushed⟩

/-- With eight-byte elements the second visit goes to the middle of the first element. -/
theorem not_visits_two : ∃ list, Pushed bumpPool BumpTrace 8 5 list [72, 80] ∧
    smpListTraversal 4 list = .ok [72, 76] ∧ ¬ Visits bumpPool list [72, 80] := by
  rcases pushed_two with ⟨list, hpushed, hrun⟩
  refine ⟨list, hpushed, hrun, fun hvisits => ?_⟩
  have hsame := (hvisits 4 (by decide)).1
  rw [hrun] at hsame
  exact absurd hsame (by decide)

end PartList
end Smpcil
