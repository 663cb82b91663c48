import Smpcil.Title.Model

/-!
# Copying strings

What the stores and copies of `smp_system.c` do to the object they write to.

Main results:

- Theorem {lit}`storeAll_spec`: bytes stored one behind the other overwrite a part of the
  object, or leave it.
- Theorem {lit}`strcpynLoop_eq`: a copied string is stored with its terminator.
- Theorems {lit}`copyStrings_fits` and {lit}`copyStrings_outside`: copied strings are laid
  out, or leave the object.
- Theorem {lit}`lastEnd_spec`: the loops over the pointers find the end of packed strings.
-/

namespace Smpcil
namespace Title

open Strings (StringAt packed offsets overlay layOut Fits)
open Function (update update_self update_of_ne update_idem)

/-! ## Runs -/

@[simp]
theorem Run.ok_bind {α β : Type} (a : α) (f : α → Run β) :
    ((Except.ok a : Run α) >>= f) = f a := rfl

@[simp]
theorem Run.error_bind {α β : Type} (e : Access) (f : α → Run β) :
    ((Except.error e : Run α) >>= f) = .error e := rfl

@[simp]
theorem Run.pure_eq {α : Type} (a : α) : (pure a : Run α) = .ok a := rfl

@[simp]
theorem Ptr.add_mk {r : Region} {o n : Nat} : Ptr.add ⟨r, o⟩ n = ⟨r, o + n⟩ := rfl

namespace Mem

variable {mem : Mem} {r : Region} {o : Nat} {p src : Ptr} {s bs : List Int8}

/-! ## Bytes -/

theorem read_of_drop {c : Int8} {rest : List Int8}
    (h : (mem p.region).drop p.off = c :: rest) : mem.read p = .ok c := by
  have hget : (mem p.region)[p.off]? = some c := by
    rw [← List.head?_drop, h, List.head?_cons]
  simp [read, hget]

theorem write_inside {c : Int8} (hr : r ≠ .title) (h : o < (mem r).length) :
    mem.write ⟨r, o⟩ c = .ok (update mem r ((mem r).set o c)) := by
  simp [write, hr, h]

theorem write_outside {c : Int8} (h : (mem r).length ≤ o) :
    mem.write ⟨r, o⟩ c = .error .writeOutside := by
  simp [write, h]

/-- Bytes stored one behind the other overwrite a part of the object if they stay inside
it. -/
theorem storeAll_spec (hr : r ≠ .title) :
    mem.storeAll ⟨r, o⟩ bs =
      if bs = [] ∨ o + bs.length ≤ (mem r).length then
        .ok (update mem r (overlay (mem r) o bs))
      else .error .writeOutside := by
  induction bs generalizing mem o with
  | nil => simp [storeAll]
  | cons c bs ih =>
      rw [storeAll]
      by_cases ho : o < (mem r).length
      · rw [write_inside hr ho, Run.ok_bind, Ptr.add, ih, update_self, update_idem,
          List.length_set, Strings.overlay_set ho]
        congr 1
        simp only [List.length_cons, eq_iff_iff, reduceCtorEq, false_or]
        constructor
        · rintro (rfl | h)
          · exact ho
          · omega
        · intro h
          exact Or.inr (by omega)
      · rw [write_outside (by omega), Run.error_bind, if_neg]
        simp only [List.length_cons, reduceCtorEq, false_or]
        omega

theorem storeAll_front (hr : r ≠ .title) :
    mem.storeAll ⟨r, 0⟩ bs =
      if bs.length ≤ (mem r).length then .ok (update mem r (overlay (mem r) 0 bs))
      else .error .writeOutside := by
  have hcond : (bs = [] ∨ 0 + bs.length ≤ (mem r).length) = (bs.length ≤ (mem r).length) := by
    cases bs with
    | nil => simp
    | cons c bs => simp
  rw [storeAll_spec hr]
  simp only [hcond]

/-! ## One string -/

theorem strlen_of_stringAt (h : StringAt 0 (mem p.region) p.off s) (h0 : 0 ∉ s) :
    mem.strlen p = .ok s.length := by
  rcases Strings.stringAt_iff.mp h with ⟨rest, hrest⟩
  rw [strlen, hrest, Strings.idxOf?_append_cons h0]

/-- `memcpy` of the characters of a string stores them. -/
theorem memcpy_eq (h : StringAt 0 (mem src.region) src.off s) :
    mem.memcpy p src s.length = mem.storeAll p s := by
  rcases Strings.stringAt_iff.mp h with ⟨rest, hrest⟩
  have hlen := congrArg List.length hrest
  simp only [List.length_drop, List.length_append, List.length_cons] at hlen
  rw [memcpy, if_pos (by omega), hrest, List.take_left]

/-- A copied string is stored with its terminator. -/
theorem strcpynLoop_eq (hsrc : src.region ≠ r) (h : StringAt 0 (mem src.region) src.off s)
    (h0 : 0 ∉ s) :
    mem.strcpynLoop ⟨r, o⟩ src s.length =
      (mem.storeAll ⟨r, o⟩ (s ++ [0]) >>= fun mem => .ok (mem, ⟨r, o + s.length⟩)) := by
  induction s generalizing mem o src with
  | nil =>
      rw [List.length_nil, strcpynLoop, List.nil_append, storeAll]
      cases mem.write ⟨r, o⟩ 0 with
      | error e => rfl
      | ok mem => rfl
  | cons c s ih =>
      rcases Strings.stringAt_iff.mp h with ⟨rest, hrest⟩
      simp only [List.mem_cons, not_or] at h0
      rw [List.length_cons, strcpynLoop, read_of_drop hrest, Run.ok_bind, List.cons_append,
        storeAll]
      by_cases ho : r ≠ .title ∧ o < (mem r).length
      · rw [write_inside ho.1 ho.2, Run.ok_bind, Run.ok_bind, if_neg (Ne.symm h0.1)]
        have hat : StringAt 0 (update mem r ((mem r).set o c) (src.add 1).region)
            (src.add 1).off s := by
          rw [Ptr.add, update_of_ne hsrc, Strings.stringAt_iff]
          exact ⟨rest, by rw [← List.tail_drop, hrest]; rfl⟩
        have hrest := @ih (update mem r ((mem r).set o c)) (o + 1) (src.add 1) hsrc hat h0.2
        rw [Ptr.add_mk, hrest, Nat.add_assoc, Nat.add_comm 1]
      · have hfault : mem.write ⟨r, o⟩ c = .error .writeOutside := by
          rw [write, if_neg ho]
        rw [hfault]
        rfl

/-- `smp_strcpyn` of a string that is not empty. -/
theorem smpStrcpyn_spec (hr : r ≠ .title) (hsrc : src.region ≠ r)
    (h : StringAt 0 (mem src.region) src.off s) (h0 : 0 ∉ s) (hs : s ≠ []) :
    mem.smpStrcpyn ⟨r, o⟩ src s.length =
      if o + s.length + 1 ≤ (mem r).length then
        .ok (update mem r (overlay (mem r) o (s ++ [0])), ⟨r, o + s.length⟩)
      else .error .writeOutside := by
  have hcond : (s ++ [0] = [] ∨ o + (s ++ [0]).length ≤ (mem r).length) =
      (o + s.length + 1 ≤ (mem r).length) := by
    simp [Nat.add_assoc]
  rw [smpStrcpyn, if_neg (by simpa using hs), strcpynLoop_eq hsrc h h0, storeAll_spec hr]
  simp only [hcond]
  by_cases hfit : o + s.length + 1 ≤ (mem r).length
  · rw [if_pos hfit, if_pos hfit]
    rfl
  · rw [if_neg hfit, if_neg hfit]
    rfl

/-! ## Many strings -/

/-- The pointers read as strings without terminator in them, in objects other than
{lit}`r`. -/
def Sources (mem : Mem) (r : Region) (ps : List Ptr) (ss : List (List Int8)) : Prop :=
  List.Forall₂ (fun p s => p.region ≠ r ∧ StringAt 0 (mem p.region) p.off s ∧ 0 ∉ s) ps ss

theorem Sources.update {ps : List Ptr} {ss : List (List Int8)} {l : List Int8}
    (h : Sources mem r ps ss) : Sources (update mem r l) r ps ss := by
  apply List.Forall₂.imp ?_ h
  intro p s hp
  rw [update_of_ne hp.1]
  exact hp

/-- Strings packed in one object are sources for copies to any other. -/
theorem sources_of_prefix {q : Region} {ss : List (List Int8)} (hq : q ≠ r)
    (h : packed 0 ss <+: (mem q).drop o) (h0 : ∀ s ∈ ss, 0 ∉ s) :
    Sources mem r ((offsets o ss).map (Ptr.mk q)) ss := by
  rw [Sources, List.forall₂_map_left_iff]
  have hat := Strings.forall₂_stringAt_iff.mpr h
  apply List.forall₂_iff_get.mpr
  rw [List.forall₂_iff_get] at hat
  refine ⟨hat.1, fun i h₁ h₂ => ⟨hq, hat.2 i h₁ h₂, h0 _ (List.get_mem _ _)⟩⟩

/-- One round of the loops that copy strings. -/
theorem copyStrings_cons (hr : r ≠ .title) {ps : List Ptr} (hsrc : p.region ≠ r)
    (h : StringAt 0 (mem p.region) p.off s) (h0 : 0 ∉ s) :
    mem.copyStrings ⟨r, o⟩ (p :: ps) =
      if s = [] ∨ o + s.length + 1 ≤ (mem r).length then do
        let (mem, last, copies) ← copyStrings
          (update mem r (if s = [] then mem r else overlay (mem r) o (s ++ [0])))
          ⟨r, o + s.length + 1⟩ ps
        return (mem, last, ⟨r, o⟩ :: copies)
      else .error .writeOutside := by
  rw [copyStrings, strlen_of_stringAt h h0, Run.ok_bind]
  by_cases hs : s = []
  · subst hs
    simp [smpStrcpyn, Ptr.add]
  · rw [smpStrcpyn_spec hr hsrc h h0 hs]
    by_cases hfit : o + s.length + 1 ≤ (mem r).length
    · rw [if_pos hfit, if_pos (Or.inr hfit), if_neg hs]
      rfl
    · rw [if_neg hfit, if_neg (by simp [hs, hfit])]
      rfl

theorem length_step (hfit : s = [] ∨ o + s.length + 1 ≤ (mem r).length) :
    (if s = [] then mem r else overlay (mem r) o (s ++ [0])).length = (mem r).length := by
  by_cases hs : s = []
  · rw [if_pos hs]
  · rw [if_neg hs]
    apply Strings.length_overlay
    simp only [List.length_append, List.length_cons, List.length_nil]
    have := hfit.resolve_left hs
    omega

/-- Copied strings that fit are laid out. -/
theorem copyStrings_fits (hr : r ≠ .title) {ps : List Ptr} {ss : List (List Int8)}
    (h : Sources mem r ps ss) (hfit : Fits (mem r).length o ss) :
    mem.copyStrings ⟨r, o⟩ ps =
      .ok (update mem r (layOut 0 (mem r) o ss), ⟨r, o + (packed 0 ss).length⟩,
        (offsets o ss).map (Ptr.mk r)) := by
  induction ss generalizing mem o ps with
  | nil =>
      cases h
      simp [copyStrings, layOut, offsets]
  | cons s ss ih =>
      cases h with
      | cons hp hps =>
          have hrest := @ih _ (o + s.length + 1) _
            (Sources.update (l := if s = [] then mem r else overlay (mem r) o (s ++ [0])) hps)
            (by rw [update_self, length_step hfit.1]; exact hfit.2)
          rw [copyStrings_cons hr hp.1 hp.2.1 hp.2.2, if_pos hfit.1, hrest, Run.ok_bind,
            update_self, update_idem, layOut, offsets, Strings.packed_cons]
          have hpos : o + s.length + 1 + (packed 0 ss).length =
              o + (s.length + ((packed 0 ss).length + 1)) := by omega
          simp only [Run.pure_eq, List.map_cons, List.length_append, List.length_cons, hpos]

/-- Copied strings that do not fit leave the object. -/
theorem copyStrings_outside (hr : r ≠ .title) {ps : List Ptr} {ss : List (List Int8)}
    (h : Sources mem r ps ss) (hfit : ¬ Fits (mem r).length o ss) :
    mem.copyStrings ⟨r, o⟩ ps = .error .writeOutside := by
  induction ss generalizing mem o ps with
  | nil => exact absurd trivial hfit
  | cons s ss ih =>
      cases h with
      | cons hp hps =>
          rw [copyStrings_cons hr hp.1 hp.2.1 hp.2.2]
          by_cases hs : s = [] ∨ o + s.length + 1 ≤ (mem r).length
          · have hrest := @ih _ (o + s.length + 1) _
              (Sources.update (l := if s = [] then mem r else overlay (mem r) o (s ++ [0])) hps)
              (by
                rw [update_self, length_step hs]
                exact fun hss => hfit ⟨hs, hss⟩)
            rw [if_pos hs, hrest]
            rfl
          · rw [if_neg hs]

/-! ## The end of packed strings -/

/-- From the first pointer on, the loops over the pointers find the end of strings that
are packed. -/
theorem lastEnd_spec {ss : List (List Int8)} (h : packed 0 ss <+: (mem r).drop o)
    (h0 : ∀ s ∈ ss, 0 ∉ s) :
    mem.lastEnd ⟨r, o⟩ ((offsets o ss).map (Ptr.mk r)) =
      .ok ⟨r, o + (packed 0 ss).length⟩ := by
  induction ss generalizing o with
  | nil => simp [lastEnd, offsets]
  | cons s ss ih =>
      have hat := Strings.forall₂_stringAt_iff.mpr h
      rw [offsets, List.forall₂_cons, Strings.forall₂_stringAt_iff] at hat
      have hlen : mem.strlen ⟨r, o⟩ = .ok s.length :=
        strlen_of_stringAt hat.1 (h0 s (by simp))
      rw [offsets, List.map_cons, lastEnd, if_pos rfl, hlen, Run.ok_bind, Ptr.add_mk,
        ← Nat.add_assoc, ih hat.2 (fun t ht => h0 t (by simp [ht])), Strings.packed_cons]
      have hpos : o + s.length + 1 + (packed 0 ss).length =
          o + (s.length + ((packed 0 ss).length + 1)) := by omega
      simp only [List.length_append, List.length_cons, hpos]

end Mem

end Title
end Smpcil
