import Smpcil.Title.Copies

/-!
# Setting the title at the start of a process

What each function of `smp_system.c` does to a process that still has its arguments and
its environment back to back.

Main results:

- Theorem {lit}`smpInitSetProcTitle_start`: the end pointers found at the start.
- Theorems {lit}`smpCpyEnvirons_fits` and {lit}`smpCpyEnvirons_outside`: the copy of the
  environment.
- Theorems {lit}`reset_single`, {lit}`reset_refused` and {lit}`reset_granted`: the title
  over the area.
- Theorem {lit}`setTitle_short`: a title that fits over `argv[0]`.
-/

namespace Smpcil
namespace Title

open Strings (StringAt packed offsets overlay layOut Fits)
open Function (update update_self update_of_ne update_idem)

variable {s : Start} {st : Proc}

/-! ## The start layout -/

namespace Start

/-- The last environment string. -/
def lastEnv (s : Start) : List Int8 := s.envs.getLast s.envs_ne_nil

/-- The environment strings before the last one. -/
def otherEnvs (s : Start) : List (List Int8) := s.envs.dropLast

theorem envs_eq (s : Start) : s.envs = s.otherEnvs ++ [s.lastEnv] :=
  (List.dropLast_append_getLast s.envs_ne_nil).symm

theorem packed_envs (s : Start) :
    packed 0 s.envs = packed 0 s.otherEnvs ++ (s.lastEnv ++ [0]) := by
  rw [s.envs_eq, Strings.packed_append, Strings.packed_cons, Strings.packed_nil]

theorem arg0_noNul (s : Start) : 0 ∉ s.arg0 := s.noNul s.arg0 (by simp)

theorem args_noNul (s : Start) : ∀ t ∈ s.args, 0 ∉ t :=
  fun t ht => s.noNul t (by simp [ht])

theorem envs_noNul (s : Start) : ∀ t ∈ s.envs, 0 ∉ t :=
  fun t ht => s.noNul t (by simp [ht])

theorem argv_prefix (s : Start) : packed 0 (s.arg0 :: s.args) <+: s.area.drop 0 :=
  List.prefix_append _ _

theorem environ_prefix (s : Start) : packed 0 s.envs <+: s.area.drop s.argvEnd :=
  ⟨[], by rw [List.append_nil, area, argvEnd, List.drop_left]⟩

theorem argvEnd_eq (s : Start) :
    s.argvEnd = s.arg0.length + 1 + (packed 0 s.args).length := by
  simp only [argvEnd, Strings.packed_cons, List.length_append, List.length_cons]
  omega

/-- Clearing all but the last byte of the area clears the area. -/
theorem area_cleared (s : Start) :
    overlay s.area 0 (List.replicate (s.area.length - 1) 0) =
      List.replicate s.area.length 0 := by
  have hlast : ∃ l, s.area = l ++ [0] :=
    ⟨packed 0 (s.arg0 :: s.args) ++ packed 0 s.otherEnvs ++ s.lastEnv, by
      simp [area, packed_envs]⟩
  rcases hlast with ⟨l, hl⟩
  rw [hl, List.length_append, List.length_singleton, Nat.add_sub_cancel,
    Strings.overlay_zero (by simp), ← List.replicate_succ']

/-- The title over the cleared area, with or without its terminator. -/
theorem title_over_cleared {t : List Int8} {m : Nat} (h : t.length ≤ m) :
    overlay (List.replicate m 0) 0 t = t ++ List.replicate (m - t.length) 0 := by
  obtain ⟨k, rfl⟩ := Nat.exists_eq_add_of_le h
  rw [List.replicate_add, Strings.overlay_zero (by simp), Nat.add_sub_cancel_left]

/-- The area with the title, and nothing else. -/
def titled (s : Start) : List Int8 :=
  s.title ++ List.replicate (s.area.length - s.title.length) 0

end Start

/-! ## The end pointers -/

theorem smpInitSetProcTitle_start (s : Start) :
    smpInitSetProcTitle s.proc =
      .ok (⟨.area, s.argvEnd⟩, ⟨.area, s.area.length - 1⟩) := by
  have harg : s.proc.arg 0 = .ok ⟨.area, 0⟩ := rfl
  have hargv : s.mem.lastEnd ⟨.area, 0⟩ s.proc.argv = .ok ⟨.area, s.argvEnd⟩ := by
    have hpacked : packed 0 (s.arg0 :: s.args) <+: (s.mem .area).drop 0 := s.argv_prefix
    have h := Mem.lastEnd_spec hpacked (fun t ht => s.noNul t (List.mem_append_left _ ht))
    rwa [Nat.zero_add] at h
  have henviron : s.mem.lastEnd ⟨.area, s.argvEnd⟩ s.proc.environ =
      .ok ⟨.area, s.area.length⟩ := by
    have hpacked : packed 0 s.envs <+: (s.mem .area).drop s.argvEnd := s.environ_prefix
    have hlen : s.area.length = s.argvEnd + (packed 0 s.envs).length := List.length_append
    rw [hlen]
    exact Mem.lastEnd_spec hpacked s.envs_noNul
  rw [smpInitSetProcTitle, harg, Run.ok_bind]
  change (s.mem.lastEnd ⟨.area, 0⟩ s.proc.argv >>= _) = _
  rw [hargv, Run.ok_bind]
  change (s.mem.lastEnd ⟨.area, s.argvEnd⟩ s.proc.environ >>= _) = _
  rw [henviron]
  rfl

/-! ## The copy of the environment -/

namespace Start

/-- The block for the environment, with the bytes behind it. -/
def envBlock (s : Start) (slack : List Int8) : List Int8 :=
  List.replicate ((packed 0 s.envs).length - 1) 0 ++ slack

/-- The block with the environment laid out in it. -/
def envCopy (s : Start) (slack : List Int8) : List Int8 :=
  layOut 0 (s.envBlock slack) 0 s.envs

/-- The process with the environment copied. -/
def copied (s : Start) (slack : List Int8) : Proc where
  mem := update s.mem .environ (s.envCopy slack)
  argv := s.proc.argv
  environ := (offsets 0 s.envs).map (Ptr.mk .environ)

end Start

theorem environ_sources {l : List Int8} :
    Mem.Sources (update s.mem .environ l) .environ s.proc.environ s.envs := by
  apply Mem.sources_of_prefix (by decide) ?_ s.envs_noNul
  rw [update_of_ne (by decide)]
  exact s.environ_prefix

theorem smpCpyEnvirons_eq (s : Start) (slack : List Int8) :
    smpCpyEnvirons (some slack) ⟨.area, s.area.length - 1⟩ s.proc =
      (Mem.copyStrings (update s.mem .environ (s.envBlock slack)) ⟨.environ, 0⟩
        s.proc.environ >>= fun r => .ok (.ok, ⟨r.1, s.proc.argv, r.2.2⟩)) := by
  obtain ⟨e, es, henvs⟩ := List.exists_cons_of_ne_nil s.envs_ne_nil
  have henviron : s.proc.environ =
      ⟨.area, s.argvEnd⟩ :: (offsets (s.argvEnd + e.length + 1) es).map (Ptr.mk .area) := by
    simp only [Start.proc, henvs, offsets, List.map_cons]
  have hsize : s.area.length - 1 - s.argvEnd = (packed 0 s.envs).length - 1 := by
    have hlen : s.area.length = s.argvEnd + (packed 0 s.envs).length := List.length_append
    omega
  have hcalloc : s.proc.mem.smpCalloc (some slack) .environ
      (Ptr.sub ⟨.area, s.area.length - 1⟩ ⟨.area, s.argvEnd⟩) =
        (some ⟨.environ, 0⟩, update s.mem .environ (s.envBlock slack)) := by
    simp only [Mem.smpCalloc, Ptr.sub, hsize, Start.envBlock]
    rfl
  rw [smpCpyEnvirons]
  split
  · rename_i hnil
    rw [henviron] at hnil
    cases hnil
  · rename_i env0 rest hcons
    obtain rfl : env0 = ⟨.area, s.argvEnd⟩ := by
      rw [henviron] at hcons
      exact (List.cons.inj hcons).1.symm
    rw [hcalloc]
    rfl

/-- The environment copied, if it fits. -/
theorem smpCpyEnvirons_fits (slack : List Int8)
    (h : Fits (s.envBlock slack).length 0 s.envs) :
    smpCpyEnvirons (some slack) ⟨.area, s.area.length - 1⟩ s.proc =
      .ok (.ok, s.copied slack) := by
  rw [smpCpyEnvirons_eq, Mem.copyStrings_fits (by decide) environ_sources
    (by rw [update_self]; exact h), Run.ok_bind, update_self, update_idem]
  rfl

theorem smpCpyEnvirons_outside (slack : List Int8)
    (h : ¬ Fits (s.envBlock slack).length 0 s.envs) :
    smpCpyEnvirons (some slack) ⟨.area, s.area.length - 1⟩ s.proc =
      .error .writeOutside := by
  rw [smpCpyEnvirons_eq, Mem.copyStrings_outside (by decide) environ_sources
    (by rw [update_self]; exact h)]
  rfl

theorem smpCpyEnvirons_refused (s : Start) :
    smpCpyEnvirons none ⟨.area, s.area.length - 1⟩ s.proc = .ok (.failure, s.proc) := by
  rw [smpCpyEnvirons]
  split
  · rfl
  · rfl

/-! ## The title over the area -/

/-- The process still has its arguments, whatever became of its environment. -/
structure Ready (s : Start) (st : Proc) : Prop where
  area : st.mem .area = s.area
  title : st.mem .title = s.title ++ [0]
  argv : st.argv = s.proc.argv

theorem ready_start (s : Start) : Ready s s.proc := ⟨rfl, rfl, rfl⟩

theorem ready_copied (s : Start) (slack : List Int8) : Ready s (s.copied slack) where
  area := by
    change update s.mem .environ (s.envCopy slack) .area = _
    rw [update_of_ne (by decide)]
    rfl
  title := by
    change update s.mem .environ (s.envCopy slack) .title = _
    rw [update_of_ne (by decide)]
    rfl
  argv := rfl

theorem memset_area {mem : Mem} (h : mem .area = s.area) :
    mem.memset ⟨.area, 0⟩ (s.area.length - 1) =
      .ok (update mem .area (List.replicate s.area.length 0)) := by
  rw [Mem.memset, Mem.storeAll_front (by decide), h, if_pos (by simp), s.area_cleared]

theorem title_at {mem : Mem} (h : mem .title = s.title ++ [0]) :
    StringAt 0 (mem .title) 0 s.title := by
  rw [h]
  exact List.prefix_rfl

theorem Ready.arg_zero (h : Ready s st) : st.arg 0 = .ok ⟨.area, 0⟩ := by
  rw [Proc.arg, h.argv]
  rfl

/-- Without arguments the title goes over the area, and stays inside it if it is no
longer. -/
theorem reset_single (h : Ready s st) (hargs : s.args = []) (answer : Option (List Int8)) :
    smpResetProcTitel answer ⟨.area, s.argvEnd⟩ ⟨.area, s.area.length - 1⟩ ⟨.title, 0⟩
        s.title.length st =
      if s.title.length ≤ s.area.length then
        .ok (.ok, { st with mem := update st.mem .area s.titled })
      else .error .writeOutside := by
  have hargc : st.argv.length ≤ 1 := by
    rw [h.argv, Start.proc, hargs]
    exact Nat.le_refl 1
  have hcpy : Mem.memcpy (update st.mem .area (List.replicate s.area.length 0)) ⟨.area, 0⟩
      ⟨.title, 0⟩ s.title.length =
        Mem.storeAll (update st.mem .area (List.replicate s.area.length 0)) ⟨.area, 0⟩ s.title := by
    apply Mem.memcpy_eq
    rw [update_of_ne (by decide)]
    exact title_at h.title
  rw [smpResetProcTitel, h.arg_zero, Run.ok_bind, if_pos hargc]
  change (st.mem.memset ⟨.area, 0⟩ (s.area.length - 1) >>= _) = _
  rw [memset_area h.area, Run.ok_bind, hcpy,
    Mem.storeAll_front (by decide), update_self, List.length_replicate, update_idem]
  by_cases hfit : s.title.length ≤ s.area.length
  · rw [if_pos hfit, if_pos hfit, Start.title_over_cleared hfit]
    rfl
  · rw [if_neg hfit, if_neg hfit]
    rfl

theorem Ready.length_argv (h : Ready s st) (hargs : s.args ≠ []) : ¬ st.argv.length ≤ 1 := by
  obtain ⟨a, as, has⟩ := List.exists_cons_of_ne_nil hargs
  rw [h.argv, Start.proc, has]
  simp [offsets]

theorem Ready.arg_one (h : Ready s st) (hargs : s.args ≠ []) :
    st.arg 1 = .ok ⟨.area, s.arg0.length + 1⟩ := by
  obtain ⟨a, as, has⟩ := List.exists_cons_of_ne_nil hargs
  rw [Proc.arg, h.argv, Start.proc, has]
  simp [offsets]

/-- Without a copy of the arguments nothing is done. -/
theorem reset_refused (h : Ready s st) (hargs : s.args ≠ []) :
    smpResetProcTitel none ⟨.area, s.argvEnd⟩ ⟨.area, s.area.length - 1⟩ ⟨.title, 0⟩
        s.title.length st = .ok (.ok, st) := by
  rw [smpResetProcTitel, h.arg_zero, Run.ok_bind, if_neg (h.length_argv hargs),
    h.arg_one hargs, Run.ok_bind]
  rfl

namespace Start

/-- The title and, behind it, the arguments that are not empty end inside the area. -/
def Room (s : Start) : Prop :=
  s.title.length + 1 ≤ s.area.length ∧ Fits s.area.length (s.title.length + 1) s.args

/-- The area with the title and the arguments behind it. -/
def rewritten (s : Start) : List Int8 := layOut 0 s.titled (s.title.length + 1) s.args

end Start

/-- The memory with the arguments saved. -/
def saved (s : Start) (mem : Mem) (slack : List Int8) : Mem :=
  update mem .params (packed 0 s.args ++ slack)

theorem copyStrings_params (h : Ready s st) (slack : List Int8) :
    Mem.copyStrings (update st.mem .params (List.replicate (packed 0 s.args).length 0 ++ slack))
        ⟨.params, 0⟩ st.argv.tail =
      .ok (saved s st.mem slack, ⟨.params, (packed 0 s.args).length⟩,
        (offsets 0 s.args).map (Ptr.mk .params)) := by
  have hsrc : Mem.Sources
      (update st.mem .params (List.replicate (packed 0 s.args).length 0 ++ slack)) .params
      ((offsets (s.arg0.length + 1) s.args).map (Ptr.mk .area)) s.args := by
    apply Mem.sources_of_prefix (by decide) ?_ s.args_noNul
    rw [update_of_ne (by decide), h.area]
    have hdrop : s.area.drop (s.arg0.length + 1) = packed 0 s.args ++ packed 0 s.envs := by
      rw [Start.area, Strings.packed_cons, ← List.drop_drop, List.append_assoc, List.drop_left]
      rfl
    rw [hdrop]
    exact List.prefix_append _ _
  have htail : st.argv.tail = (offsets (s.arg0.length + 1) s.args).map (Ptr.mk .area) := by
    rw [h.argv]
    simp [Start.proc, offsets]
  have hblank : layOut 0 (List.replicate (packed 0 s.args).length 0 ++ slack) 0 s.args =
      packed 0 s.args ++ slack := by
    have hlayOut := @Strings.layOut_blank Int8 0 [] slack _ s.args (Nat.le_refl _)
    simpa using hlayOut
  have hfit : Fits (List.replicate (packed 0 s.args).length 0 ++ slack).length 0 s.args := by
    apply @Strings.fits_of_length_le Int8 0
    rw [List.length_append, List.length_replicate]
    omega
  rw [htail, Mem.copyStrings_fits (by decide) hsrc (by rw [update_self]; exact hfit),
    update_self, update_idem, hblank, Nat.zero_add, saved]

/-- With a copy of the arguments, title and arguments go over the area, and stay inside
it if there is room. -/
theorem reset_granted (h : Ready s st) (hargs : s.args ≠ []) (htitle : s.title ≠ [])
    (slack : List Int8) :
    smpResetProcTitel (some slack) ⟨.area, s.argvEnd⟩ ⟨.area, s.area.length - 1⟩ ⟨.title, 0⟩
        s.title.length st =
      if s.title.length + 1 ≤ s.area.length then
        (Mem.copyStrings (update (saved s st.mem slack) .area s.titled)
          ⟨.area, s.title.length + 1⟩ ((offsets 0 s.args).map (Ptr.mk .params)) >>= fun r =>
            .ok (.ok, ⟨r.1, ⟨.area, 0⟩ :: r.2.2, st.environ⟩))
      else .error .writeOutside := by
  have hsize : Ptr.sub ⟨.area, s.argvEnd⟩ ⟨.area, s.arg0.length + 1⟩ =
      (packed 0 s.args).length := by
    simp only [Ptr.sub, s.argvEnd_eq]
    omega
  have hcalloc : st.mem.smpCalloc (some slack) .params (packed 0 s.args).length =
      (some ⟨.params, 0⟩,
        update st.mem .params (List.replicate (packed 0 s.args).length 0 ++ slack)) := rfl
  have harea : saved s st.mem slack .area = s.area := by
    rw [saved, update_of_ne (by decide), h.area]
  have hsrc : StringAt 0 (update (saved s st.mem slack) .area
      (List.replicate s.area.length 0) (Ptr.mk .title 0).region) (Ptr.mk .title 0).off s.title := by
    rw [update_of_ne (by decide), saved, update_of_ne (by decide)]
    exact title_at h.title
  rw [smpResetProcTitel, h.arg_zero, Run.ok_bind, if_neg (h.length_argv hargs),
    h.arg_one hargs, Run.ok_bind, hsize, hcalloc]
  change (Mem.copyStrings _ ⟨.params, 0⟩ st.argv.tail >>= _) = _
  rw [copyStrings_params h, Run.ok_bind]
  change (Mem.memset (saved s st.mem slack) ⟨.area, 0⟩ (s.area.length - 1) >>= _) = _
  rw [memset_area harea, Run.ok_bind,
    Mem.smpStrcpyn_spec (by decide) (by decide) hsrc s.title_noNul htitle, update_self,
    List.length_replicate, update_idem, Nat.zero_add]
  by_cases hfit : s.title.length + 1 ≤ s.area.length
  · have htitled : overlay (List.replicate s.area.length 0) 0 (s.title ++ [0]) = s.titled := by
      rw [Start.title_over_cleared (by simpa using hfit), Start.titled, List.append_assoc,
        List.length_append, List.length_singleton, List.singleton_append, ← List.replicate_succ]
      congr 2
      omega
    rw [if_pos hfit, if_pos hfit, htitled]
    rfl
  · rw [if_neg hfit, if_neg hfit]
    rfl

theorem Start.length_titled (s : Start) (h : s.title.length ≤ s.area.length) :
    s.titled.length = s.area.length := by
  rw [Start.titled, List.length_append, List.length_replicate]
  omega

theorem saved_sources (mem : Mem) (slack : List Int8) :
    Mem.Sources (update (saved s mem slack) .area s.titled) .area
      ((offsets 0 s.args).map (Ptr.mk .params)) s.args := by
  apply Mem.sources_of_prefix (by decide) ?_ s.args_noNul
  rw [update_of_ne (by decide), saved, update_self]
  exact List.prefix_append _ _

/-- The process with the title, if there is room for the arguments behind it. -/
theorem reset_room (h : Ready s st) (hargs : s.args ≠ []) (htitle : s.title ≠ [])
    (hroom : s.Room) (slack : List Int8) :
    smpResetProcTitel (some slack) ⟨.area, s.argvEnd⟩ ⟨.area, s.area.length - 1⟩ ⟨.title, 0⟩
        s.title.length st =
      .ok (.ok, ⟨update (saved s st.mem slack) .area s.rewritten,
        (offsets 0 (s.title :: s.args)).map (Ptr.mk .area), st.environ⟩) := by
  have hlen : s.titled.length = s.area.length := s.length_titled (by have := hroom.1; omega)
  rw [reset_granted h hargs htitle, if_pos hroom.1,
    Mem.copyStrings_fits (by decide) (saved_sources st.mem slack)
      (by rw [update_self, hlen]; exact hroom.2),
    Run.ok_bind, update_self, update_idem, offsets, List.map_cons, Nat.zero_add]
  rfl

theorem reset_noRoom (h : Ready s st) (hargs : s.args ≠ []) (htitle : s.title ≠ [])
    (hroom : ¬ s.Room) (slack : List Int8) :
    smpResetProcTitel (some slack) ⟨.area, s.argvEnd⟩ ⟨.area, s.area.length - 1⟩ ⟨.title, 0⟩
        s.title.length st = .error .writeOutside := by
  rw [reset_granted h hargs htitle]
  by_cases hfit : s.title.length + 1 ≤ s.area.length
  · have hlen : s.titled.length = s.area.length := s.length_titled (by omega)
    rw [if_pos hfit, Mem.copyStrings_outside (by decide) (saved_sources st.mem slack)
      (by rw [update_self, hlen]; exact fun hfits => hroom ⟨hfit, hfits⟩)]
    rfl
  · rw [if_neg hfit]

/-! ## The whole call -/

theorem strlen_title (s : Start) : s.mem.strlen ⟨.title, 0⟩ = .ok s.title.length :=
  Mem.strlen_of_stringAt (title_at rfl) s.title_noNul

/-- The area behind `argv[0]`. -/
def Start.behind (s : Start) : List Int8 := packed 0 s.args ++ packed 0 s.envs

/-- The area with a title that is no longer than `argv[0]`. -/
def Start.shortArea (s : Start) : List Int8 :=
  s.title ++ (List.replicate (s.arg0.length - s.title.length) 0 ++ 0 :: s.behind)

theorem Start.area_eq (s : Start) : s.area = s.arg0 ++ 0 :: s.behind := by
  simp [area, behind]

theorem strlen_arg0 (s : Start) : s.mem.strlen ⟨.area, 0⟩ = .ok s.arg0.length := by
  apply Mem.strlen_of_stringAt ?_ s.arg0_noNul
  exact Strings.stringAt_iff.mpr ⟨s.behind, s.area_eq⟩

/-- A title that is no longer than `argv[0]` goes over it. -/
theorem setTitle_short (h : s.title.length ≤ s.arg0.length)
    (envAnswer argAnswer : Option (List Int8)) :
    s.setTitle envAnswer argAnswer =
      .ok (.ok, { s.proc with mem := update s.mem .area s.shortArea }) := by
  have harea : s.mem .area = s.arg0 ++ 0 :: s.behind := s.area_eq
  have hset : s.mem.memset ⟨.area, 0⟩ s.arg0.length =
      .ok (update s.mem .area (List.replicate s.arg0.length 0 ++ 0 :: s.behind)) := by
    rw [Mem.memset, Mem.storeAll_front (by decide), harea, if_pos (by simp),
      Strings.overlay_zero (by simp)]
  have hcpy : Mem.memcpy (update s.mem .area (List.replicate s.arg0.length 0 ++ 0 :: s.behind))
      ⟨.area, 0⟩ ⟨.title, 0⟩ s.title.length = .ok (update s.mem .area s.shortArea) := by
    rw [Mem.memcpy_eq (by rw [update_of_ne (by decide)]; exact title_at rfl),
      Mem.storeAll_front (by decide), update_self, if_pos (by simp; omega), update_idem]
    obtain ⟨k, hk⟩ := Nat.exists_eq_add_of_le h
    rw [Start.shortArea, hk, List.replicate_add, List.append_assoc,
      Strings.overlay_zero (by simp), Nat.add_sub_cancel_left]
  rw [Start.setTitle, smpSetProcTitel]
  change (s.mem.strlen ⟨.title, 0⟩ >>= _) = _
  rw [strlen_title, Run.ok_bind, (ready_start s).arg_zero, Run.ok_bind]
  change (s.mem.strlen ⟨.area, 0⟩ >>= _) = _
  rw [strlen_arg0, Run.ok_bind, if_pos h]
  change (s.mem.memset ⟨.area, 0⟩ s.arg0.length >>= _) = _
  rw [hset, Run.ok_bind, hcpy]
  rfl

/-- A longer title goes over the area once the environment is copied. -/
theorem setTitle_long (h : s.arg0.length < s.title.length)
    (envAnswer argAnswer : Option (List Int8)) :
    s.setTitle envAnswer argAnswer =
      (smpCpyEnvirons envAnswer ⟨.area, s.area.length - 1⟩ s.proc >>= fun r =>
        smpResetProcTitel argAnswer ⟨.area, s.argvEnd⟩ ⟨.area, s.area.length - 1⟩ ⟨.title, 0⟩
          s.title.length r.2 >>= fun r => .ok (.ok, r.2)) := by
  rw [Start.setTitle, smpSetProcTitel]
  change (s.mem.strlen ⟨.title, 0⟩ >>= _) = _
  rw [strlen_title, Run.ok_bind, (ready_start s).arg_zero, Run.ok_bind]
  change (s.mem.strlen ⟨.area, 0⟩ >>= _) = _
  rw [strlen_arg0, Run.ok_bind, if_neg (by omega), smpInitSetProcTitle_start]
  rfl

end Title
end Smpcil
