import Smpcil.Title.Runs

/-!
# What setting the title does to a process

The call of `smp_set_proc_titel` at the start of a process: which writes it makes, what
the arguments and the environment read as afterwards, and what becomes of them when an
allocation fails.

Main results:

- Theorem {lit}`setTitle_inside_iff`: the call writes inside its memory precisely if the
  title is short, or the last environment string is empty and there is room.
- Theorem {lit}`preserves_iff`: the call sets the title and preserves arguments and
  environment precisely if the title is short, or everything fits and the environment
  ends well.
- Theorem {lit}`noDamage_iff`: when a call whose allocations may fail does no damage.
-/

namespace Smpcil
namespace Title

open Strings (StringAt packed offsets overlay layOut Fits)
open Function (update update_self update_of_ne)

variable {s : Start} {st : Proc}

/-! ## Writes -/

namespace Start

theorem length_packed_envs (s : Start) :
    (packed 0 s.envs).length = (packed 0 s.otherEnvs).length + s.lastEnv.length + 1 := by
  simp only [packed_envs, List.length_append, List.length_cons, List.length_nil]
  omega

/-- The environment fits into its block if it ends with an empty string, and otherwise
only together with what lies behind the block. -/
theorem fits_envBlock_iff {slack : List Int8} :
    Fits (s.envBlock slack).length 0 s.envs ↔ s.lastEnv = [] ∨ slack ≠ [] := by
  have hlen := s.length_packed_envs
  cases slack with
  | nil =>
      have hblock : 0 + (packed 0 s.otherEnvs).length + s.lastEnv.length =
          (s.envBlock []).length := by
        simp only [envBlock, List.append_nil, List.length_replicate]
        omega
      rw [s.envs_eq, Strings.fits_append_singleton_iff hblock]
      simp
  | cons x slack =>
      have hfit : Fits (s.envBlock (x :: slack)).length 0 s.envs := by
        apply @Strings.fits_of_length_le Int8 0
        simp only [envBlock, List.length_append, List.length_replicate, List.length_cons]
        omega
      simpa using hfit

/-- The title is no longer than `argv[0]`; or the last environment string is empty, and
the title ends inside the area, together with its terminator and the arguments that are
not empty if there are arguments. -/
def StaysInside (s : Start) : Prop :=
  s.title.length ≤ s.arg0.length ∨
    s.lastEnv = [] ∧ if s.args = [] then s.title.length ≤ s.area.length else s.Room

theorem title_ne_nil (h : s.arg0.length < s.title.length) : s.title ≠ [] := by
  intro hnil
  rw [hnil, List.length_nil] at h
  omega

end Start

theorem setTitle_inside (h : s.StaysInside) : ∃ r, s.setTitle (some []) (some []) = .ok r := by
  by_cases hshort : s.title.length ≤ s.arg0.length
  · exact ⟨_, setTitle_short hshort _ _⟩
  · obtain ⟨hlast, hroom⟩ := h.resolve_left hshort
    have hready := ready_copied s []
    rw [setTitle_long (by omega), smpCpyEnvirons_fits []
      (Start.fits_envBlock_iff.mpr (Or.inl hlast)), Run.ok_bind]
    by_cases hargs : s.args = []
    · rw [if_pos hargs] at hroom
      exact ⟨_, by rw [reset_single hready hargs, if_pos hroom]; rfl⟩
    · rw [if_neg hargs] at hroom
      exact ⟨_, by
        rw [reset_room hready hargs (Start.title_ne_nil (by omega)) hroom]
        rfl⟩

theorem setTitle_outside (h : ¬ s.StaysInside) :
    s.setTitle (some []) (some []) = .error .writeOutside := by
  simp only [Start.StaysInside, not_or, not_and] at h
  obtain ⟨hlong, hroom⟩ := h
  rw [setTitle_long (by omega)]
  by_cases hlast : s.lastEnv = []
  · have hready := ready_copied s []
    have hroom := hroom hlast
    rw [smpCpyEnvirons_fits [] (Start.fits_envBlock_iff.mpr (Or.inl hlast)), Run.ok_bind]
    by_cases hargs : s.args = []
    · rw [if_pos hargs] at hroom
      rw [reset_single hready hargs, if_neg hroom]
      rfl
    · rw [if_neg hargs] at hroom
      rw [reset_noRoom hready hargs (Start.title_ne_nil (by omega)) hroom]
      rfl
  · rw [smpCpyEnvirons_outside [] (by rw [Start.fits_envBlock_iff]; simp [hlast])]
    rfl

/-- With blocks of exactly the size asked for, the call runs to its end precisely if it
stays inside its memory, and otherwise it comes to a write outside. -/
theorem setTitle_inside_iff (s : Start) :
    ((∃ r, s.setTitle (some []) (some []) = .ok r) ↔ s.StaysInside) ∧
      (s.setTitle (some []) (some []) = .error .writeOutside ↔ ¬ s.StaysInside) := by
  by_cases h : s.StaysInside
  · obtain ⟨r, hr⟩ := setTitle_inside h
    simp [h, hr]
  · have hfault := setTitle_outside h
    simp [h, hfault]

/-- The process with `argv` `{"a"}` and `environ` `{"e"}`, and the title `"ab"`. -/
def Start.shortest : Start where
  title := [97, 98]
  arg0 := [97]
  args := []
  envs := [[101]]
  envs_ne_nil := by decide
  title_noNul := by decide
  noNul := by decide

/-- The terminator of the last environment string is written behind its block. -/
theorem setTitle_inside_fails : ¬ ∀ s : Start,
    s.setTitle (some []) (some []) ≠ .error .writeOutside := by
  intro hall
  apply hall Start.shortest
  rfl

/-! ## Strings -/

theorem reads_offsets_iff {r : Region} {o : Nat} {ss : List (List Int8)} :
    st.Reads ((offsets o ss).map (Ptr.mk r)) ss ↔ packed 0 ss <+: (st.mem r).drop o := by
  rw [Proc.Reads, List.forall₂_map_left_iff]
  exact @Strings.forall₂_stringAt_iff Int8 0 (st.mem r) o ss

namespace Start

/-- An environment that ends with the empty string leaves the last byte to what was
behind its block. -/
theorem envCopy_empty (h : s.lastEnv = []) (slack : List Int8) :
    s.envCopy slack = packed 0 s.otherEnvs ++ slack := by
  have hlen := s.length_packed_envs
  rw [h, List.length_nil] at hlen
  have hcount : (packed 0 s.envs).length - 1 = (packed 0 s.otherEnvs).length := by omega
  have hlayOut := @Strings.layOut_blank Int8 0 [] slack _ s.otherEnvs (Nat.le_refl _)
  rw [envCopy, envBlock, hcount]
  rw [s.envs_eq, Strings.layOut_append_singleton, if_pos h]
  simpa using hlayOut

/-- An environment that ends with another string is packed, its last terminator behind
its block. -/
theorem envCopy_nonempty (h : s.lastEnv ≠ []) (x : Int8) (slack : List Int8) :
    s.envCopy (x :: slack) = packed 0 s.envs ++ slack := by
  have hlen := s.length_packed_envs
  have hcount : (packed 0 s.envs).length - 1 =
      (packed 0 s.otherEnvs).length + s.lastEnv.length := by omega
  have hlayOut : layOut 0 (s.envBlock (x :: slack)) 0 s.otherEnvs =
      packed 0 s.otherEnvs ++ (List.replicate s.lastEnv.length 0 ++ x :: slack) := by
    have hblank := @Strings.layOut_blank Int8 0 [] (x :: slack) _ s.otherEnvs
      (Nat.le_add_right _ s.lastEnv.length)
    rw [Nat.add_sub_cancel_left] at hblank
    rw [envBlock, hcount]
    simpa using hblank
  have hlast : List.replicate s.lastEnv.length 0 ++ x :: slack =
      (List.replicate s.lastEnv.length 0 ++ [x]) ++ slack := by simp
  have hlayOutEnvs : s.envCopy (x :: slack) =
      layOut 0 (s.envBlock (x :: slack)) 0 (s.otherEnvs ++ [s.lastEnv]) := by
    rw [← s.envs_eq]
    rfl
  rw [hlayOutEnvs, Strings.layOut_append_singleton, if_neg h, hlayOut, Nat.zero_add,
    Strings.overlay_append, hlast, Strings.overlay_zero (by simp), packed_envs,
    List.append_assoc (packed 0 s.otherEnvs)]

/-- The environment reads as before the call: its copy ends well, or the title and the
arguments, which reach into it by what the title is longer than `argv[0]`, end there in its first
strings, and the others are empty. -/
def EnvKept (s : Start) : Option (List Int8) → Prop
  | some slack => s.lastEnv ≠ [] ∧ slack ≠ [] ∨ slack.head? = some 0
  | none => ∃ front u t rest k, s.title :: s.args = front ++ (u ++ t) :: rest ∧
      s.arg0.length + (packed 0 (t :: rest)).length = s.title.length ∧
      s.envs = t :: rest ++ List.replicate k []

/-- The copy of the environment stays inside its block or goes on behind it, and reads as
the environment, precisely if it ends well. -/
theorem envKept_some_iff {slack : List Int8} :
    s.EnvKept (some slack) ↔
      (s.lastEnv = [] ∨ slack ≠ []) ∧ packed 0 s.envs <+: s.envCopy slack := by
  by_cases hlast : s.lastEnv = []
  · have hpacked : packed 0 s.envs <+: s.envCopy slack ↔ slack.head? = some 0 := by
      rw [envCopy_empty hlast, packed_envs, hlast, List.nil_append,
        List.prefix_append_right_inj]
      cases slack with
      | nil => simp
      | cons x slack => simp [eq_comm]
    rw [hpacked, EnvKept]
    simp [hlast]
  · cases slack with
    | nil => simp [EnvKept, hlast]
    | cons x slack =>
        rw [envCopy_nonempty hlast]
        simp [EnvKept, hlast]

/-- The area with the title, the arguments and nothing behind them. -/
def finalArea (s : Start) : List Int8 :=
  s.title ++ 0 :: (packed 0 s.args ++
    List.replicate (s.area.length - (s.title.length + 1 + (packed 0 s.args).length)) 0)

/-- The title and the arguments with their terminators fit into the area. -/
def AllFits (s : Start) : Prop :=
  s.title.length + 1 + (packed 0 s.args).length ≤ s.area.length

theorem room_of_allFits (h : s.AllFits) : s.Room := by
  unfold AllFits at h
  exact ⟨by omega, Strings.fits_of_length_le h⟩

theorem rewritten_eq (h : s.AllFits) : s.rewritten = s.finalArea := by
  unfold AllFits at h
  have htitled : s.titled =
      (s.title ++ [0]) ++ (List.replicate (s.area.length - (s.title.length + 1)) 0 ++ []) := by
    have hcount : s.area.length - s.title.length =
        s.area.length - (s.title.length + 1) + 1 := by omega
    rw [titled, hcount, List.replicate_succ]
    simp
  have hpos : s.title.length + 1 = (s.title ++ [0]).length := by simp
  rw [rewritten, htitled, hpos, Strings.layOut_blank (by simp; omega), finalArea,
    List.append_nil]
  simp [Nat.sub_sub]

/-- Without an own copy the environment reads as before precisely if the final area
repeats it. -/
theorem envKept_none_iff (hlong : s.arg0.length < s.title.length) (h : s.AllFits) :
    s.EnvKept none ↔ packed 0 s.envs <+: s.finalArea.drop s.argvEnd := by
  have harea : s.area.length = s.argvEnd + (packed 0 s.envs).length := List.length_append
  have hend := s.argvEnd_eq
  have hpacked : (packed 0 (s.title :: s.args)).length =
      s.title.length + 1 + (packed 0 s.args).length := by
    rw [Strings.packed_cons, List.length_append, List.length_cons]
    omega
  unfold AllFits at h
  have hinto : s.argvEnd + (s.title.length - s.arg0.length) =
      (packed 0 (s.title :: s.args)).length := by omega
  -- behind the strings of `argv` are the end of the title and the arguments, and then zeros
  have hdrop : s.finalArea.drop s.argvEnd = (packed 0 (s.title :: s.args)).drop s.argvEnd ++
      List.replicate (s.area.length - (packed 0 (s.title :: s.args)).length) 0 := by
    rw [finalArea, hpacked, ← List.cons_append, ← List.append_assoc, ← Strings.packed_cons,
      List.drop_append_of_le_length (by omega)]
  constructor
  case mp =>
    rintro ⟨front, u, t, rest, k, hstrings, hlen, henvs⟩
    have hover : (packed 0 (s.title :: s.args)).drop s.argvEnd = packed 0 (t :: rest) := by
      rw [hstrings] at hinto ⊢
      exact Strings.drop_packed (by omega)
    have hcount : s.area.length - (packed 0 (s.title :: s.args)).length = k := by
      rw [henvs, Strings.packed_append, List.length_append, Strings.packed_replicate_nil,
        List.length_replicate] at harea
      omega
    have hfinal : s.finalArea.drop s.argvEnd = packed 0 s.envs := by
      rw [hdrop, hover, hcount, henvs, Strings.packed_append, Strings.packed_replicate_nil]
    exact ⟨[], by rw [List.append_nil, hfinal]⟩
  case mpr =>
    intro henvs
    rcases @Strings.exists_drop_packed _ 0 (s.title :: s.args) s.argvEnd (by omega) with
      ⟨front, u, t, rest, hstrings, hover⟩
    have hlen : (packed 0 (t :: rest)).length = s.title.length - s.arg0.length := by
      rw [← hover, List.length_drop]
      omega
    have heq := List.IsPrefix.eq_of_length henvs (by
      rw [hdrop, List.length_append, List.length_drop, List.length_replicate]
      omega)
    rw [hdrop, hover, ← Strings.packed_replicate_nil, ← Strings.packed_append] at heq
    have hclean : ∀ r ∈ s.title :: s.args, 0 ∉ r := by
      intro r hr
      rcases List.mem_cons.mp hr with rfl | hr
      · exact s.title_noNul
      · exact s.noNul r (by simp [hr])
    refine ⟨front, u, t, rest, _, hstrings, by omega, Strings.packed_injective ?_ ?_ heq⟩
    · exact fun r hr => s.noNul r (by simp [hr])
    · intro r hr hmem
      rcases List.mem_append.mp hr with hr | hr
      · rcases List.mem_cons.mp hr with rfl | hr
        · exact hclean (u ++ r) (by simp [hstrings]) (by simp [hmem])
        · exact hclean r (by simp [hstrings, hr]) hmem
      · rw [List.eq_of_mem_replicate hr] at hmem
        cases hmem

end Start

/-! ## The title over the area -/

/-- The call has set the title and changed nothing else that can be read: the title
passed in, the arguments and the environment. -/
structure Start.Preserves (s : Start) (st : Proc) : Prop where
  title : st.mem .title = s.title ++ [0]
  argv : st.Reads st.argv (s.title :: s.args)
  environ : st.Reads st.environ s.envs

/-- With the arguments copied and everything fitting, title and arguments are packed at
the front of the area. -/
theorem reset_good (h : Ready s st) (htitle : s.title ≠ []) {answer : Option (List Int8)}
    (hanswer : s.args = [] ∨ answer ≠ none) (hfit : s.AllFits) :
    ∃ st', smpResetProcTitel answer ⟨.area, s.argvEnd⟩ ⟨.area, s.area.length - 1⟩ ⟨.title, 0⟩
        s.title.length st = .ok (.ok, st') ∧
      st'.mem .area = s.finalArea ∧ st'.mem .environ = st.mem .environ ∧
      st'.mem .title = s.title ++ [0] ∧
      st'.argv = (offsets 0 (s.title :: s.args)).map (Ptr.mk .area) ∧
      st'.environ = st.environ := by
  have hfinal := Start.rewritten_eq hfit
  by_cases hargs : s.args = []
  · have hlen : s.title.length ≤ s.area.length := by
      unfold Start.AllFits at hfit
      omega
    have htitled : s.titled = s.finalArea := by
      rw [← hfinal, Start.rewritten, hargs, layOut]
    have hargv : st.argv = (offsets 0 (s.title :: s.args)).map (Ptr.mk .area) := by
      rw [h.argv, Start.proc, hargs]
      rfl
    rw [reset_single h hargs, if_pos hlen, htitled]
    refine ⟨_, rfl, ?_, ?_, ?_, hargv, rfl⟩
    · change update st.mem .area s.finalArea .area = _
      rw [update_self]
    · change update st.mem .area s.finalArea .environ = _
      rw [update_of_ne (by decide)]
    · change update st.mem .area s.finalArea .title = _
      rw [update_of_ne (by decide), h.title]
  · cases answer with
    | none => exact absurd rfl (hanswer.resolve_left hargs)
    | some slack =>
        rw [reset_room h hargs htitle (Start.room_of_allFits hfit), hfinal]
        refine ⟨_, rfl, ?_, ?_, ?_, rfl, rfl⟩
        · change update (saved s st.mem slack) .area s.finalArea .area = _
          rw [update_self]
        · change update (saved s st.mem slack) .area s.finalArea .environ = _
          rw [update_of_ne (by decide), saved, update_of_ne (by decide)]
        · change update (saved s st.mem slack) .area s.finalArea .title = _
          rw [update_of_ne (by decide), saved, update_of_ne (by decide), h.title]

/-- In all other cases the title or an argument does not read as it should. -/
theorem reset_bad (h : Ready s st) (hlong : s.arg0.length < s.title.length)
    {answer : Option (List Int8)} (hcond : ¬ ((s.args = [] ∨ answer ≠ none) ∧ s.AllFits))
    {status : Status} {st' : Proc}
    (hrun : smpResetProcTitel answer ⟨.area, s.argvEnd⟩ ⟨.area, s.area.length - 1⟩ ⟨.title, 0⟩
      s.title.length st = .ok (status, st')) :
    ¬ st'.Reads st'.argv (s.title :: s.args) := by
  intro hreads
  by_cases hargs : s.args = []
  · have hfit : ¬ s.AllFits := fun hfit => hcond ⟨Or.inl hargs, hfit⟩
    rw [reset_single h hargs] at hrun
    by_cases hlen : s.title.length ≤ s.area.length
    · rw [if_pos hlen] at hrun
      cases hrun
      have hargv : st.argv = (offsets 0 (s.title :: s.args)).map (Ptr.mk .area) := by
        rw [h.argv, Start.proc, hargs]
        rfl
      rw [hargv, reads_offsets_iff] at hreads
      change _ <+: (update st.mem .area s.titled .area).drop 0 at hreads
      rw [update_self] at hreads
      have hle := hreads.length_le
      rw [List.length_drop, s.length_titled hlen, Strings.packed_cons, List.length_append,
        List.length_cons] at hle
      exact hfit (by unfold Start.AllFits; omega)
    · rw [if_neg hlen] at hrun
      cases hrun
  · cases answer with
    | none =>
        -- the process is as before, and `argv[0]` is not the title
        rw [reset_refused h hargs] at hrun
        cases hrun
        have harg0 : StringAt 0 (st.mem .area) 0 s.arg0 := by
          rw [h.area, s.area_eq]
          exact Strings.stringAt_iff.mpr ⟨_, rfl⟩
        rw [h.argv] at hreads
        have htitle : StringAt 0 (st.mem .area) 0 s.title := (List.forall₂_cons.mp hreads).1
        have heq := htitle.unique s.title_noNul s.arg0_noNul harg0
        rw [heq] at hlong
        exact Nat.lt_irrefl _ hlong
    | some slack =>
        have hfit : ¬ s.AllFits := fun hfit => hcond ⟨Or.inr (by simp), hfit⟩
        have htitle := Start.title_ne_nil hlong
        by_cases hroom : s.Room
        · rw [reset_room h hargs htitle hroom] at hrun
          cases hrun
          rw [reads_offsets_iff] at hreads
          change _ <+: (update (saved s st.mem slack) .area s.rewritten .area).drop 0 at hreads
          rw [update_self] at hreads
          have hle := hreads.length_le
          have hlen : s.titled.length = s.area.length :=
            s.length_titled (by have := hroom.1; omega)
          have hlayOut : s.rewritten.length = s.area.length := by
            rw [Start.rewritten, Strings.length_layOut (by rw [hlen]; exact hroom.2), hlen]
          rw [List.length_drop, hlayOut, Strings.packed_cons, List.length_append,
            List.length_cons] at hle
          exact hfit (by unfold Start.AllFits; omega)
        · rw [reset_noRoom h hargs htitle hroom] at hrun
          cases hrun

/-! ## The call as a whole -/

theorem Run.bind_eq_ok {α β : Type} {x : Run α} {f : α → Run β} {b : β} :
    (x >>= f) = .ok b ↔ ∃ a, x = .ok a ∧ f a = .ok b := by
  cases x with
  | error e => simp
  | ok a => simp

/-- The copy of the environment, or the lack of it, leaves the arguments as they are. -/
theorem ready_of_smpCpyEnvirons {answer : Option (List Int8)} {status : Status}
    (h : smpCpyEnvirons answer ⟨.area, s.area.length - 1⟩ s.proc = .ok (status, st)) :
    Ready s st ∧ ∀ slack, answer = some slack →
      (s.lastEnv = [] ∨ slack ≠ []) ∧ st = s.copied slack := by
  cases answer with
  | none =>
      rw [smpCpyEnvirons_refused] at h
      cases h
      exact ⟨ready_start s, by simp⟩
  | some slack =>
      by_cases hfit : Fits (s.envBlock slack).length 0 s.envs
      · rw [smpCpyEnvirons_fits slack hfit] at h
        cases h
        refine ⟨ready_copied s slack, ?_⟩
        rintro slack' ⟨⟩
        exact ⟨Start.fits_envBlock_iff.mp hfit, rfl⟩
      · rw [smpCpyEnvirons_outside slack hfit] at h
        cases h

/-- What the environment of a call that fits reads as. -/
theorem reads_environ_iff (hlong : s.arg0.length < s.title.length)
    {envAnswer : Option (List Int8)} {status : Status} {st' : Proc} (hfit : s.AllFits)
    (h : smpCpyEnvirons envAnswer ⟨.area, s.area.length - 1⟩ s.proc = .ok (status, st))
    (harea : st'.mem .area = s.finalArea) (henviron : st'.mem .environ = st.mem .environ)
    (hptrs : st'.environ = st.environ) :
    st'.Reads st'.environ s.envs ↔ s.EnvKept envAnswer := by
  cases envAnswer with
  | none =>
      rw [smpCpyEnvirons_refused] at h
      cases h
      rw [hptrs, Start.envKept_none_iff hlong hfit, ← harea]
      exact reads_offsets_iff
  | some slack =>
      obtain ⟨hfits, rfl⟩ := (ready_of_smpCpyEnvirons h).2 slack rfl
      have hcopy : (s.copied slack).mem .environ = s.envCopy slack := by
        change update s.mem .environ (s.envCopy slack) .environ = _
        rw [update_self]
      have hreads : st'.Reads st'.environ s.envs ↔
          packed 0 s.envs <+: (st'.mem .environ).drop 0 := by
        rw [hptrs]
        exact reads_offsets_iff
      rw [hreads, henviron, hcopy, List.drop_zero, Start.envKept_some_iff]
      exact (and_iff_right hfits).symm

/-- If everything fits and the environment is kept, a title that is too long for
`argv[0]` is set. -/
theorem setTitle_preserves (hlong : s.arg0.length < s.title.length)
    {envAnswer argAnswer : Option (List Int8)} (hanswer : s.args = [] ∨ argAnswer ≠ none)
    (hfit : s.AllFits) (hkept : s.EnvKept envAnswer) :
    ∃ st, s.setTitle envAnswer argAnswer = .ok (.ok, st) ∧ s.Preserves st := by
  have hcopied : ∃ status st,
      smpCpyEnvirons envAnswer ⟨.area, s.area.length - 1⟩ s.proc = .ok (status, st) := by
    cases envAnswer with
    | none => exact ⟨_, _, smpCpyEnvirons_refused s⟩
    | some slack =>
        have hblock := (Start.envKept_some_iff.mp hkept).1
        exact ⟨_, _, smpCpyEnvirons_fits slack (Start.fits_envBlock_iff.mpr hblock)⟩
  obtain ⟨status, st, hrun⟩ := hcopied
  obtain ⟨st', hreset, harea, henviron, htitle, hargv, hptrs⟩ :=
    reset_good (ready_of_smpCpyEnvirons hrun).1 (Start.title_ne_nil hlong) hanswer hfit
  refine ⟨st', ?_, htitle, ?_, ?_⟩
  · rw [setTitle_long hlong, hrun, Run.ok_bind, hreset]
    rfl
  · rw [hargv, reads_offsets_iff, harea, Strings.packed_cons, List.drop_zero, Start.finalArea,
      List.prefix_append_right_inj, List.cons_prefix_cons]
    exact ⟨rfl, List.prefix_append _ _⟩
  · exact (reads_environ_iff hlong hfit hrun harea henviron hptrs).mpr hkept

/-- A call that sets a title too long for `argv[0]` had everything fit and the
environment kept. -/
theorem of_setTitle (hlong : s.arg0.length < s.title.length)
    {envAnswer argAnswer : Option (List Int8)} {status : Status} {st' : Proc}
    (h : s.setTitle envAnswer argAnswer = .ok (status, st'))
    (hargv : st'.Reads st'.argv (s.title :: s.args)) (henvs : st'.Reads st'.environ s.envs) :
    (s.args = [] ∨ argAnswer ≠ none) ∧ s.AllFits ∧ s.EnvKept envAnswer := by
  rw [setTitle_long hlong] at h
  obtain ⟨⟨status₁, st₁⟩, hcopy, h⟩ := Run.bind_eq_ok.mp h
  obtain ⟨⟨status₂, st₂⟩, hreset, h⟩ := Run.bind_eq_ok.mp h
  cases h
  have hready := (ready_of_smpCpyEnvirons hcopy).1
  have hcond : (s.args = [] ∨ argAnswer ≠ none) ∧ s.AllFits := by
    by_contra hcond
    exact reset_bad hready hlong hcond hreset hargv
  obtain ⟨st₃, hgood, harea, henviron, -, -, hptrs⟩ :=
    reset_good hready (Start.title_ne_nil hlong) hcond.1 hcond.2
  obtain rfl : st₂ = st₃ := by
    have heq := hreset.symm.trans hgood
    simp only [Except.ok.injEq, Prod.mk.injEq] at heq
    exact heq.2
  exact ⟨hcond.1, hcond.2, (reads_environ_iff hlong hcond.2 hcopy harea henviron hptrs).mp henvs⟩

theorem status_of_setTitle (hlong : s.arg0.length < s.title.length)
    {envAnswer argAnswer : Option (List Int8)} {status : Status} {st' : Proc}
    (h : s.setTitle envAnswer argAnswer = .ok (status, st')) : status = .ok := by
  rw [setTitle_long hlong] at h
  obtain ⟨r₁, -, h⟩ := Run.bind_eq_ok.mp h
  obtain ⟨r₂, -, h⟩ := Run.bind_eq_ok.mp h
  cases h
  rfl

namespace Start

theorem stringAt_shortArea : StringAt 0 s.shortArea 0 s.title := by
  have hnul : ∀ k, List.replicate k (0 : Int8) ++ 0 :: s.behind =
      0 :: (List.replicate k 0 ++ s.behind) := by
    intro k
    rw [← List.cons_append, ← List.replicate_succ, List.replicate_succ', List.append_assoc,
      List.singleton_append]
  rw [shortArea, hnul]
  exact Strings.stringAt_iff.mpr ⟨_, rfl⟩

theorem drop_shortArea (h : s.title.length ≤ s.arg0.length) :
    s.shortArea.drop (s.arg0.length + 1) = s.behind := by
  have hfront : s.shortArea =
      (s.title ++ List.replicate (s.arg0.length - s.title.length) 0 ++ [0]) ++ s.behind := by
    simp [shortArea]
  have hlen : (s.title ++ List.replicate (s.arg0.length - s.title.length) 0 ++ [0]).length =
      s.arg0.length + 1 := by
    simp only [List.length_append, List.length_replicate, List.length_singleton]
    omega
  rw [hfront, ← hlen, List.drop_left]

end Start

/-- A title that is no longer than `argv[0]` is set. -/
theorem setTitle_short_preserves (h : s.title.length ≤ s.arg0.length)
    (envAnswer argAnswer : Option (List Int8)) :
    ∃ st, s.setTitle envAnswer argAnswer = .ok (.ok, st) ∧ s.Preserves st := by
  have hbehind := Start.drop_shortArea h
  refine ⟨_, setTitle_short h _ _, ?_, ?_, ?_⟩
  · change update s.mem .area s.shortArea .title = _
    rw [update_of_ne (by decide)]
    rfl
  · have hargs : packed 0 s.args <+: s.shortArea.drop (s.arg0.length + 1) := by
      rw [hbehind]
      exact List.prefix_append _ _
    apply List.Forall₂.cons
    · change StringAt 0 (update s.mem .area s.shortArea .area) 0 s.title
      rw [update_self]
      exact Start.stringAt_shortArea
    · rw [Nat.zero_add]
      apply reads_offsets_iff.mpr
      change _ <+: (update s.mem .area s.shortArea .area).drop _
      rwa [update_self]
  · apply reads_offsets_iff.mpr
    change _ <+: (update s.mem .area s.shortArea .area).drop _
    have henvs : s.shortArea.drop s.argvEnd = packed 0 s.envs := by
      rw [s.argvEnd_eq, ← List.drop_drop, hbehind, Start.behind, List.drop_left]
    rw [update_self]
    exact ⟨[], by rw [List.append_nil, henvs]⟩

/-- With both blocks granted, and bytes behind that of the environment that belong to
nothing, the call sets the title and preserves arguments and environment precisely if the
title is no longer than `argv[0]`, or title and arguments fit into the area and the last
environment string is not empty or followed by a null byte behind its block. -/
theorem preserves_iff (s : Start) (x : Int8) (envSlack argSlack : List Int8) :
    (∃ st, s.setTitle (some (x :: envSlack)) (some argSlack) = .ok (.ok, st) ∧
        s.Preserves st) ↔
      s.title.length ≤ s.arg0.length ∨ s.AllFits ∧ (s.lastEnv ≠ [] ∨ x = 0) := by
  have hkept : s.EnvKept (some (x :: envSlack)) ↔ s.lastEnv ≠ [] ∨ x = 0 := by
    simp [Start.EnvKept]
  by_cases hshort : s.title.length ≤ s.arg0.length
  · exact iff_of_true (setTitle_short_preserves hshort _ _) (Or.inl hshort)
  · rw [← hkept, or_iff_right hshort]
    constructor
    case mp =>
      rintro ⟨st, hrun, hst⟩
      exact (of_setTitle (by omega) hrun hst.argv hst.environ).2
    case mpr =>
      rintro ⟨hfit, hk⟩
      exact setTitle_preserves (by omega) (Or.inr (by simp)) hfit hk

/-- The process with `argv` `{"a"}` and `environ` `{"ee", ""}`, and the title `"ab"`. -/
def Start.emptyEnv : Start where
  title := [97, 98]
  arg0 := [97]
  args := []
  envs := [[101, 101], []]
  envs_ne_nil := by decide
  title_noNul := by decide
  noNul := by decide

/-- The copy of an empty last environment string lies behind its block. -/
theorem preserves_fails : ¬ ∀ (s : Start) (x : Int8) (envSlack argSlack : List Int8), s.AllFits →
    ∃ st, s.setTitle (some (x :: envSlack)) (some argSlack) = .ok (.ok, st) ∧
      s.Preserves st := by
  intro hall
  have hfit : Start.emptyEnv.AllFits := by
    change 2 + 1 + 0 ≤ 6
    omega
  obtain ⟨st, hrun, hst⟩ := hall Start.emptyEnv 1 [] [] hfit
  obtain ⟨st', hrun', hcopy, hptrs⟩ :
      ∃ st', Start.emptyEnv.setTitle (some [1]) (some []) = .ok (.ok, st') ∧
        st'.mem .environ = [101, 101, 0, 1] ∧
        st'.environ = [⟨.environ, 0⟩, ⟨.environ, 3⟩] := ⟨_, rfl, rfl, rfl⟩
  obtain rfl : st' = st := by
    simpa using hrun'.symm.trans hrun
  have hreads := hst.environ
  rw [hptrs] at hreads
  have hlast : StringAt 0 (st'.mem .environ) 3 [] :=
    (List.forall₂_cons.mp (List.forall₂_cons.mp hreads).2).1
  rw [hcopy] at hlast
  exact absurd hlast (by decide)

/-- A call with the answers does no damage: environment and arguments read as before, and
it does not report success unless `argv[0]` reads as the title. -/
def Start.NoDamage (s : Start) (envAnswer argAnswer : Option (List Int8)) : Prop :=
  ∃ status st, s.setTitle envAnswer argAnswer = .ok (status, st) ∧
    st.Reads st.environ s.envs ∧ st.Reads st.argv.tail s.args ∧
    (status = .ok → st.Reads (st.argv.take 1) [s.title])

/-- Setting a title that is too long for `argv[0]` does no damage precisely if there are
no arguments or they are copied, title and arguments fit into the area, and the
environment is kept. -/
theorem noDamage_iff (s : Start) (hlong : s.arg0.length < s.title.length)
    (envAnswer argAnswer : Option (List Int8)) :
    s.NoDamage envAnswer argAnswer ↔
      (s.args = [] ∨ argAnswer ≠ none) ∧ s.AllFits ∧ s.EnvKept envAnswer := by
  constructor
  case mp =>
    rintro ⟨status, st, hrun, henvs, hargs, htitle⟩
    have htitle := htitle (status_of_setTitle hlong hrun)
    have hargv : st.Reads st.argv (s.title :: s.args) := by
      rw [← List.take_append_drop 1 st.argv, List.drop_one]
      exact List.rel_append htitle hargs
    exact of_setTitle hlong hrun hargv henvs
  case mpr =>
    rintro ⟨hanswer, hfit, hkept⟩
    obtain ⟨st, hrun, hst⟩ := setTitle_preserves hlong hanswer hfit hkept
    cases hargv : st.argv with
    | nil =>
        have hreads := hst.argv
        rw [hargv] at hreads
        cases hreads
    | cons p ps =>
        have hreads := hst.argv
        rw [hargv] at hreads
        obtain ⟨hp, hps⟩ := List.forall₂_cons.mp hreads
        refine ⟨.ok, st, hrun, hst.environ, ?_, fun _ => ?_⟩
        · rw [hargv]
          exact hps
        · rw [hargv]
          exact List.Forall₂.cons hp List.Forall₂.nil

/-- The process with `argv` `{"a", "d"}` and `environ` `{"d", ""}`, and the title `"abc"`, which
moves the argument over the same string of the environment. -/
def Start.repeated : Start where
  title := [97, 98, 99]
  arg0 := [97]
  args := [[100]]
  envs := [[100], []]
  envs_ne_nil := by decide
  title_noNul := by decide
  noNul := by decide

/-- The theorem at a process whose environment is copied, and at one where that copy is refused
and the other is granted: without the copies of its arguments it would be damaged. -/
theorem noDamage_iff_refused : Start.shortest.NoDamage (some [0]) none ∧
    Start.repeated.NoDamage none (some [5]) ∧ ¬ Start.repeated.NoDamage none none := by
  have hfit : Start.repeated.AllFits := by
    change 3 + 1 + 2 ≤ 7
    omega
  have hkept : Start.repeated.EnvKept none :=
    ⟨[[97, 98, 99]], [], [100], [], 1, rfl, rfl, rfl⟩
  refine ⟨?_, ?_, ?_⟩
  · have hshort : Start.shortest.AllFits := by
      change 2 + 1 + 0 ≤ 4
      omega
    exact (noDamage_iff Start.shortest (by decide) (some [0]) none).mpr
      ⟨Or.inl rfl, hshort, Or.inr rfl⟩
  · exact (noDamage_iff Start.repeated (by decide) none (some [5])).mpr
      ⟨Or.inr (by simp), hfit, hkept⟩
  · intro hall
    rcases ((noDamage_iff Start.repeated (by decide) none none).mp hall).1 with hargs | hanswer
    · exact absurd hargs (by decide)
    · exact hanswer rfl

/-- Without a copy of the environment, the title is written over it all the same. -/
theorem noDamage_fails : ¬ ∀ s : Start, s.arg0.length < s.title.length →
    ∀ envAnswer argAnswer, s.NoDamage envAnswer argAnswer := by
  intro hall
  obtain ⟨status, st, hrun, henvs, -, -⟩ := hall Start.shortest (by decide) none none
  obtain ⟨st', hrun', harea, hptrs⟩ :
      ∃ st', Start.shortest.setTitle none none = .ok (.ok, st') ∧
        st'.mem .area = [97, 98, 0, 0] ∧ st'.environ = [⟨.area, 2⟩] := ⟨_, rfl, rfl, rfl⟩
  obtain rfl : st' = st := by
    have heq := hrun'.symm.trans hrun
    simp only [Except.ok.injEq, Prod.mk.injEq] at heq
    exact heq.2
  rw [hptrs] at henvs
  have hfirst : StringAt 0 (st'.mem .area) 2 [101] := (List.forall₂_cons.mp henvs).1
  rw [harea] at hfirst
  exact absurd hfirst (by decide)

end Title
end Smpcil
