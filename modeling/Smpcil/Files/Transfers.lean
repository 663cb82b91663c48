import Smpcil.Files.Model
import Smpcil.Foundations.Linearizability

/-!
# Whole transfers

Threads of any number of processes read whole files, write them and append to them, through
descriptors that they open and close for each transfer, in any interleaving of their system calls
and with every call answered in any documented way.

Main results:

- Theorem {lit}`code_eq`: a transfer opens, moves bytes once, and closes what it opened.
- Definition {lit}`outline`: what holds at every point of a transfer.
- Theorem {lit}`transfers_linearizable`: transfers act on the files one after another, and leave
  the descriptors as they were.
-/

namespace Smpcil
namespace Files

open Programs

/-! ## Requests -/

/-- A buffer handed to a transfer: none, or one that has at least the bytes to be moved. -/
structure Buffer where
  bytes : Option (List UInt8)
  size : Nat
  fits : ∀ b, bytes = some b → size ≤ b.length

/-- The three transfers. -/
inductive Kind where
  | readFile
  | writeFile
  | writeApend
deriving DecidableEq, Repr

/-- A call of one of them. -/
structure Request where
  kind : Kind
  file : String
  buf : Buffer

/-- What a transfer returns, and the buffer then. -/
structure Outcome where
  ret : Int
  buf : Option (List UInt8)
deriving DecidableEq, Repr

/-- The function called. -/
def code (r : Request) : Sys Outcome :=
  match r.kind with
  | .readFile => do
      let a ← smpReadFile r.file r.buf.bytes r.buf.size
      return ⟨a.1, a.2⟩
  | .writeFile => do
      let ret ← smpWriteFile r.file r.buf.bytes r.buf.size
      return ⟨ret, r.buf.bytes⟩
  | .writeApend => do
      let ret ← smpFileWriteApend r.file r.buf.bytes r.buf.size
      return ⟨ret, r.buf.bytes⟩

/-- The flags that a file is opened with. -/
def Kind.flg : Kind → Nat
  | .readFile => smpFileRdonly
  | .writeFile => smpFileWronly ||| smpFileCreat
  | .writeApend => smpFileWronly ||| smpFileAppend ||| smpFileCreat

/-- The mode that a file is opened with. -/
def Kind.mode : Kind → Option Int
  | .readFile => none
  | _ => some smpFileDefMode

/-- The call that moves the bytes. -/
def Request.move (r : Request) (b : List UInt8) (fd : Int) : Syscall :=
  match r.kind with
  | .readFile => .sysRead fd r.buf.size
  | _ => .sysWrite fd (b.take r.buf.size)

/-- The outcome for an answer of that call. -/
def Request.outcome (r : Request) (b : List UInt8) (a : Answer) : Outcome where
  ret := if a.ret ≥ 0 then a.ret else smpFailure
  buf := some (match r.kind with
    | .readFile => filled b a
    | _ => b)

/-- The outcome of a request that is refused. -/
def Request.refusal (r : Request) : Outcome := ⟨smpFailure, r.buf.bytes⟩

/-- What is left of a transfer when its file is open. -/
def Request.opened (r : Request) (b : List UInt8) (fd : Int) : Sys Outcome :=
  .call (r.move b fd) fun a => .call (.sysClose fd) fun _ => .ret (r.outcome b a)

/-- A transfer from a buffer or to it. -/
def Request.transfer (r : Request) (b : List UInt8) : Sys Outcome :=
  .call (.sysOpen r.file r.kind.flg r.kind.mode) fun a =>
    if a.ret = -1 then .ret r.refusal else r.opened b a.ret

theorem smpOpen_eq (file : String) (flg : Nat) (mode : Int) : smpOpen file flg mode =
    .call (.sysOpen file flg (if mode = smpFileNoMode then none else some mode)) fun a =>
      .ret a.ret := by
  unfold smpOpen
  split <;> exact congrArg (Prog.call _) (funext ret_or_failure)

theorem smpRead_some {fd : Int} {b : List UInt8} {size : Nat} (hsize : size ≠ 0) :
    smpRead fd (some b) size = .call (.sysRead fd size) fun a =>
      .ret (if a.ret ≥ 0 then a.ret else smpFailure, some (filled b a)) := by
  simp only [smpRead, if_neg hsize, Prog.invoke_bind, Prog.pure_eq]
  congr
  funext a
  split <;> rfl

theorem smpWrite_some {fd : Int} {b : List UInt8} {size : Nat} (hsize : size ≠ 0) :
    smpWrite fd (some b) size = .call (.sysWrite fd (b.take size)) fun a =>
      .ret (if a.ret ≥ 0 then a.ret else smpFailure) := by
  simp only [smpWrite, if_neg hsize, Prog.invoke_bind, Prog.pure_eq]
  congr
  funext a
  split <;> rfl

/-- A request is refused without a call, or opens its file, moves bytes once and closes what it
has opened. -/
theorem code_eq (r : Request) : code r =
    match r.buf.bytes with
    | none => .ret r.refusal
    | some b => if r.buf.size = 0 then .ret r.refusal else r.transfer b := by
  obtain ⟨kind, file, bytes, size, fits⟩ := r
  cases bytes with
  | none => cases kind <;> rfl
  | some b =>
      by_cases hsize : size = 0
      · subst hsize
        cases kind <;> rfl
      · have hnull : ¬ (some b = none ∨ size = 0) := by simp [hsize]
        dsimp only
        rw [if_neg hsize]
        cases kind <;>
          simp only [code, smpReadFile, smpWriteFile, smpFileWriteApend, if_neg hnull, smpOpen_eq,
            smpRead_some hsize, smpWrite_some hsize, smpClose, Prog.call_bind, Prog.ret_bind,
            Prog.invoke_bind, Prog.pure_eq, Prog.bind_ite] <;>
          rfl

/-! ## What a transfer does to the files -/

section Effects

variable {ι π ν : Type} [DecidableEq ν]

/-- The contents of the files; a missing file has none. -/
def view (k : Kern ι π ν) : ν → List UInt8 := fun f => (k.content f).getD []

/-- A transfer has failed: a buffer that it only reads is as it was. -/
def Failed (r : Request) (x : Outcome) : Prop :=
  x.ret = smpFailure ∧ (r.kind ≠ .readFile → x.buf = r.buf.bytes)

/-- What a transfer does to the contents of the files, for the outcome that it has. -/
inductive Effect (path : String → ν) (r : Request) :
    Outcome → (ν → List UInt8) → (ν → List UInt8) → Prop
  | failed {x : Outcome} {c : ν → List UInt8} : Failed r x → Effect path r x c c
  | read {b data : List UInt8} {c : ν → List UInt8} : r.kind = .readFile →
      r.buf.bytes = some b → 0 < r.buf.size → data <+: c (path r.file) →
      data.length ≤ r.buf.size → (data = [] → c (path r.file) = []) →
      Effect path r ⟨data.length, some (data ++ b.drop data.length)⟩ c c
  | wrote {b : List UInt8} {n : Nat} {c : ν → List UInt8} : r.kind = .writeFile →
      r.buf.bytes = some b → 0 < r.buf.size → n ≤ r.buf.size →
      Effect path r ⟨n, some b⟩ c (Function.update c (path r.file)
        (b.take n ++ (c (path r.file)).drop n))
  | appended {b : List UInt8} {n : Nat} {c : ν → List UInt8} : r.kind = .writeApend →
      r.buf.bytes = some b → 0 < r.buf.size → n ≤ r.buf.size →
      Effect path r ⟨n, some b⟩ c (Function.update c (path r.file)
        (c (path r.file) ++ b.take n))

theorem overwrite_zero (c bytes : List UInt8) :
    overwrite c 0 bytes = bytes ++ c.drop bytes.length := by
  unfold overwrite
  by_cases h : bytes = []
  · rw [if_pos h, h]
    rfl
  · rw [if_neg h]
    simp

theorem overwrite_length (c bytes : List UInt8) : overwrite c c.length bytes = c ++ bytes := by
  unfold overwrite
  by_cases h : bytes = []
  · rw [if_pos h, h, List.append_nil]
  · rw [if_neg h]
    simp

theorem view_setContent (k : Kern ι π ν) (f : ν) (c : List UInt8) :
    view (k.setContent f c) = Function.update (view k) f c := by
  funext g
  by_cases hg : g = f
  · subst hg
    simp [view, Kern.setContent]
  · simp [view, Kern.setContent, hg]

omit [DecidableEq ν] in
theorem view_eq {k : Kern ι π ν} {f : ν} {c : List UInt8} (hc : k.content f = some c) :
    view k f = c := by
  rw [view, hc]
  rfl

theorem setContent_ne_none (k : Kern ι π ν) (f : ν) (c : List UInt8) :
    (k.setContent f c).content f ≠ none := by
  rw [show (k.setContent f c).content f = some c from Function.update_self _ _ _]
  exact Option.some_ne_none c

/-- Opening a file without `O_TRUNC` changes no content. -/
theorem view_afterOpen {k : Kern ι π ν} {f : ν} {flg : Nat} (hkeep : truncates flg = false) :
    view (k.setContent f (afterOpen flg (k.content f))) = view k := by
  rw [view_setContent, afterOpen, hkeep]
  exact Function.update_eq_self f (view k)

/-- No transfer opens its file with `O_TRUNC`. -/
theorem truncates_flg (kind : Kind) : truncates kind.flg = false := by
  cases kind <;> decide

end Effects

/-! ## Descriptors -/

section Descriptors

variable {ι π ν : Type}

/-- A descriptor of a thread's process, and the description that the thread has opened for it. -/
def Has (h : Host ι π ν) (k : Kern ι π ν) (i : ι) (fd : Int) (o : Nat) (d : Description ι ν) :
    Prop :=
  k.fds (h.proc i) fd = some o ∧ k.desc o = some d ∧ d.opener = i

/-- A thread has opened nothing since the start. -/
def Idle (h : Host ι π ν) (k₀ : Kern ι π ν) (i : ι) (k : Kern ι π ν) : Prop :=
  ∀ fd o d, Has h k i fd o d → k₀.fds (h.proc i) fd = some o

/-- A thread has opened one descriptor since the start. -/
structure Holds (h : Host ι π ν) (k₀ : Kern ι π ν) (i : ι) (fd : Int) (d : Description ι ν)
    (k : Kern ι π ν) : Prop where
  has : ∃ o, Has h k i fd o d ∧ ∀ q fd', k₀.fds q fd' ≠ some o
  free : k₀.fds (h.proc i) fd = none
  rest : ∀ fd' o d', fd' ≠ fd → Has h k i fd' o d' → k₀.fds (h.proc i) fd' = some o

/-- The descriptors of the start are as they were, and every other one was opened by a thread of
its process. -/
structure Env (h : Host ι π ν) (k₀ k : Kern ι π ν) : Prop where
  kept : ∀ q fd o, k₀.fds q fd = some o → k.fds q fd = some o ∧ k.desc o = k₀.desc o
  ours : ∀ q fd o, k.fds q fd = some o → k₀.fds q fd = none →
    ∃ d, k.desc o = some d ∧ h.proc d.opener = q

/-- What a thread has opened stays as it is, and files that exist go on existing. -/
structure Frame (h : Host ι π ν) (j : ι) (k k' : Kern ι π ν) : Prop where
  has : ∀ fd o d, Has h k' j fd o d ↔ Has h k j fd o d
  content : ∀ f, k.content f ≠ none → k'.content f ≠ none

variable {h : Host ι π ν} {k₀ k k' : Kern ι π ν} {i j : ι} {fd : Int} {o : Nat}
  {d d' : Description ι ν}

theorem Env.refl (k : Kern ι π ν) : Env h k k where
  kept := fun _ _ _ hfd => ⟨hfd, rfl⟩
  ours := by
    intro q fd o hfd hnone
    rw [hfd] at hnone
    cases hnone

theorem Idle.refl (k : Kern ι π ν) : Idle h k i k := fun _ _ _ hhas => hhas.1

theorem Frame.refl : Frame h j k k := ⟨fun _ _ _ => Iff.rfl, fun _ hf => hf⟩

theorem Idle.frame (hidle : Idle h k₀ j k) (hframe : Frame h j k k') : Idle h k₀ j k' :=
  fun fd o d hhas => hidle fd o d ((hframe.has fd o d).mp hhas)

theorem Holds.frame (hholds : Holds h k₀ j fd d k) (hframe : Frame h j k k') :
    Holds h k₀ j fd d k' where
  has := by
    obtain ⟨o, hhas, hnew⟩ := hholds.has
    exact ⟨o, (hframe.has fd o d).mpr hhas, hnew⟩
  free := hholds.free
  rest := fun fd' o d' hne hhas => hholds.rest fd' o d' hne ((hframe.has fd' o d').mp hhas)

/-! ### Changes of a description -/

theorem setDesc_self (k : Kern ι π ν) (o : Nat) (d : Description ι ν) :
    (k.setDesc o d).desc o = some d := Function.update_self _ _ _

theorem setDesc_of_ne (k : Kern ι π ν) (d : Description ι ν) {o o₁ : Nat} (ho : o₁ ≠ o) :
    (k.setDesc o d).desc o₁ = k.desc o₁ := Function.update_of_ne ho _ _

/-- Another thread's description. -/
theorem has_setDesc_of_ne (hdesc : k.desc o = some d) (hd : d.opener ≠ j)
    (hd' : d'.opener = d.opener) {o₁ : Nat} {d₁ : Description ι ν} :
    Has h (k.setDesc o d') j fd o₁ d₁ ↔ Has h k j fd o₁ d₁ := by
  unfold Has
  by_cases ho : o₁ = o
  · subst ho
    rw [setDesc_self, hdesc, Option.some.injEq, Option.some.injEq]
    constructor
    · rintro ⟨-, rfl, hj⟩
      exact absurd (hd' ▸ hj) hd
    · rintro ⟨-, rfl, hj⟩
      exact absurd hj hd
  · rw [setDesc_of_ne k d' ho]
    rfl

/-- A description that none of the first descriptors leads to. -/
theorem Env.setDesc (henv : Env h k₀ k) (hnew : ∀ q fd', k₀.fds q fd' ≠ some o)
    (hdesc : k.desc o = some d) (hd' : d'.opener = d.opener) : Env h k₀ (k.setDesc o d') where
  kept := by
    intro q fd o₁ hfd
    obtain ⟨hfd', hdesc'⟩ := henv.kept q fd o₁ hfd
    have ho : o₁ ≠ o := fun heq => hnew q fd (heq ▸ hfd)
    exact ⟨hfd', (setDesc_of_ne k d' ho).trans hdesc'⟩
  ours := by
    intro q fd o₁ hfd hnone
    obtain ⟨d₁, hd₁, hq⟩ := henv.ours q fd o₁ hfd hnone
    by_cases ho : o₁ = o
    · subst ho
      rw [hdesc, Option.some.injEq] at hd₁
      subst hd₁
      exact ⟨d', setDesc_self k o₁ d', by rw [hd', hq]⟩
    · exact ⟨d₁, (setDesc_of_ne k d' ho).trans hd₁, hq⟩

/-- The description of the descriptor that a thread holds. -/
theorem Holds.setDesc (hholds : Holds h k₀ i fd d k) (hfd : k.fds (h.proc i) fd = some o)
    (hdesc : k.desc o = some d) (hd' : d'.opener = i) :
    Holds h k₀ i fd d' (k.setDesc o d') := by
  obtain ⟨o₁, ⟨hfd₁, hdesc₁, hi⟩, hnew⟩ := hholds.has
  rw [hfd, Option.some.injEq] at hfd₁
  subst hfd₁
  constructor
  case has => exact ⟨o, ⟨hfd, setDesc_self k o d', hd'⟩, hnew⟩
  case free => exact hholds.free
  case rest =>
    intro fd' o₂ d₂ hne hhas
    obtain ⟨hfd₂, hdesc₂, hop⟩ := hhas
    by_cases ho : o₂ = o
    · subst ho
      exact hholds.rest fd' o₂ d hne ⟨hfd₂, hdesc, hi⟩
    · exact hholds.rest fd' o₂ d₂ hne
        ⟨hfd₂, (setDesc_of_ne k d' ho).symm.trans hdesc₂, hop⟩

/-! ### Opening and closing -/

variable [DecidableEq π]

theorem setFd_fds (k : Kern ι π ν) (p q : π) (fd fd' : Int) (v : Option Nat) :
    (k.setFd p fd v).fds q fd' = if q = p ∧ fd' = fd then v else k.fds q fd' := by
  unfold Kern.setFd
  dsimp only
  by_cases hq : q = p
  · subst hq
    rw [Function.update_self]
    by_cases hfd : fd' = fd
    · rw [if_pos ⟨rfl, hfd⟩, hfd, Function.update_self]
    · rw [if_neg fun hboth => hfd hboth.2, Function.update_of_ne hfd]
  · rw [Function.update_of_ne hq, if_neg fun hboth => hq hboth.1]

/-- The kernel when a thread has been given a descriptor. -/
def Kern.open (k : Kern ι π ν) (h : Host ι π ν) (i : ι) (fd : Int) (o : Nat)
    (d : Description ι ν) : Kern ι π ν :=
  (k.setDesc o d).setFd (h.proc i) fd (some o)

/-- A descriptor that a thread is given is the only change to what threads have. -/
theorem has_open (hfree : k.fds (h.proc i) fd = none) (hnew : ∀ q fd', k.fds q fd' ≠ some o)
    (hd : d.opener = i) {fd₁ : Int} {o₁ : Nat} {d₁ : Description ι ν} :
    Has h (k.open h i fd o d) j fd₁ o₁ d₁ ↔
      Has h k j fd₁ o₁ d₁ ∨ (j = i ∧ fd₁ = fd) ∧ o₁ = o ∧ d₁ = d := by
  unfold Has Kern.open
  rw [setFd_fds]
  by_cases hat : h.proc j = h.proc i ∧ fd₁ = fd
  · obtain ⟨hproc, rfl⟩ := hat
    rw [if_pos ⟨hproc, rfl⟩, hproc, hfree]
    constructor
    · rintro ⟨ho, hdesc, hop⟩
      cases ho
      have hd₁ : some d = some d₁ := (setDesc_self k o d).symm.trans hdesc
      cases hd₁
      exact .inr ⟨⟨hop ▸ hd, rfl⟩, rfl, rfl⟩
    · rintro (⟨ho, -⟩ | ⟨⟨rfl, -⟩, rfl, rfl⟩)
      · cases ho
      · exact ⟨rfl, setDesc_self k o₁ d₁, hd⟩
  · rw [if_neg hat]
    have hother : k.fds (h.proc j) fd₁ = some o₁ → (k.setDesc o d).desc o₁ = k.desc o₁ := by
      intro hfd
      have ho : o₁ ≠ o := fun heq => hnew (h.proc j) fd₁ (heq ▸ hfd)
      exact setDesc_of_ne k d ho
    constructor
    · rintro ⟨hfd, hdesc, hop⟩
      exact .inl ⟨hfd, (hother hfd).symm.trans hdesc, hop⟩
    · rintro (⟨hfd, hdesc, hop⟩ | ⟨⟨rfl, rfl⟩, -⟩)
      · exact ⟨hfd, (hother hfd).trans hdesc, hop⟩
      · exact absurd ⟨rfl, rfl⟩ hat

/-- A descriptor that a thread closes is the only one that a thread loses. -/
theorem has_close (hhas : Has h k i fd o d) {fd₁ : Int} {o₁ : Nat} {d₁ : Description ι ν} :
    Has h (k.setFd (h.proc i) fd none) j fd₁ o₁ d₁ ↔
      Has h k j fd₁ o₁ d₁ ∧ ¬ (j = i ∧ fd₁ = fd) := by
  obtain ⟨hfd, hdesc, hop⟩ := hhas
  unfold Has
  rw [setFd_fds]
  by_cases hat : h.proc j = h.proc i ∧ fd₁ = fd
  · obtain ⟨hproc, rfl⟩ := hat
    rw [if_pos ⟨hproc, rfl⟩, hproc, hfd]
    constructor
    · rintro ⟨ho, -⟩
      cases ho
    · rintro ⟨⟨ho, hdesc₁, hop₁⟩, hne⟩
      -- the description has one opener
      cases ho
      have hd₁ : some d = some d₁ := hdesc.symm.trans hdesc₁
      cases hd₁
      exact absurd ⟨hop₁ ▸ hop, rfl⟩ hne
  · rw [if_neg hat]
    constructor
    · intro hhas
      refine ⟨hhas, ?_⟩
      rintro ⟨rfl, rfl⟩
      exact hat ⟨rfl, rfl⟩
    · exact And.left

theorem Env.open (henv : Env h k₀ k) (hfree : k.fds (h.proc i) fd = none)
    (hnew : ∀ q fd', k.fds q fd' ≠ some o) (hd : d.opener = i) :
    Env h k₀ (k.open h i fd o d) where
  kept := by
    intro q fd₁ o₁ hfd₁
    obtain ⟨hfd, hdesc⟩ := henv.kept q fd₁ o₁ hfd₁
    have ho : o₁ ≠ o := fun heq => hnew q fd₁ (heq ▸ hfd)
    constructor
    · rw [Kern.open, setFd_fds, if_neg]
      · exact hfd
      · rintro ⟨rfl, rfl⟩
        rw [hfree] at hfd
        cases hfd
    · exact (setDesc_of_ne k d ho).trans hdesc
  ours := by
    intro q fd₁ o₁ hfd₁ hnone
    rw [Kern.open, setFd_fds] at hfd₁
    by_cases hat : q = h.proc i ∧ fd₁ = fd
    · rw [if_pos hat] at hfd₁
      cases hfd₁
      exact ⟨d, setDesc_self k o d, by rw [hd, hat.1]⟩
    · rw [if_neg hat] at hfd₁
      obtain ⟨d₁, hd₁, hq⟩ := henv.ours q fd₁ o₁ hfd₁ hnone
      have ho : o₁ ≠ o := fun heq => hnew q fd₁ (heq ▸ hfd₁)
      exact ⟨d₁, (setDesc_of_ne k d ho).trans hd₁, hq⟩

theorem Env.close (henv : Env h k₀ k) (hfree : k₀.fds (h.proc i) fd = none) :
    Env h k₀ (k.setFd (h.proc i) fd none) where
  kept := by
    intro q fd₁ o₁ hfd₁
    obtain ⟨hfd, hdesc⟩ := henv.kept q fd₁ o₁ hfd₁
    refine ⟨?_, hdesc⟩
    rw [setFd_fds, if_neg]
    · exact hfd
    · rintro ⟨rfl, rfl⟩
      rw [hfree] at hfd₁
      cases hfd₁
  ours := by
    intro q fd₁ o₁ hfd₁ hnone
    rw [setFd_fds] at hfd₁
    by_cases hat : q = h.proc i ∧ fd₁ = fd
    · rw [if_pos hat] at hfd₁
      cases hfd₁
    · rw [if_neg hat] at hfd₁
      exact henv.ours q fd₁ o₁ hfd₁ hnone

/-- An idle thread that opens a descriptor holds it. -/
theorem Idle.open (hidle : Idle h k₀ i k) (henv : Env h k₀ k)
    (hfree : k.fds (h.proc i) fd = none) (hnew : ∀ q fd', k.fds q fd' ≠ some o)
    (hd : d.opener = i) : Holds h k₀ i fd d (k.open h i fd o d) where
  has := by
    refine ⟨o, (has_open hfree hnew hd).mpr (.inr ⟨⟨rfl, rfl⟩, rfl, rfl⟩), ?_⟩
    intro q fd' hfd'
    exact hnew q fd' (henv.kept q fd' o hfd').1
  free := by
    cases hfd : k₀.fds (h.proc i) fd with
    | none => rfl
    | some o₁ =>
        rw [(henv.kept _ _ _ hfd).1] at hfree
        cases hfree
  rest := by
    intro fd₁ o₁ d₁ hne hhas
    rcases (has_open hfree hnew hd).mp hhas with hhas | ⟨⟨-, heq⟩, -⟩
    · exact hidle fd₁ o₁ d₁ hhas
    · exact absurd heq hne

/-- A thread that closes the descriptor that it holds is idle. -/
theorem Holds.close (hholds : Holds h k₀ i fd d k) :
    Idle h k₀ i (k.setFd (h.proc i) fd none) := by
  obtain ⟨o, hhas, -⟩ := hholds.has
  intro fd₁ o₁ d₁ hhas₁
  obtain ⟨hhas₁, hne⟩ := (has_close hhas).mp hhas₁
  exact hholds.rest fd₁ o₁ d₁ (fun heq => hne ⟨rfl, heq⟩) hhas₁

/-! ### What a step leaves alone -/

theorem Frame.open (hfree : k.fds (h.proc i) fd = none) (hnew : ∀ q fd', k.fds q fd' ≠ some o)
    (hd : d.opener = i) (hj : j ≠ i) : Frame h j k (k.open h i fd o d) where
  has := by
    intro fd₁ o₁ d₁
    rw [has_open hfree hnew hd, or_iff_left]
    rintro ⟨⟨heq, -⟩, -⟩
    exact hj heq
  content := fun _ hf => hf

theorem Frame.close (hhas : Has h k i fd o d) (hj : j ≠ i) :
    Frame h j k (k.setFd (h.proc i) fd none) where
  has := by
    intro fd₁ o₁ d₁
    rw [has_close hhas, and_iff_left]
    rintro ⟨heq, -⟩
    exact hj heq
  content := fun _ hf => hf

omit [DecidableEq π] in
theorem Frame.setDesc (hhas : Has h k i fd o d) (hd' : d'.opener = d.opener) (hj : j ≠ i) :
    Frame h j k (k.setDesc o d') where
  has := by
    intro fd₁ o₁ d₁
    exact has_setDesc_of_ne hhas.2.1 (hhas.2.2 ▸ hj.symm) hd'
  content := fun _ hf => hf

omit [DecidableEq π] in
theorem Frame.setContent [DecidableEq ν] {f : ν} {c : List UInt8}
    (hframe : Frame h j (k.setContent f c) k') : Frame h j k k' where
  has := hframe.has
  content := by
    intro g hg
    apply hframe.content g
    unfold Kern.setContent
    dsimp only
    by_cases hgf : g = f
    · subst hgf
      rw [Function.update_self]
      exact Option.some_ne_none c
    · rwa [Function.update_of_ne hgf]

end Descriptors

/-! ## The points of a transfer -/

section Stages

variable {ι π ν : Type} {h : Host ι π ν} {k₀ k k' : Kern ι π ν} {i j : ι} {r : Request}
  {m : Option Outcome} {P : Sys Outcome} {c : Syscall} {f : Answer → Sys Outcome} {a : Answer}
  {b : List UInt8} {fd : Int}

/-- The outcome of a transfer is settled: it has taken effect, or it has failed. -/
def Settled (r : Request) (m : Option Outcome) (x : Outcome) : Prop :=
  m = some x ∨ m = none ∧ Failed r x

/-- A buffer with bytes to be moved. -/
def Proper (r : Request) (b : List UInt8) : Prop := r.buf.bytes = some b ∧ 0 < r.buf.size

/-- Where a thread is in its transfer, and what holds there. -/
inductive Stage (h : Host ι π ν) (k₀ : Kern ι π ν) (i : ι) (r : Request) :
    Option Outcome → Sys Outcome → Kern ι π ν → Prop
  | ready {b : List UInt8} {k : Kern ι π ν} : Proper r b → Idle h k₀ i k →
      Stage h k₀ i r none (r.transfer b) k
  | opened {b : List UInt8} {fd : Int} {k : Kern ι π ν} : Proper r b →
      Holds h k₀ i fd ⟨h.path r.file, r.kind.flg, 0, i⟩ k → k.content (h.path r.file) ≠ none →
      Stage h k₀ i r none (r.opened b fd) k
  | moved {m : Option Outcome} {x : Outcome} {fd : Int} {d : Description ι ν} {k : Kern ι π ν} :
      Holds h k₀ i fd d k → Settled r m x →
      Stage h k₀ i r m (.call (.sysClose fd) fun _ => .ret x) k
  | closed {m : Option Outcome} {x : Outcome} {k : Kern ι π ν} : Idle h k₀ i k →
      Settled r m x → Stage h k₀ i r m (.ret x) k

theorem Stage.frame (hstage : Stage h k₀ j r m P k) (hframe : Frame h j k k') :
    Stage h k₀ j r m P k' := by
  cases hstage with
  | ready hbuf hidle => exact .ready hbuf (hidle.frame hframe)
  | opened hbuf hholds hthere =>
      exact .opened hbuf (hholds.frame hframe) (hframe.content _ hthere)
  | moved hholds hx => exact .moved (hholds.frame hframe) hx
  | closed hidle hx => exact .closed (hidle.frame hframe) hx

theorem failed_refusal (r : Request) : Failed r r.refusal := ⟨rfl, fun _ => rfl⟩

/-- A call that has failed settles a transfer. -/
theorem failed_outcome (hbuf : Proper r b) (data : List UInt8) :
    Failed r (r.outcome b ⟨-1, data⟩) := by
  refine ⟨rfl, ?_⟩
  intro hkind
  rw [hbuf.1]
  obtain ⟨kind, file, buf⟩ := r
  cases kind with
  | readFile => exact absurd rfl hkind
  | writeFile => rfl
  | writeApend => rfl

/-- An idle thread begins. -/
theorem Stage.code (hidle : Idle h k₀ i k) (r : Request) : Stage h k₀ i r none (code r) k := by
  rw [code_eq]
  cases hb : r.buf.bytes with
  | none => exact .closed hidle (.inr ⟨rfl, failed_refusal r⟩)
  | some b =>
      dsimp only
      by_cases hsize : r.buf.size = 0
      · rw [if_pos hsize]
        exact .closed hidle (.inr ⟨rfl, failed_refusal r⟩)
      · rw [if_neg hsize]
        exact .ready ⟨hb, Nat.pos_of_ne_zero hsize⟩ hidle

variable [DecidableEq π] [DecidableEq ν]

/-- What a call of a transfer leads to: the transfer goes on, and whatever other threads have
opened is left alone. -/
structure Moves (h : Host ι π ν) (k₀ : Kern ι π ν) (i : ι) (r : Request) (m : Option Outcome)
    (P : Sys Outcome) (k k' : Kern ι π ν) : Prop where
  env : Env h k₀ k'
  stage : ∃ m', Stage h k₀ i r m' P k' ∧ Advance (Effect h.path r) m m' (view k) (view k')
  frame : ∀ j, j ≠ i → Frame h j k k'

/-- A file is opened. -/
theorem Moves.ready (henv : Env h k₀ k) (hbuf : Proper r b) (hidle : Idle h k₀ i k)
    (hdoes : Does h i (.sysOpen r.file r.kind.flg r.kind.mode) k a k') :
    Moves h k₀ i r none (if a.ret = -1 then .ret r.refusal else r.opened b a.ret) k k' := by
  cases hdoes with
  | failed data _ =>
      rw [if_pos rfl]
      exact ⟨henv, ⟨none, .closed hidle (.inr ⟨rfl, failed_refusal r⟩), .silent none _⟩,
        fun _ _ => .refl⟩
  | @opened _ _ o _ fd _ hfd hfree hnew hthere =>
      have hne : fd ≠ -1 := by omega
      rw [if_neg hne]
      constructor
      case env =>
        exact Env.open (k := k.setContent _ _) ⟨henv.kept, henv.ours⟩ hfree hnew rfl
      case stage =>
        refine ⟨none, .opened hbuf ?_ ?_, ?_⟩
        · exact Idle.open (k := k.setContent _ _) hidle ⟨henv.kept, henv.ours⟩ hfree hnew rfl
        · exact setContent_ne_none k _ _
        · have hview := view_afterOpen (k := k) (f := h.path r.file) (truncates_flg r.kind)
          exact hview.symm ▸ .silent none (view k)
      case frame =>
        intro j hj
        exact .setContent (.open hfree hnew rfl hj)

/-- Bytes are read, and the transfer takes effect. -/
theorem Moves.read (henv : Env h k₀ k) (hbuf : Proper r b) (hkind : r.kind = .readFile)
    (hholds : Holds h k₀ i fd ⟨h.path r.file, r.kind.flg, 0, i⟩ k)
    (hdoes : Does h i (.sysRead fd r.buf.size) k a k') :
    Moves h k₀ i r none (.call (.sysClose fd) fun _ => .ret (r.outcome b a)) k k' := by
  obtain ⟨o, hhas, hnew⟩ := hholds.has
  cases hdoes with
  | failed data _ =>
      exact ⟨henv, ⟨none, .moved hholds (.inr ⟨rfl, failed_outcome hbuf data⟩), .silent none _⟩,
        fun _ _ => .refl⟩
  | @read _ _ o₁ _ d content data hfd hdesc hcontent _ hdata hle hend =>
      rw [hhas.1] at hfd
      cases hfd
      rw [hhas.2.1] at hdesc
      cases hdesc
      have hout : r.outcome b ⟨data.length, data⟩ =
          ⟨data.length, some (data ++ b.drop data.length)⟩ := by
        simp [Request.outcome, hkind, filled]
      have hview := view_eq hcontent
      constructor
      case env => exact henv.setDesc hnew hhas.2.1 rfl
      case stage =>
        refine ⟨some _, .moved (hholds.setDesc hhas.1 hhas.2.1 rfl) (.inl rfl), .commit _ ?_⟩
        rw [hout]
        refine .read hkind hbuf.1 hbuf.2 ?_ hle ?_
        · rw [hview]
          exact hdata
        · intro hnil
          rw [hview]
          rcases hend hnil with hsize | hempty
          · exact absurd hsize hbuf.2.ne'
          · exact List.length_eq_zero_iff.mp (Nat.le_zero.mp hempty)
      case frame =>
        intro j hj
        exact .setDesc hhas rfl hj

/-- Bytes are written, and the transfer takes effect. -/
theorem Moves.write (henv : Env h k₀ k) (hbuf : Proper r b) (hkind : r.kind ≠ .readFile)
    (hholds : Holds h k₀ i fd ⟨h.path r.file, r.kind.flg, 0, i⟩ k)
    (hdoes : Does h i (.sysWrite fd (b.take r.buf.size)) k a k') :
    Moves h k₀ i r none (.call (.sysClose fd) fun _ => .ret (r.outcome b a)) k k' := by
  obtain ⟨o, hhas, hnew⟩ := hholds.has
  cases hdoes with
  | failed data _ =>
      exact ⟨henv, ⟨none, .moved hholds (.inr ⟨rfl, failed_outcome hbuf data⟩), .silent none _⟩,
        fun _ _ => .refl⟩
  | @wrote _ _ o₁ n off _ d content hfd hdesc hcontent _ hle hoff =>
      rw [hhas.1] at hfd
      cases hfd
      rw [hhas.2.1] at hdesc
      cases hdesc
      have hsize : n ≤ r.buf.size := by
        rw [List.length_take] at hle
        omega
      have hlength : (b.take n).length = n := by
        have hfits := r.buf.fits b hbuf.1
        rw [List.length_take]
        omega
      have hout : r.outcome b ⟨n, []⟩ = ⟨n, some b⟩ := by
        cases hk : r.kind with
        | readFile => exact absurd hk hkind
        | writeFile => simp [Request.outcome, hk]
        | writeApend => simp [Request.outcome, hk]
      have hview := view_eq hcontent
      rw [List.take_take, Nat.min_eq_left hsize]
      constructor
      case env =>
        exact Env.setDesc (k := k.setContent _ _) ⟨henv.kept, henv.ours⟩ hnew hhas.2.1 rfl
      case stage =>
        have hmoved : Holds h k₀ i fd ⟨h.path r.file, r.kind.flg, off + n, i⟩
            ((k.setContent (h.path r.file) (overwrite content off (b.take n))).setDesc o
              ⟨h.path r.file, r.kind.flg, off + n, i⟩) :=
          Holds.setDesc (k := k.setContent _ _)
            ⟨⟨o, hhas, hnew⟩, hholds.free, hholds.rest⟩ hhas.1 hhas.2.1 rfl
        refine ⟨some _, .moved hmoved (.inl rfl), .commit _ ?_⟩
        have hafter : view ((k.setContent (h.path r.file) (overwrite content off
            (b.take n))).setDesc o ⟨h.path r.file, r.kind.flg, off + n, i⟩) =
            Function.update (view k) (h.path r.file) (overwrite content off (b.take n)) :=
          view_setContent k _ _
        rw [hout, hafter, hoff]
        cases hk : r.kind with
        | readFile => exact absurd hk hkind
        | writeFile =>
            have hplain : appends Kind.writeFile.flg = false := by decide
            rw [hplain, if_neg Bool.false_ne_true, overwrite_zero, hlength, ← hview]
            exact .wrote hk hbuf.1 hbuf.2 hsize
        | writeApend =>
            have hend : appends Kind.writeApend.flg = true := by decide
            rw [hend, if_pos rfl, overwrite_length, ← hview]
            exact .appended hk hbuf.1 hbuf.2 hsize
      case frame =>
        intro j hj
        exact .setContent (.setDesc (k := k.setContent _ _) hhas rfl hj)

/-- What a transfer has opened is closed. -/
theorem Moves.closed {d : Description ι ν} {x : Outcome} (henv : Env h k₀ k)
    (hholds : Holds h k₀ i fd d k) (hx : Settled r m x)
    (hdoes : Does h i (.sysClose fd) k a k') : Moves h k₀ i r m (.ret x) k k' := by
  obtain ⟨o, hhas, hnew⟩ := hholds.has
  cases hdoes with
  | failed data hcall => exact absurd rfl (hcall fd)
  | notOpen hnone =>
      rw [hhas.1] at hnone
      cases hnone
  | closed hfd _ =>
      exact ⟨henv.close hholds.free, ⟨m, .closed hholds.close hx, .silent m _⟩,
        fun j hj => .close hhas hj⟩

/-- A call of a thread in a transfer. -/
theorem Stage.call (henv : Env h k₀ k) (hstage : Stage h k₀ i r m (.call c f) k)
    (hdoes : Does h i c k a k') : Moves h k₀ i r m (f a) k k' := by
  generalize hP : Prog.call c f = P at hstage
  cases hstage with
  | ready hbuf hidle =>
      cases hP
      exact .ready henv hbuf hidle hdoes
  | @opened b fd _ hbuf hholds hthere =>
      cases hP
      by_cases hkind : r.kind = .readFile
      · have hmove : r.move b fd = .sysRead fd r.buf.size := by rw [Request.move, hkind]
        exact .read henv hbuf hkind hholds (hmove ▸ hdoes)
      · have hmove : r.move b fd = .sysWrite fd (b.take r.buf.size) := by
          cases hk : r.kind with
          | readFile => exact absurd hk hkind
          | writeFile => rw [Request.move, hk]
          | writeApend => rw [Request.move, hk]
        exact .write henv hbuf hkind hholds (hmove ▸ hdoes)
  | moved hholds hx =>
      cases hP
      exact .closed henv hholds hx hdoes
  | closed _ _ => cases hP

omit [DecidableEq π] [DecidableEq ν] in
/-- A transfer returns. -/
theorem Stage.finish {x : Outcome} (hstage : Stage h k₀ i r m (.ret x) k) :
    Idle h k₀ i k ∧ Settled r m x := by
  generalize hP : Prog.ret x = P at hstage
  cases hstage with
  | ready _ _ => cases hP
  | opened _ _ _ => cases hP
  | moved _ _ => cases hP
  | closed hidle hx =>
      cases hP
      exact ⟨hidle, hx⟩

end Stages

/-! ## All transfers -/

section Runs

variable {ι π ν : Type} [DecidableEq ι] [DecidableEq π] [DecidableEq ν] {h : Host ι π ν}
  {K : ι → Syscall → Kern ι π ν → Answer → Kern ι π ν → Prop}

/-- What holds while threads are at their transfers, which began with the kernel in the state
{lit}`k₀`. -/
def outline (hK : Documented h K) (k₀ : Kern ι π ν) :
    Outline code K view (Effect h.path) where
  env := Env h k₀
  idle := Idle h k₀
  busy := Stage h k₀
  begin := fun _ hidle => .code hidle _
  call := by
    intro i r m c f k a k' henv hstage hcall
    obtain ⟨henv', hstage', -⟩ := hstage.call henv (hK hcall)
    exact ⟨henv', hstage'⟩
  finish := by
    intro i r m x k _ hstage
    obtain ⟨hidle, hx⟩ := hstage.finish
    refine ⟨hidle, hx.imp_right ?_⟩
    rintro ⟨hm, hfailed⟩
    exact ⟨hm, .failed hfailed⟩
  idle_stable := by
    intro i j r m c f k a k' henv hj hstage hcall hidle
    exact hidle.frame ((hstage.call henv (hK hcall)).frame j hj)
  busy_stable := by
    intro i j r m c f k a k' r' m' P henv hj hstage hcall hother
    exact hother.frame ((hstage.call henv (hK hcall)).frame j hj)

/-- The bytes that an entry of a log has moved to its file. -/
def moved (e : Entry Request Outcome) : List UInt8 :=
  match e.request.kind with
  | .readFile => []
  | _ => (e.request.buf.bytes.getD []).take e.result.ret.toNat

/-- The bytes that a log has appended to a file. -/
def appendedTo (path : String → ν) (log : List (Entry Request Outcome)) (f : ν) : List UInt8 :=
  log.flatMap fun e => if path e.request.file = f then moved e else []

theorem moved_of_failed {n : Nat} {r : Request} {x : Outcome} (hx : Failed r x) :
    moved ⟨n, r, x⟩ = [] := by
  unfold moved
  rw [hx.1]
  cases r.kind with
  | readFile => rfl
  | writeFile => rfl
  | writeApend => rfl

theorem moved_of_read {e : Entry Request Outcome} (hread : e.request.kind = .readFile) :
    moved e = [] := by
  unfold moved
  rw [hread]

/-- A request that does not overwrite appends what it moves, to its file. -/
theorem Effect.appends {path : String → ν} {r : Request} {x : Outcome} {c c' : ν → List UInt8}
    (heffect : Effect path r x c c') (hkind : r.kind ≠ .writeFile) (n : Nat) (f : ν) :
    c' f = c f ++ if path r.file = f then moved ⟨n, r, x⟩ else [] := by
  cases heffect with
  | failed hx => rw [moved_of_failed hx, ite_self, List.append_nil]
  | read hread _ _ _ _ _ =>
      rw [moved_of_read hread, ite_self, List.append_nil]
  | wrote hwrite _ _ _ => exact absurd hwrite hkind
  | @appended b m _ happend hb _ _ =>
      have hmoved : moved ⟨n, r, ⟨(m : Int), some b⟩⟩ = b.take m := by
        unfold moved
        rw [happend]
        dsimp only
        rw [hb, Option.getD_some, Int.toNat_natCast]
      rw [hmoved]
      by_cases hf : path r.file = f
      · rw [if_pos hf, ← hf, Function.update_self]
      · rw [if_neg hf, Function.update_of_ne (Ne.symm hf), List.append_nil]

/-- Requests that do not overwrite append what they move, one after another. -/
theorem appended_of_legal {path : String → ν} {c c' : ν → List UInt8}
    {log : List (Entry Request Outcome)} (hlegal : Legal (Effect path) c log c')
    (hkind : ∀ e ∈ log, e.request.kind ≠ .writeFile) (f : ν) :
    c' f = c f ++ appendedTo path log f := by
  induction hlegal with
  | nil => exact (List.append_nil _).symm
  | @snoc c' c'' log n r x _ heffect ih =>
      have hlast := heffect.appends (hkind _ (List.mem_append_right _ List.mem_cons_self)) n f
      rw [hlast, ih fun e he => hkind e (List.mem_append_left _ he), List.append_assoc]
      simp [appendedTo]

omit [DecidableEq ι] [DecidableEq π] [DecidableEq ν] in
/-- When the threads of a process are idle, it has the descriptors of the start. -/
theorem Env.fds_eq {k₀ k : Kern ι π ν} {p : π} (henv : Env h k₀ k)
    (hidle : ∀ i, h.proc i = p → Idle h k₀ i k) : k.fds p = k₀.fds p := by
  funext fd
  cases hstart : k₀.fds p fd with
  | some o => exact (henv.kept p fd o hstart).1
  | none =>
      cases hnow : k.fds p fd with
      | none => rfl
      | some o =>
          obtain ⟨d, hdesc, hproc⟩ := henv.ours p fd o hnow hstart
          have hfd := hidle d.opener hproc fd o d ⟨hproc ▸ hnow, hdesc, rfl⟩
          rw [hproc, hstart] at hfd
          cases hfd

/-- In every interleaving, on a kernel that does only what is documented, the transfers act on
the contents of the files one after another: one log has each transfer that has returned once,
with what it returned, those that did not overlap in the order in which they were called, and
leads from the first contents to the last.  Where nothing is overwritten a file has what it had
at the start, followed by what the log has appended to it.  The descriptors of the start and
their offsets are never touched, and a process whose threads have all returned has no others. -/
theorem transfers_linearizable (hK : Documented h K)
    {s₀ s : System ι (Kern ι π ν) Request Syscall Answer Outcome}
    {H : List (Event ι Request Outcome)} (hfresh : s₀.Fresh) (hrun : Run code K s₀ H s) :
    (H.filterMap Event.begun).Nodup ∧
    (∃ log, Explains (Effect h.path) (view s₀.env) (view s.env) H log ∧
      ((∀ i n r, .begin i n r ∈ H → r.kind ≠ .writeFile) →
        ∀ f, view s.env f = view s₀.env f ++ appendedTo h.path log f)) ∧
    (∀ p fd o, s₀.env.fds p fd = some o →
      s.env.fds p fd = some o ∧ s.env.desc o = s₀.env.desc o) ∧
    ∀ p, (∀ i, h.proc i = p → s.client i = none) → s.env.fds p = s₀.env.fds p := by
  obtain ⟨log, hinv⟩ := (outline hK s₀.env).explained hfresh (Env.refl s₀.env)
    (fun _ => Idle.refl s₀.env) hrun
  refine ⟨hrun.begun_nodup hfresh, ⟨log, hinv.explains, ?_⟩, hinv.env.kept, ?_⟩
  · intro hkind f
    refine appended_of_legal hinv.explains.legal ?_ f
    intro e he
    obtain ⟨i, hbegun⟩ := hinv.explains.begun e he
    exact hkind i e.id e.request hbegun
  · intro p hidle
    exact hinv.env.fds_eq fun i hi => hinv.idle i (hidle i hi)

end Runs

/-! ## Two threads -/

/-- Two threads of one process. -/
def sampleHost : Host Bool Unit String := ⟨fun _ => (), id⟩

/-- No file exists, and nothing is open. -/
def sampleStart : System Bool (Kern Bool Unit String) Request Syscall Answer Outcome where
  env := ⟨fun _ => none, fun _ => none, fun _ _ => none, fun _ _ => false⟩
  client := fun _ => none
  count := 0

/-- A byte to be appended. -/
def sampleAppend (v : UInt8) : Request := ⟨.writeApend, "log", ⟨some [v], 1, by simp⟩⟩

/-- Both threads open the file before either of them writes. -/
theorem sample_run : ∃ H s, Run code (Does sampleHost) sampleStart H s ∧
    (∀ i n r, .begin i n r ∈ H → r.kind ≠ .writeFile) ∧ s.client = (fun _ => none) ∧
    view s.env "log" = [2, 1] := by
  have hstart : Run code (Does sampleHost) sampleStart [] sampleStart := .start
  have hopen := hstart
    |>.step (.begin (i := true) (sampleAppend 1) rfl)
    |>.step (.begin (i := false) (sampleAppend 2) rfl)
    |>.step (.call (i := true) rfl (@Does.opened _ _ _ _ _ sampleHost true "log" _ 0 _ 3 _
      (by decide) rfl (fun _ _ => (Option.some_ne_none 0).symm) (.inr (by decide))))
    |>.step (.call (i := false) rfl (@Does.opened _ _ _ _ _ sampleHost false "log" _ 1 _ 4 _
      (by decide) rfl (by
        intro q fd
        rw [setFd_fds]
        split
        · decide
        · exact (Option.some_ne_none 1).symm) (.inr (by decide))))
  have hwritten := hopen
    |>.step (.call (i := false) rfl (@Does.wrote _ _ _ _ _ sampleHost false 4 [2] 1 1 _ _ _ _
      rfl rfl rfl (by decide) (by decide) rfl))
    |>.step (.call (i := true) rfl (@Does.wrote _ _ _ _ _ sampleHost true 3 [1] 0 1 _ _ _ _
      rfl rfl rfl (by decide) (by decide) rfl))
  have hreturned := hwritten
    |>.step (.call (i := true) rfl (@Does.closed _ _ _ _ _ sampleHost true 3 0 0 _
      rfl (.inl rfl)))
    |>.step (.call (i := false) rfl (@Does.closed _ _ _ _ _ sampleHost false 4 0 1 _
      rfl (.inl rfl)))
    |>.step (.finish (i := false) rfl)
    |>.step (.finish (i := true) rfl)
  refine ⟨_, _, hreturned, ?_, ?_, ?_⟩
  · intro i n r hmem
    simp only [List.append_nil, List.nil_append, List.cons_append, List.mem_cons,
      Event.begin.injEq, reduceCtorEq, List.not_mem_nil, or_false] at hmem
    rcases hmem with ⟨-, -, rfl⟩ | ⟨-, -, rfl⟩ <;> exact Kind.noConfusion
  · funext i
    cases i <;> rfl
  · rfl

/-- The two bytes are there, in the order in which they were written, and the descriptors are
closed again. -/
theorem transfers_linearizable_sample : ∃ H s, Run code (Does sampleHost) sampleStart H s ∧
    (∃ log, Explains (Effect id) (view sampleStart.env) (view s.env) H log ∧
      appendedTo id log "log" = [2, 1]) ∧ s.env.fds () = sampleStart.env.fds () := by
  obtain ⟨H, s, hrun, hkind, hidle, hview⟩ := sample_run
  obtain ⟨-, ⟨log, hex, happended⟩, -, hfds⟩ :=
    transfers_linearizable (K := Does sampleHost) (h := sampleHost) id ⟨fun _ => rfl, rfl⟩ hrun
  refine ⟨H, s, hrun, ⟨log, hex, ?_⟩, hfds () fun i _ => by rw [hidle]⟩
  have hlog := happended hkind "log"
  rw [hview] at hlog
  exact hlog.symm

end Files
end Smpcil
