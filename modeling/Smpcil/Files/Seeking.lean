import Smpcil.Files.Transfers

/-!
# The size of an open file

`smp_file_size_from_seek` moves the offset of a descriptor to the end of the file and back.  By
itself it leaves the offset where it was; the threads that share a description see each other's
offsets.

Main results:

- Theorem {lit}`sizeFromSeek_alone`: a call by itself.
- Theorem {lit}`sizes_of_shared`: what calls in any interleaving return, and what they may leave.
-/

namespace Smpcil
namespace Files

open Programs

/-- What a call returns that has not failed. -/
theorem natCast_ne (n : Nat) : (n : Int) ≠ -1 := by omega

/-- What is left of a call when the offset is at the end. -/
def afterEnd (fd cur size : Int) : Sys Int :=
  .call (.sysLseek fd cur .seekSet) fun a => .ret (if a.ret = -1 then smpFailure else size)

/-- What is left of a call when the offset has been asked for. -/
def afterCurrent (fd cur : Int) : Sys Int :=
  .call (.sysLseek fd 0 .seekEnd) fun a =>
    if a.ret = -1 then .ret smpFailure else afterEnd fd cur a.ret

/-- The three calls of `smp_file_size_from_seek`. -/
theorem smpFileSizeFromSeek_eq (fd : Int) : smpFileSizeFromSeek fd =
    .call (.sysLseek fd 0 .seekCur) fun a =>
      if a.ret = -1 then .ret smpFailure else afterCurrent fd a.ret := by
  simp only [smpFileSizeFromSeek, smpFileSeekCurrent, smpFileSeekEnd, smpFileSeekBeginOffset,
    smpLseek_eq, Prog.call_bind, Prog.ret_bind, Prog.pure_eq]
  refine congrArg (Prog.call _) (funext fun a => ?_)
  by_cases ha : a.ret = -1
  · rw [if_pos ha, if_pos (show a.ret = smpFailure from ha)]
  · rw [if_neg ha, if_neg (show ¬ a.ret = smpFailure from ha)]
    refine congrArg (Prog.call _) (funext fun b => ?_)
    by_cases hb : b.ret = -1
    · rw [if_pos hb, if_pos (show b.ret = smpFailure from hb)]
    · rw [if_neg hb, if_neg (show ¬ b.ret = smpFailure from hb)]
      refine congrArg (Prog.call _) (funext fun e => ?_)
      exact (apply_ite Prog.ret _ _ _).symm

/-! ## One call by itself -/

section Alone

variable {ι π ν : Type} [DecidableEq π] [DecidableEq ν] {h : Host ι π ν} {i : ι} {fd : Int}
  {o : Nat} {d : Description ι ν} {c : List UInt8} {k k' : Kern ι π ν} {a : Answer}

/-- A descriptor, its description, and the content of its file. -/
structure Leads (h : Host ι π ν) (k : Kern ι π ν) (i : ι) (fd : Int) (o : Nat)
    (d : Description ι ν) (c : List UInt8) : Prop where
  fds : k.fds (h.proc i) fd = some o
  desc : k.desc o = some d
  content : k.content d.file = some c

omit [DecidableEq π] [DecidableEq ν] in
theorem Leads.setOffset (hleads : Leads h k i fd o d c) (n : Nat) :
    Leads h (k.setDesc o { d with offset := n }) i fd o { d with offset := n } c :=
  ⟨hleads.fds, setDesc_self k o _, hleads.content⟩

omit [DecidableEq π] [DecidableEq ν] in
/-- The last offset of a description is the one that counts. -/
theorem setDesc_setDesc (k : Kern ι π ν) (o : Nat) (d d' : Description ι ν) :
    (k.setDesc o d).setDesc o d' = k.setDesc o d' := by
  unfold Kern.setDesc
  rw [Function.update_idem]

omit [DecidableEq π] [DecidableEq ν] in
theorem setDesc_eq_self (hdesc : k.desc o = some d) : k.setDesc o d = k := by
  unfold Kern.setDesc
  rw [← hdesc, Function.update_eq_self]

/-- What `lseek` does: it fails, or moves the offset and returns it. -/
theorem Leads.lseek (hleads : Leads h k i fd o d c) {offset : Int} {whence : Whence}
    (hdoes : Does h i (.sysLseek fd offset whence) k a k') : a.ret = -1 ∧ k' = k ∨
      ∃ n : Nat, a.ret = n ∧ (n : Int) = seekBase d c whence + offset ∧
        k' = k.setDesc o { d with offset := n } := by
  cases hdoes with
  | failed data _ => exact .inl ⟨rfl, rfl⟩
  | sought hfd hdesc hcontent hn =>
      rw [hleads.fds] at hfd
      cases hfd
      rw [hleads.desc] at hdesc
      cases hdesc
      rw [hleads.content] at hcontent
      cases hcontent
      exact .inr ⟨_, rfl, hn, rfl⟩

/-- A call by itself returns the size and leaves everything as it was; if it fails it may leave
the offset at the end. -/
theorem sizeFromSeek_alone (hleads : Leads h k i fd o d c) {x : Int}
    (hrun : Alone (Does h i) (smpFileSizeFromSeek fd) k x k') :
    x = c.length ∧ k' = k ∨
      x = smpFailure ∧ (k' = k ∨ k' = k.setDesc o { d with offset := c.length }) := by
  rw [smpFileSizeFromSeek_eq] at hrun
  obtain ⟨a₁, k₁, h₁, hrun₁⟩ := Alone.call_iff.mp hrun
  rcases hleads.lseek h₁ with ⟨hret₁, rfl⟩ | ⟨cur, hret₁, hcur, rfl⟩
  · rw [if_pos hret₁] at hrun₁
    obtain ⟨rfl, rfl⟩ := Alone.ret_iff.mp hrun₁
    exact .inr ⟨rfl, .inl rfl⟩
  -- asking for the offset does not move it
  have hoffset : cur = d.offset := by
    simp only [seekBase] at hcur
    omega
  subst hoffset
  rw [setDesc_eq_self hleads.desc, if_neg (by omega), hret₁] at hrun₁
  obtain ⟨a₂, k₂, h₂, hrun₂⟩ := Alone.call_iff.mp hrun₁
  rcases hleads.lseek h₂ with ⟨hret₂, rfl⟩ | ⟨size, hret₂, hsize, rfl⟩
  · rw [if_pos hret₂] at hrun₂
    obtain ⟨rfl, rfl⟩ := Alone.ret_iff.mp hrun₂
    exact .inr ⟨rfl, .inl rfl⟩
  have hlength : size = c.length := by
    simp only [seekBase] at hsize
    omega
  subst hlength
  rw [if_neg (by omega), hret₂] at hrun₂
  obtain ⟨a₃, k₃, h₃, hrun₃⟩ := Alone.call_iff.mp hrun₂
  obtain ⟨rfl, rfl⟩ := Alone.ret_iff.mp hrun₃
  rcases (hleads.setOffset c.length).lseek h₃ with ⟨hret₃, rfl⟩ | ⟨back, hret₃, hback, rfl⟩
  · exact .inr ⟨if_pos hret₃, .inr rfl⟩
  · have hcur' : back = d.offset := by
      simp only [seekBase] at hback
      omega
    subst hcur'
    refine .inl ⟨if_neg (by omega), ?_⟩
    rw [setDesc_setDesc]
    exact setDesc_eq_self hleads.desc

/-- The kernel may let every call succeed. -/
theorem sizeFromSeek_runs (hleads : Leads h k i fd o d c) :
    Alone (Does h i) (smpFileSizeFromSeek fd) k c.length k := by
  have hcurrent : Does h i (.sysLseek fd 0 .seekCur) k ⟨d.offset, []⟩ k := by
    have hdoes : Does h i (.sysLseek fd 0 .seekCur) k ⟨d.offset, []⟩
        (k.setDesc o { d with offset := d.offset }) :=
      .sought hleads.fds hleads.desc hleads.content (Int.add_zero _).symm
    rwa [setDesc_eq_self hleads.desc] at hdoes
  have hend : Does h i (.sysLseek fd 0 .seekEnd) k ⟨c.length, []⟩
      (k.setDesc o { d with offset := c.length }) :=
    .sought hleads.fds hleads.desc hleads.content (Int.add_zero _).symm
  have hback : Does h i (.sysLseek fd d.offset .seekSet)
      (k.setDesc o { d with offset := c.length }) ⟨d.offset, []⟩ k := by
    have hleads' := hleads.setOffset c.length
    have hdoes : Does h i (.sysLseek fd d.offset .seekSet)
        (k.setDesc o { d with offset := c.length }) ⟨d.offset, []⟩
        ((k.setDesc o { d with offset := c.length }).setDesc o
          { ({ d with offset := c.length } : Description ι ν) with offset := d.offset }) :=
      .sought hleads'.fds hleads'.desc hleads'.content (Int.zero_add _).symm
    rwa [setDesc_setDesc, setDesc_eq_self hleads.desc] at hdoes
  rw [smpFileSizeFromSeek_eq]
  refine .call hcurrent ?_
  rw [if_neg (natCast_ne d.offset)]
  refine .call hend ?_
  rw [if_neg (natCast_ne c.length)]
  refine .call hback ?_
  rw [if_neg (natCast_ne d.offset)]
  exact .ret _ k

end Alone

/-! ## Calls side by side -/

section Shared

variable {ι π ν : Type} {h : Host ι π ν} {i : ι} {fd : Int} {o o' n : Nat}
  {d d' : Description ι ν} {c c' : List UInt8} {k₀ k k' : Kern ι π ν} {a : Answer} {x : Int}
  {f : Answer → Sys Int} {sys : Syscall}

theorem Leads.unique (hleads : Leads h k i fd o d c) (hleads' : Leads h k i fd o' d' c') :
    o' = o ∧ d' = d ∧ c' = c := by
  obtain ⟨hfd, hdesc, hcontent⟩ := hleads
  obtain ⟨hfd', hdesc', hcontent'⟩ := hleads'
  rw [hfd] at hfd'
  cases hfd'
  rw [hdesc] at hdesc'
  cases hdesc'
  rw [hcontent] at hcontent'
  cases hcontent'
  exact ⟨rfl, rfl, rfl⟩

/-- An offset that a call may find or leave: the first one, or the end of the file. -/
def Found (d : Description ι ν) (c : List UInt8) (n : Nat) : Prop :=
  n = d.offset ∨ n = c.length

/-- A description that may have been left at the end of its file. -/
def Left (k₀ : Kern ι π ν) (e₀ e : Option (Description ι ν)) : Prop :=
  e = e₀ ∨ ∃ d c n, e₀ = some d ∧ k₀.content d.file = some c ∧ Found d c n ∧
    e = some { d with offset := n }

/-- The kernel after calls: nothing but offsets has changed. -/
structure Near (k₀ k : Kern ι π ν) : Prop where
  content : k.content = k₀.content
  fds : k.fds = k₀.fds
  desc : ∀ o, Left k₀ (k₀.desc o) (k.desc o)

theorem Near.refl (k : Kern ι π ν) : Near k k := ⟨rfl, rfl, fun _ => .inl rfl⟩

theorem Near.setOffset (hnear : Near k₀ k) (hleads : Leads h k₀ i fd o d c)
    (hn : Found d c n) : Near k₀ (k.setDesc o { d with offset := n }) where
  content := hnear.content
  fds := hnear.fds
  desc := by
    intro o'
    by_cases ho : o' = o
    · subst ho
      rw [setDesc_self]
      exact .inr ⟨d, c, n, hleads.desc, hleads.content, hn, rfl⟩
    · rw [setDesc_of_ne k _ ho]
      exact hnear.desc o'

variable [DecidableEq π] [DecidableEq ν]

/-- What `lseek` does when other threads may have moved the offset. -/
theorem Near.lseek (hnear : Near k₀ k) {offset : Int} {whence : Whence}
    (hdoes : Does h i (.sysLseek fd offset whence) k a k') : a.ret = -1 ∧ k' = k ∨
      ∃ (o : Nat) (d : Description ι ν) (c : List UInt8) (m n : Nat), Leads h k₀ i fd o d c ∧
        Found d c m ∧ a.ret = n ∧
        (n : Int) = seekBase { d with offset := m } c whence + offset ∧
        k' = k.setDesc o { d with offset := n } := by
  cases hdoes with
  | failed data _ => exact .inl ⟨rfl, rfl⟩
  | @sought _ _ _ o n _ d' c hfd hdesc hcontent hn =>
      right
      rw [hnear.fds] at hfd
      rw [hnear.content] at hcontent
      rcases hnear.desc o with hsame | ⟨d, c', m, hd, hc', hm, hnow⟩
      · rw [hsame] at hdesc
        exact ⟨o, d', c, d'.offset, n, ⟨hfd, hdesc, hcontent⟩, .inl rfl, rfl, hn, rfl⟩
      · rw [hdesc] at hnow
        cases hnow
        rw [hc'] at hcontent
        cases hcontent
        exact ⟨o, d, c, m, n, ⟨hfd, hd, hc'⟩, hm, rfl, hn, rfl⟩

/-- Where a thread is in its call, and what it has learned. -/
inductive Point (h : Host ι π ν) (k₀ : Kern ι π ν) (i : ι) (fd : Int) : Sys Int → Prop
  | start : Point h k₀ i fd (smpFileSizeFromSeek fd)
  | current {o cur : Nat} {d : Description ι ν} {c : List UInt8} : Leads h k₀ i fd o d c →
      Found d c cur → Point h k₀ i fd (afterCurrent fd cur)
  | atEnd {o cur : Nat} {d : Description ι ν} {c : List UInt8} : Leads h k₀ i fd o d c →
      Found d c cur → Point h k₀ i fd (afterEnd fd cur c.length)
  | failed : Point h k₀ i fd (.ret smpFailure)
  | done {o : Nat} {d : Description ι ν} {c : List UInt8} : Leads h k₀ i fd o d c →
      Point h k₀ i fd (.ret c.length)

omit [DecidableEq π] [DecidableEq ν] in
/-- What a call returns. -/
theorem Point.result (hpoint : Point h k₀ i fd (.ret x)) :
    x = smpFailure ∨ ∃ o d c, Leads h k₀ i fd o d c ∧ x = c.length := by
  generalize hP : Prog.ret x = P at hpoint
  cases hpoint with
  | start => rw [smpFileSizeFromSeek_eq] at hP; cases hP
  | current _ _ => cases hP
  | atEnd _ _ => cases hP
  | failed =>
      cases hP
      exact .inl rfl
  | done hleads =>
      cases hP
      exact .inr ⟨_, _, _, hleads, rfl⟩

/-- A call of a thread leads to the next point, and changes offsets only. -/
theorem Point.call (hnear : Near k₀ k) (hpoint : Point h k₀ i fd (.call sys f))
    (hdoes : Does h i sys k a k') : Near k₀ k' ∧ Point h k₀ i fd (f a) := by
  generalize hP : Prog.call sys f = P at hpoint
  cases hpoint with
  | start =>
      rw [smpFileSizeFromSeek_eq] at hP
      cases hP
      dsimp only
      rcases hnear.lseek hdoes with ⟨hret, rfl⟩ | ⟨o, d, c, m, n, hleads, hm, hret, hn, rfl⟩
      · rw [if_pos hret]
        exact ⟨hnear, .failed⟩
      · -- the offset found is returned and stays
        have hsame : n = m := by
          simp only [seekBase] at hn
          omega
        subst hsame
        rw [if_neg (hret ▸ natCast_ne n), hret]
        exact ⟨hnear.setOffset hleads hm, .current hleads hm⟩
  | @current o cur d c hleads hcur =>
      cases hP
      dsimp only
      rcases hnear.lseek hdoes with ⟨hret, rfl⟩ | ⟨o', d', c', m, n, hleads', -, hret, hn, rfl⟩
      · rw [if_pos hret]
        exact ⟨hnear, .failed⟩
      · obtain ⟨rfl, rfl, rfl⟩ := hleads.unique hleads'
        have hsize : n = c'.length := by
          simp only [seekBase] at hn
          omega
        subst hsize
        rw [if_neg (hret ▸ natCast_ne _), hret]
        exact ⟨hnear.setOffset hleads (.inr rfl), .atEnd hleads hcur⟩
  | @atEnd o cur d c hleads hcur =>
      cases hP
      dsimp only
      rcases hnear.lseek hdoes with ⟨hret, rfl⟩ | ⟨o', d', c', m, n, hleads', -, hret, hn, rfl⟩
      · rw [if_pos hret]
        exact ⟨hnear, .failed⟩
      · obtain ⟨rfl, rfl, rfl⟩ := hleads.unique hleads'
        have hback : n = cur := by
          simp only [seekBase] at hn
          omega
        subst hback
        rw [if_neg (hret ▸ natCast_ne n)]
        exact ⟨hnear.setOffset hleads hcur, .done hleads⟩
  | failed => cases hP
  | done _ => cases hP

end Shared

section Runs

variable {ι π ν : Type} [DecidableEq ι] [DecidableEq π] [DecidableEq ν] {h : Host ι π ν}
  {K : ι → Syscall → Kern ι π ν → Answer → Kern ι π ν → Prop} {k₀ : Kern ι π ν}
  {H es : List (Event ι Int Int)} {s s' s₀ : System ι (Kern ι π ν) Int Syscall Answer Int}

/-- What runs of calls have in common. -/
structure Sized (h : Host ι π ν) (k₀ : Kern ι π ν) (H : List (Event ι Int Int))
    (s : System ι (Kern ι π ν) Int Syscall Answer Int) : Prop where
  near : Near k₀ s.env
  busy : ∀ i b, s.client i = some b →
    .begin i b.id b.request ∈ H ∧ Point h k₀ i b.request b.rest
  done : ∀ i n x, .finish i n x ∈ H → x = smpFailure ∨ ∃ fd o d c, .begin i n fd ∈ H ∧
    Leads h k₀ i fd o d c ∧ x = c.length

omit [DecidableEq ι] [DecidableEq π] [DecidableEq ν] in
/-- What calls have returned stays returned. -/
theorem Sized.done_append (hsized : Sized h k₀ H s) {i : ι} {n : Nat} {x : Int}
    (hmem : .finish i n x ∈ H) (es : List (Event ι Int Int)) :
    x = smpFailure ∨ ∃ fd o d c, .begin i n fd ∈ H ++ es ∧ Leads h k₀ i fd o d c ∧
      x = c.length := by
  rcases hsized.done i n x hmem with hfail | ⟨fd, o, d, c, hbegun, hleads, hx⟩
  · exact .inl hfail
  · exact .inr ⟨fd, o, d, c, List.mem_append_left _ hbegun, hleads, hx⟩

/-- A step of any thread. -/
theorem Sized.step (hK : Documented h K) (hsized : Sized h k₀ H s)
    (hstep : Step smpFileSizeFromSeek K s es s') : Sized h k₀ (H ++ es) s' := by
  cases hstep with
  | @begin i fd hidle =>
      constructor
      case near => exact hsized.near
      case busy =>
        intro j b hb
        dsimp only at hb
        by_cases hj : j = i
        · subst hj
          rw [Function.update_self, Option.some.injEq] at hb
          subst hb
          exact ⟨List.mem_append_right _ (List.mem_singleton.mpr rfl), .start⟩
        · rw [Function.update_of_ne hj] at hb
          obtain ⟨hbegun, hpoint⟩ := hsized.busy j b hb
          exact ⟨List.mem_append_left _ hbegun, hpoint⟩
      case done =>
        intro j n x hmem
        rcases List.mem_append.mp hmem with hmem | hmem
        · exact hsized.done_append hmem _
        · cases List.mem_singleton.mp hmem
  | @call i n fd sys f a k hb hcall =>
      obtain ⟨hbegun, hpoint⟩ := hsized.busy i _ hb
      obtain ⟨hnear, hpoint'⟩ := hpoint.call hsized.near (hK hcall)
      rw [List.append_nil]
      constructor
      case near => exact hnear
      case busy =>
        intro j b hb
        dsimp only at hb
        by_cases hj : j = i
        · subst hj
          rw [Function.update_self, Option.some.injEq] at hb
          subst hb
          exact ⟨hbegun, hpoint'⟩
        · rw [Function.update_of_ne hj] at hb
          exact hsized.busy j b hb
      case done => exact hsized.done
  | @finish i n fd x hb =>
      obtain ⟨hbegun, hpoint⟩ := hsized.busy i _ hb
      constructor
      case near => exact hsized.near
      case busy =>
        intro j b hb
        dsimp only at hb
        by_cases hj : j = i
        · subst hj
          rw [Function.update_self] at hb
          cases hb
        · rw [Function.update_of_ne hj] at hb
          obtain ⟨hbegun', hpoint'⟩ := hsized.busy j b hb
          exact ⟨List.mem_append_left _ hbegun', hpoint'⟩
      case done =>
        intro j m y hmem
        rcases List.mem_append.mp hmem with hmem | hmem
        · exact hsized.done_append hmem _
        · cases List.mem_singleton.mp hmem
          rcases hpoint.result with hfail | ⟨o, d, c, hleads, hx⟩
          · exact .inl hfail
          · exact .inr ⟨fd, o, d, c, List.mem_append_left _ hbegun, hleads, hx⟩

/-! ### An offset that is lost -/

/-- The kernel with another offset of a description. -/
def seekTo (k : Kern ι π ν) (o : Nat) (d : Description ι ν) (n : Nat) : Kern ι π ν :=
  k.setDesc o { d with offset := n }

variable {i j : ι} {fd fd' : Int} {o : Nat} {d : Description ι ν} {c : List UInt8}

omit [DecidableEq ι] in
theorem does_seek (hleads : Leads h k₀ i fd o d c) (offset : Int) (whence : Whence) (m n : Nat)
    (hn : (n : Int) = seekBase { d with offset := m } c whence + offset) :
    Does h i (.sysLseek fd offset whence) (seekTo k₀ o d m) ⟨n, []⟩ (seekTo k₀ o d n) := by
  have hdoes := Does.sought (hleads.setOffset m).fds (hleads.setOffset m).desc hleads.content hn
  rwa [setDesc_setDesc] at hdoes

/-- Two threads at work, and the others idle. -/
def pair (i j : ι) (k : Kern ι π ν) (x y : Option (Busy Int Syscall Answer Int)) (n : Nat) :
    System ι (Kern ι π ν) Int Syscall Answer Int where
  env := k
  client := Function.update (Function.update (fun _ => none) i x) j y
  count := n

section Pair

variable {k k' : Kern ι π ν} {x y : Option (Busy Int Syscall Answer Int)} {m n : Nat} {fd : Int}
  {sys : Syscall} {f : Answer → Sys Int} {a : Answer} {v : Int}

omit [DecidableEq π] [DecidableEq ν] in
/-- The order of the two does not matter. -/
theorem pair_comm (hij : i ≠ j) : pair i j k x y n = pair j i k y x n := by
  unfold pair
  rw [Function.update_comm hij]

omit [DecidableEq π] [DecidableEq ν] in
theorem pair_begin (hij : i ≠ j) (fd : Int) :
    Step smpFileSizeFromSeek K (pair i j k none y n) [.begin i n fd]
      (pair i j k (some ⟨n, fd, smpFileSizeFromSeek fd⟩) y (n + 1)) := by
  rw [pair_comm hij, pair_comm hij]
  have hidle : (pair j i k y none n).client i = none := Function.update_self _ _ _
  have hstep : Step smpFileSizeFromSeek K _ _ _ := .begin fd hidle
  unfold pair at hstep ⊢
  rwa [Function.update_idem] at hstep

omit [DecidableEq π] [DecidableEq ν] in
theorem pair_call (hij : i ≠ j) (fd : Int) (hK : K i sys k a k') :
    Step smpFileSizeFromSeek K (pair i j k (some ⟨m, fd, .call sys f⟩) y n) []
      (pair i j k' (some ⟨m, fd, f a⟩) y n) := by
  rw [pair_comm hij, pair_comm hij]
  have hbusy : (pair j i k y (some ⟨m, fd, .call sys f⟩) n).client i =
      some ⟨m, fd, .call sys f⟩ := Function.update_self _ _ _
  have hstep : Step smpFileSizeFromSeek K _ _ _ := .call hbusy hK
  unfold pair at hstep ⊢
  rwa [Function.update_idem] at hstep

omit [DecidableEq π] [DecidableEq ν] in
theorem pair_finish (hij : i ≠ j) :
    Step smpFileSizeFromSeek K (pair i j k (some ⟨m, fd, .ret v⟩) y n) [.finish i m v]
      (pair i j k none y n) := by
  rw [pair_comm hij, pair_comm hij]
  have hbusy : (pair j i k y (some ⟨m, fd, .ret v⟩) n).client i = some ⟨m, fd, .ret v⟩ :=
    Function.update_self _ _ _
  have hstep : Step smpFileSizeFromSeek K _ _ _ := .finish hbusy
  unfold pair at hstep ⊢
  rwa [Function.update_idem] at hstep

/-- The three steps of a call whose calls of `lseek` succeed, with the offset that they find and
leave. -/
theorem pair_current (hij : i ≠ j) (hleads : Leads h k₀ i fd o d c) (cur : Nat) :
    Step smpFileSizeFromSeek (Does h)
      (pair i j (seekTo k₀ o d cur) (some ⟨m, fd, smpFileSizeFromSeek fd⟩) y n) []
      (pair i j (seekTo k₀ o d cur) (some ⟨m, fd, afterCurrent fd cur⟩) y n) := by
  have hstep := pair_call (n := n) (m := m) (y := y) (f := fun a =>
    if a.ret = -1 then .ret smpFailure else afterCurrent fd a.ret) hij fd
    (does_seek hleads 0 .seekCur cur cur (Int.add_zero _).symm)
  rw [if_neg (natCast_ne cur), ← smpFileSizeFromSeek_eq] at hstep
  exact hstep

theorem pair_end (hij : i ≠ j) (hleads : Leads h k₀ i fd o d c) (cur l : Nat) :
    Step smpFileSizeFromSeek (Does h)
      (pair i j (seekTo k₀ o d l) (some ⟨m, fd, afterCurrent fd cur⟩) y n) []
      (pair i j (seekTo k₀ o d c.length) (some ⟨m, fd, afterEnd fd cur c.length⟩) y n) := by
  have hstep := pair_call (n := n) (m := m) (y := y) (f := fun a =>
    if a.ret = -1 then .ret smpFailure else afterEnd fd cur a.ret) hij fd
    (does_seek hleads 0 .seekEnd l c.length (Int.add_zero _).symm)
  rw [if_neg (natCast_ne c.length)] at hstep
  exact hstep

theorem pair_back (hij : i ≠ j) (hleads : Leads h k₀ i fd o d c) (cur l : Nat) :
    Step smpFileSizeFromSeek (Does h)
      (pair i j (seekTo k₀ o d l) (some ⟨m, fd, afterEnd fd cur v⟩) y n) []
      (pair i j (seekTo k₀ o d cur) (some ⟨m, fd, .ret v⟩) y n) := by
  have hstep := pair_call (n := n) (m := m) (y := y) (f := fun a =>
    .ret (if a.ret = -1 then smpFailure else v)) hij fd
    (does_seek hleads cur .seekSet l cur (Int.zero_add _).symm)
  rw [if_neg (natCast_ne cur)] at hstep
  exact hstep

end Pair

/-- Two threads share a description.  One asks for the offset while the other has it at the end,
and puts it back there: both return the size, and the offset is lost. -/
theorem offset_lost {fd' : Int} (hij : i ≠ j) (hleads : Leads h k₀ i fd o d c)
    (hleads' : Leads h k₀ j fd' o d c) :
    ∃ H s, Run smpFileSizeFromSeek (Does h) (pair i j k₀ none none 0) H s ∧
      (∀ l, s.client l = none) ∧ .finish i 0 (c.length : Int) ∈ H ∧
      .finish j 1 (c.length : Int) ∈ H ∧ s.env = seekTo k₀ o d c.length := by
  have hk : seekTo k₀ o d d.offset = k₀ := setDesc_eq_self hleads.desc
  have hji := hij.symm
  generalize hs₀ : pair i j k₀ none none 0 = s₀
  have hstart : Run smpFileSizeFromSeek (Does h) s₀ []
      (pair i j (seekTo k₀ o d d.offset) none none 0) := by
    rw [hk, hs₀]
    exact .start
  have hboth := (hstart.step (pair_begin hij fd))
  rw [pair_comm hij] at hboth
  have hfirst := hboth.step (pair_begin hji fd')
  rw [pair_comm hji] at hfirst
  have hend := (hfirst.step (pair_current hij hleads d.offset)).step
    (pair_end hij hleads d.offset d.offset)
  rw [pair_comm hij] at hend
  have hsecond := hend.step (pair_current hji hleads' c.length)
  rw [pair_comm hji] at hsecond
  have hfinish := (hsecond.step (pair_back hij hleads d.offset c.length)).step (pair_finish hij)
  rw [pair_comm hij] at hfinish
  have hlast := (((hfinish.step (pair_end hji hleads' c.length d.offset)).step
    (pair_back hji hleads' c.length c.length)).step (pair_finish hji))
  refine ⟨_, _, hlast, ?_, ?_, ?_, rfl⟩
  · intro l
    unfold pair
    simp [Function.update_apply]
  · simp
  · simp

/-- Threads of any number of processes ask for the sizes of open files, in any interleaving, on a
kernel that does only what is documented.  A call that has not failed returns the size of its
file.  Nothing but offsets changes, and every offset is the one of the start or the end of the
file.  Where two threads share a description, it may be the end although no call fails. -/
theorem sizes_of_shared (hK : Documented h K) (hfresh : s₀.Fresh)
    (hrun : Run smpFileSizeFromSeek K s₀ H s) :
    (∀ i n x, .finish i n x ∈ H → x = smpFailure ∨ ∃ fd o d c, .begin i n fd ∈ H ∧
      Leads h s₀.env i fd o d c ∧ x = c.length) ∧
    Near s₀.env s.env ∧
    ∀ i j fd fd' o d c, i ≠ j → Leads h s₀.env i fd o d c → Leads h s₀.env j fd' o d c →
      ∃ H' s', Run smpFileSizeFromSeek (Does h) s₀ H' s' ∧ (∀ l, s'.client l = none) ∧
        .finish i 0 (c.length : Int) ∈ H' ∧ .finish j 1 (c.length : Int) ∈ H' ∧
        s'.env = seekTo s₀.env o d c.length := by
  have hsized : Sized h s₀.env H s := by
    refine hrun.invariant ?_ fun hsized hstep => hsized.step hK hstep
    exact ⟨.refl s₀.env, fun _ _ hb => absurd hb hfresh.client_ne,
      fun _ _ _ hmem => absurd hmem List.not_mem_nil⟩
  refine ⟨hsized.done, hsized.near, ?_⟩
  intro i j fd fd' o d c hij hleads hleads'
  have hs₀ : s₀ = pair i j s₀.env none none 0 := by
    obtain ⟨env, client, count⟩ := s₀
    obtain ⟨hidle, rfl⟩ := hfresh
    have hclient : client = fun _ => none := funext hidle
    subst hclient
    simp [pair]
  rw [hs₀]
  exact offset_lost hij hleads hleads'

end Runs

/-- A descriptor of a file of three bytes, which two threads of a process share, and nothing
mapped. -/
def sampleKern : Kern Bool Unit String where
  content := fun _ => some [1, 2, 3]
  desc := fun _ => some ⟨"log", 0, 1, true⟩
  fds := fun _ _ => some 0
  maps := fun _ _ => false

theorem sampleKern_leads (i : Bool) :
    Leads sampleHost sampleKern i 3 0 ⟨"log", 0, 1, true⟩ [1, 2, 3] :=
  ⟨rfl, rfl, rfl⟩

/-- Its threads are idle. -/
def sampleShared : System Bool (Kern Bool Unit String) Int Syscall Answer Int :=
  ⟨sampleKern, fun _ => none, 0⟩

/-- The offset was one, and is three. -/
theorem sizes_of_shared_sample : ∃ H s,
    Run smpFileSizeFromSeek (Does sampleHost) sampleShared H s ∧
      .finish true 0 3 ∈ H ∧ .finish false 1 3 ∈ H ∧
      s.env.desc 0 = some ⟨"log", 0, 3, true⟩ := by
  have hfresh : sampleShared.Fresh := ⟨fun _ => rfl, rfl⟩
  have hstart : Run smpFileSizeFromSeek (Does sampleHost) sampleShared [] sampleShared := .start
  obtain ⟨H, s, hrun, -, hfirst, hsecond, henv⟩ :=
    (sizes_of_shared (h := sampleHost) id hfresh hstart).2.2 true false 3 3 0 _ _ (by decide)
      (sampleKern_leads true) (sampleKern_leads false)
  exact ⟨H, s, hrun, hfirst, hsecond, by rw [henv]; rfl⟩

end Files
end Smpcil
