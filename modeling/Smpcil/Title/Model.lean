import Smpcil.Basic
import Smpcil.Foundations.PackedStrings
import Mathlib.Logic.Function.Basic

/-!
# The process title

`smp_set_proc_titel` of `smp_system.c`.  Memory consists of four objects: the title
passed in, the area with the strings of `argv` and `environ`, and the two blocks that
the copies are made to.  A pointer is an object and an offset in it.  The title is only
to be read; an access outside the objects is a fault, and so is a write to the title.
-/

namespace Smpcil
namespace Title

open Strings (StringAt packed offsets)

/-! ## Memory -/

/-- The objects in memory. -/
inductive Region where
  | title
  | area
  | environ
  | params
deriving DecidableEq, Repr

/-- `char *`. -/
structure Ptr where
  region : Region
  off : Nat
deriving DecidableEq, Repr

/-- `p + n`. -/
def Ptr.add (p : Ptr) (n : Nat) : Ptr := { p with off := p.off + n }

/-- `p - q`, for pointers into one object with {lit}`q` not behind {lit}`p`. -/
def Ptr.sub (p q : Ptr) : Nat := p.off - q.off

/-- The accesses that are faults. -/
inductive Access where
  | readOutside
  | writeOutside
deriving DecidableEq, Repr

/-- The outcome of running a function on this memory. -/
abbrev Run := Except Access

/-- The bytes of the objects. -/
abbrev Mem := Region → List Int8

namespace Mem

/-- `*p`. -/
def read (mem : Mem) (p : Ptr) : Run Int8 :=
  match (mem p.region)[p.off]? with
  | some c => .ok c
  | none => .error .readOutside

/-- `*p = c`. -/
def write (mem : Mem) (p : Ptr) (c : Int8) : Run Mem :=
  if p.region ≠ .title ∧ p.off < (mem p.region).length then
    .ok (Function.update mem p.region ((mem p.region).set p.off c))
  else .error .writeOutside

/-- `strlen`. -/
def strlen (mem : Mem) (p : Ptr) : Run Nat :=
  match ((mem p.region).drop p.off).idxOf? 0 with
  | some n => .ok n
  | none => .error .readOutside

/-- Store bytes one behind the other. -/
def storeAll (mem : Mem) (p : Ptr) : List Int8 → Run Mem
  | [] => .ok mem
  | c :: cs => do
    let mem ← mem.write p c
    storeAll mem (p.add 1) cs

/-- `memset(p, '\0', n)`. -/
def memset (mem : Mem) (p : Ptr) (n : Nat) : Run Mem := mem.storeAll p (List.replicate n 0)

/-- `memcpy`. -/
def memcpy (mem : Mem) (dst src : Ptr) (n : Nat) : Run Mem :=
  if src.off + n ≤ (mem src.region).length then
    mem.storeAll dst (((mem src.region).drop src.off).take n)
  else .error .readOutside

/-- `smp_calloc` for the block {lit}`r`.  A granted block is cleared; {lit}`slack` are the
bytes behind it, which belong to nothing. -/
def smpCalloc (mem : Mem) (answer : Option (List Int8)) (r : Region) (size : Nat) :
    Option Ptr × Mem :=
  match answer with
  | none => (none, mem)
  | some slack => (some ⟨r, 0⟩, Function.update mem r (List.replicate size 0 ++ slack))

/-- The loop of `smp_strcpyn`, with {lit}`n` bytes to go, and what follows it. -/
def strcpynLoop (mem : Mem) (dst src : Ptr) : Nat → Run (Mem × Ptr)
  | 0 => do
    let mem ← mem.write dst 0
    return (mem, dst)
  | n + 1 => do
    let c ← mem.read src
    let mem ← mem.write dst c
    if c = 0 then return (mem, dst)
    strcpynLoop mem (dst.add 1) (src.add 1) n

/-- `smp_strcpyn`. -/
def smpStrcpyn (mem : Mem) (dst src : Ptr) (n : Nat) : Run (Mem × Ptr) :=
  if n = 0 then .ok (mem, dst) else strcpynLoop mem dst src n

/-- The loops that copy strings to {lit}`current` and what lies behind it.  They return
`current` at their end and the pointers that replace those to the strings. -/
def copyStrings (mem : Mem) (current : Ptr) : List Ptr → Run (Mem × Ptr × List Ptr)
  | [] => .ok (mem, current, [])
  | s :: ss => do
    let n ← mem.strlen s
    let (mem, next) ← mem.smpStrcpyn current s n
    let (mem, last, copies) ← copyStrings mem (next.add 1) ss
    return (mem, last, current :: copies)

/-- The loops of `smp_init_set_proc_title`: from {lit}`last` on to the end of the strings
that lie back to back there. -/
def lastEnd (mem : Mem) (last : Ptr) : List Ptr → Run Ptr
  | [] => .ok last
  | s :: ss => do
    if last = s then
      let n ← mem.strlen s
      lastEnd mem (s.add (n + 1)) ss
    else lastEnd mem last ss

end Mem

/-! ## The functions -/

/-- The process: its memory, `argv` up to `argc`, and `environ` up to its null pointer. -/
structure Proc where
  mem : Mem
  argv : List Ptr
  environ : List Ptr

/-- `argv[i]`. -/
def Proc.arg (st : Proc) (i : Nat) : Run Ptr :=
  match st.argv[i]? with
  | some p => .ok p
  | none => .error .readOutside

/-- `smp_init_set_proc_title`: the values of `smp_sys_argv_last` and
`smp_sys_env_last`. -/
def smpInitSetProcTitle (st : Proc) : Run (Ptr × Ptr) := do
  let argvLast ← st.arg 0
  let argvLast ← st.mem.lastEnd argvLast st.argv
  let envLast ← st.mem.lastEnd argvLast st.environ
  return (argvLast, { envLast with off := envLast.off - 1 })

/-- `smp_cpy_environs`. -/
def smpCpyEnvirons (answer : Option (List Int8)) (envLast : Ptr) (st : Proc) :
    Run (Status × Proc) := do
  match st.environ with
  -- the size is that of all memory below `smp_sys_env_last`: there is no such block
  | [] => return (.failure, st)
  | env0 :: _ =>
    match st.mem.smpCalloc answer .environ (envLast.sub env0) with
    | (none, _) => return (.failure, st)
    | (some newAddr, mem) =>
      let (mem, _, copies) ← mem.copyStrings newAddr st.environ
      return (.ok, { st with mem, environ := copies })

/-- `smp_reset_proc_titel`. -/
def smpResetProcTitel (answer : Option (List Int8)) (argvLast envLast title : Ptr)
    (tlen : Nat) (st : Proc) : Run (Status × Proc) := do
  let arg0 ← st.arg 0
  if st.argv.length ≤ 1 then
    let mem ← st.mem.memset arg0 (envLast.sub arg0)
    let mem ← mem.memcpy arg0 title tlen
    return (.ok, { st with mem })
  else
    let arg1 ← st.arg 1
    match st.mem.smpCalloc answer .params (argvLast.sub arg1) with
    -- `return 0`, which is `SMP_OK`
    | (none, _) => return (.ok, st)
    | (some params, mem) =>
      let (mem, _, saved) ← mem.copyStrings params st.argv.tail
      let mem ← mem.memset arg0 (envLast.sub arg0)
      let (mem, current) ← mem.smpStrcpyn arg0 title tlen
      let (mem, _, args) ← mem.copyStrings (current.add 1) saved
      return (.ok, { st with mem, argv := arg0 :: args })

/-- `smp_set_proc_titel`, with the allocator's answers for the copy of the environment
and for that of the arguments. -/
def smpSetProcTitel (envAnswer argAnswer : Option (List Int8)) (title : Option Ptr)
    (st : Proc) : Run (Status × Proc) := do
  match title with
  | none => return (.failure, st)
  | some title =>
    let tlen ← st.mem.strlen title
    let arg0 ← st.arg 0
    let n ← st.mem.strlen arg0
    if tlen ≤ n then
      let mem ← st.mem.memset arg0 n
      let mem ← mem.memcpy arg0 title tlen
      return (.ok, { st with mem })
    else
      -- all three statuses are ignored
      let (argvLast, envLast) ← smpInitSetProcTitle st
      let (_, st) ← smpCpyEnvirons envAnswer envLast st
      let (_, st) ← smpResetProcTitel argAnswer argvLast envLast title tlen st
      return (.ok, st)

/-! ## The start of a process -/

/-- What a process starts with, and the title it is to be given: `argv[0]`, the other
arguments and the environment. -/
structure Start where
  title : List Int8
  arg0 : List Int8
  args : List (List Int8)
  envs : List (List Int8)
  envs_ne_nil : envs ≠ []
  title_noNul : 0 ∉ title
  noNul : ∀ s ∈ arg0 :: args ++ envs, 0 ∉ s

namespace Start

/-- The strings of `argv` and of `environ`, back to back. -/
def area (s : Start) : List Int8 := packed 0 (s.arg0 :: s.args) ++ packed 0 s.envs

/-- The first position behind the strings of `argv`. -/
def argvEnd (s : Start) : Nat := (packed 0 (s.arg0 :: s.args)).length

/-- The memory at the start of the process. -/
def mem (s : Start) : Mem
  | .title => s.title ++ [0]
  | .area => s.area
  | _ => []

/-- The process at its start. -/
def proc (s : Start) : Proc where
  mem := s.mem
  argv := (offsets 0 (s.arg0 :: s.args)).map (Ptr.mk .area)
  environ := (offsets s.argvEnd s.envs).map (Ptr.mk .area)

/-- The call of `smp_set_proc_titel` at the start of the process. -/
def setTitle (s : Start) (envAnswer argAnswer : Option (List Int8)) : Run (Status × Proc) :=
  smpSetProcTitel envAnswer argAnswer (some ⟨.title, 0⟩) s.proc

end Start

/-- The pointers read as the strings. -/
def Proc.Reads (st : Proc) (ps : List Ptr) (ss : List (List Int8)) : Prop :=
  List.Forall₂ (fun p s => StringAt 0 (st.mem p.region) p.off s) ps ss

end Title
end Smpcil
