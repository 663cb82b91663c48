import Smpcil.Basic
import Smpcil.Foundations.Programs

/-!
# Files

The functions of `smp_file.c` that open, read, write, append to, seek in and map files, as
programs that make system calls, and what the documentation lets the kernel answer.

A descriptor of a process leads to an open file description, which several descriptors may share,
and the description to a file.  Paths lead to files; none of the functions changes where.

Main results:

- Definitions {lit}`smpReadFile`, {lit}`smpWriteFile` and {lit}`smpFileWriteApend`: a whole
  transfer each.
- Definition {lit}`Does`: the documented answers of the kernel.
-/

namespace Smpcil
namespace Files

open Programs

/-! ## System calls -/

/-- The third argument of `lseek`. -/
inductive Whence where
  | seekSet
  | seekCur
  | seekEnd
deriving DecidableEq, Repr

/-- The system calls that the functions make. -/
inductive Syscall where
  | sysOpen (file : String) (flg : Nat) (mode : Option Int)
  | sysClose (fd : Int)
  | sysRead (fd : Int) (size : Nat)
  | sysWrite (fd : Int) (bytes : List UInt8)
  | sysLseek (fd : Int) (offset : Int) (whence : Whence)
  | sysMmap (start len : Nat) (prot flags : Int) (fd : Int) (offset : Int)
  | sysMunmap (start len : Nat)
deriving DecidableEq, Repr

/-- What a system call returns, and what it stores in the buffer that it was given. -/
structure Answer where
  ret : Int
  data : List UInt8
deriving DecidableEq, Repr

/-- A C function that makes system calls. -/
abbrev Sys (X : Type) := Prog Syscall Answer X

/-- `SMP_FAILURE`. -/
def smpFailure : Int := -1

/-- `SMP_FILE_READ_FAIL`. -/
def smpFileReadFail : Int := -1

/-- `SMP_FILE_WRITE_FAIL`. -/
def smpFileWriteFail : Int := -1

/-- `SMP_FILE_NO_MODE`. -/
def smpFileNoMode : Int := -1

/-- `SMP_FILE_DEF_MODE`. -/
def smpFileDefMode : Int := 0o666

/-- `SMP_FILE_RDONLY`. -/
def smpFileRdonly : Nat := 0

/-- `SMP_FILE_WRONLY`. -/
def smpFileWronly : Nat := 1

/-- `SMP_FILE_CREAT`. -/
def smpFileCreat : Nat := 0o100

/-- `SMP_FILE_APPEND`. -/
def smpFileAppend : Nat := 0o2000

/-! ## Opening and closing -/

/-- `smp_open`. -/
def smpOpen (file : String) (flg : Nat) (mode : Int) : Sys Int :=
  if mode = smpFileNoMode then do
    let fd ← Prog.invoke (.sysOpen file flg none)
    if fd.ret = -1 then return smpFailure
    return fd.ret
  else do
    let fd ← Prog.invoke (.sysOpen file flg (some mode))
    if fd.ret = -1 then return smpFailure
    return fd.ret

/-- The value of a failure is the one that a call fails with. -/
theorem ret_or_failure (a : Answer) :
    (if a.ret = -1 then (return smpFailure : Sys Int) else return a.ret) = .ret a.ret := by
  split
  · rename_i h
    rw [h]
    rfl
  · rfl

/-- `smp_close`. -/
def smpClose (fd : Int) : Sys Int := do
  let a ← Prog.invoke (.sysClose fd)
  return a.ret

/-! ## Reading and writing -/

/-- What a call of `read` leaves in a buffer. -/
def filled (b : List UInt8) (a : Answer) : List UInt8 := a.data ++ b.drop a.data.length

/-- `smp_read`: what it returns, and the buffer then. -/
def smpRead (fd : Int) (buf : Option (List UInt8)) (size : Nat) :
    Sys (Int × Option (List UInt8)) :=
  match buf with
  | none => return (smpFileReadFail, none)
  | some b =>
      if size = 0 then return (smpFileReadFail, some b)
      else do
        let a ← Prog.invoke (.sysRead fd size)
        if a.ret ≥ 0 then return (a.ret, some (filled b a))
        return (smpFailure, some (filled b a))

/-- `smp_write`. -/
def smpWrite (fd : Int) (buf : Option (List UInt8)) (size : Nat) : Sys Int :=
  match buf with
  | none => return smpFileWriteFail
  | some b =>
      if size = 0 then return smpFileWriteFail
      else do
        let a ← Prog.invoke (.sysWrite fd (b.take size))
        if a.ret ≥ 0 then return a.ret
        return smpFailure

/-- `smp_read_file`: what it returns, and the buffer then. -/
def smpReadFile (file : String) (buf : Option (List UInt8)) (readSize : Nat) :
    Sys (Int × Option (List UInt8)) :=
  if buf = none ∨ readSize = 0 then return (smpFileReadFail, buf)
  else do
    let fd ← smpOpen file smpFileRdonly smpFileNoMode
    if fd = smpFailure then return (smpFileReadFail, buf)
    let readRet ← smpRead fd buf readSize
    let _ ← smpClose fd
    return readRet

/-- `smp_write_file`. -/
def smpWriteFile (file : String) (buf : Option (List UInt8)) (writeSize : Nat) : Sys Int :=
  if buf = none ∨ writeSize = 0 then return smpFileWriteFail
  else do
    let fd ← smpOpen file (smpFileWronly ||| smpFileCreat) smpFileDefMode
    if fd = smpFailure then return smpFileWriteFail
    let writeRet ← smpWrite fd buf writeSize
    let _ ← smpClose fd
    return writeRet

/-- `smp_file_write_apend`. -/
def smpFileWriteApend (file : String) (buf : Option (List UInt8)) (writeSize : Nat) : Sys Int :=
  if buf = none ∨ writeSize = 0 then return smpFileWriteFail
  else do
    let fd ← smpOpen file (smpFileWronly ||| smpFileAppend ||| smpFileCreat) smpFileDefMode
    if fd = smpFailure then return smpFileWriteFail
    let writeRet ← smpWrite fd buf writeSize
    let _ ← smpClose fd
    return writeRet

/-! ## Seeking -/

/-- `smp_lseek`. -/
def smpLseek (fd : Int) (offset : Int) (whence : Whence) : Sys Int := do
  let offsetRet ← Prog.invoke (.sysLseek fd offset whence)
  if offsetRet.ret = -1 then return smpFailure
  return offsetRet.ret

theorem smpLseek_eq (fd offset : Int) (whence : Whence) : smpLseek fd offset whence =
    .call (.sysLseek fd offset whence) fun a => .ret a.ret :=
  congrArg (Prog.call _) (funext ret_or_failure)

/-- `smp_file_seek_current`. -/
def smpFileSeekCurrent (fd : Int) : Sys Int := smpLseek fd 0 .seekCur

/-- `smp_file_seek_end`. -/
def smpFileSeekEnd (fd : Int) : Sys Int := smpLseek fd 0 .seekEnd

/-- `smp_file_seek_begin_offset`. -/
def smpFileSeekBeginOffset (fd : Int) (offset : Int) : Sys Int := smpLseek fd offset .seekSet

/-- `smp_file_size_from_seek`. -/
def smpFileSizeFromSeek (fd : Int) : Sys Int := do
  let currOffset ← smpFileSeekCurrent fd
  if currOffset = smpFailure then return smpFailure
  let fileSize ← smpFileSeekEnd fd
  if fileSize = smpFailure then return smpFailure
  let back ← smpFileSeekBeginOffset fd currOffset
  if back = smpFailure then return smpFailure
  return fileSize

/-! ## Mapping -/

/-- `smp_memmap`; `MAP_FAILED` is the address `-1`. -/
def smpMemmap (start len : Nat) (prot flags : Int) (fd : Int) (offset : Int) : Sys VoidPtr := do
  let address ← Prog.invoke (.sysMmap start len prot flags fd offset)
  if address.ret = -1 then return NULL
  return address.ret.toNat

/-- `smp_memmap_remove`. -/
def smpMemmapRemove (start length : Nat) : Sys Status := do
  let a ← Prog.invoke (.sysMunmap start length)
  if a.ret = -1 then return .failure
  return .ok

/-- `smp_file2memmap`. -/
def smpFile2memmap (fd : Int) (prot flags : Int) : Sys VoidPtr := do
  let fileSize ← smpFileSizeFromSeek fd
  if fileSize = smpFailure then return NULL
  smpMemmap NULL (toSize fileSize) prot flags fd 0

/-- `smp_file2memmap_remove`, whose size is an `int`. -/
def smpFile2memmapRemove (start : Nat) (fd : Int) : Sys Status := do
  let size ← smpFileSizeFromSeek fd
  let fileSize := size.bmod (2 ^ 32)
  if fileSize = smpFailure then return .failure
  smpMemmapRemove start (toSize fileSize)

/-! ## The kernel -/

/-- An open file description: its file, the flags it was opened with, its offset, and who opened
it, which no call depends on. -/
structure Description (ι ν : Type) where
  file : ν
  flg : Nat
  offset : Nat
  opener : ι

/-- The bit of `O_CREAT`. -/
def creates (flg : Nat) : Bool := flg.testBit 6

/-- The bit of `O_TRUNC`. -/
def truncates (flg : Nat) : Bool := flg.testBit 9

/-- The bit of `O_APPEND`. -/
def appends (flg : Nat) : Bool := flg.testBit 10

/-- A description may be read from unless it was opened with `O_WRONLY`. -/
def readable (flg : Nat) : Bool := flg % 4 ≠ 1

/-- A description may be written to unless it was opened with `O_RDONLY`. -/
def writable (flg : Nat) : Bool := flg % 4 ≠ 0

/-- Bytes written at an offset, which may lie behind the end. -/
def overwrite (content : List UInt8) (offset : Nat) (bytes : List UInt8) : List UInt8 :=
  if bytes = [] then content
  else content.take offset ++ List.replicate (offset - content.length) 0 ++ bytes ++
    content.drop (offset + bytes.length)

/-- The size of a page. -/
def pageSize : Nat := 4096

/-- The end of the addresses of a process. -/
def taskSize : Nat := 2 ^ 47

/-- How many pages a length takes. -/
def pagesOf (len : Nat) : Nat := (len + (pageSize - 1)) / pageSize

/-- The pages from {lit}`page` on, {lit}`n` of them, become mapped or unmapped. -/
def setPages (maps : Nat → Bool) (page n : Nat) (b : Bool) : Nat → Bool := fun q =>
  if page ≤ q ∧ q < page + n then b else maps q

/-- The state of the kernel: contents of the files that exist, descriptions, descriptors of the
processes, and their mapped pages. -/
structure Kern (ι π ν : Type) where
  content : ν → Option (List UInt8)
  desc : Nat → Option (Description ι ν)
  fds : π → Int → Option Nat
  maps : π → Nat → Bool

/-- The process of a thread, and the file that a path leads to. -/
structure Host (ι π ν : Type) where
  proc : ι → π
  path : String → ν

section Documented

variable {ι π ν : Type} [DecidableEq π] [DecidableEq ν]

/-- The kernel with another descriptor table entry. -/
def Kern.setFd (k : Kern ι π ν) (p : π) (fd : Int) (o : Option Nat) : Kern ι π ν :=
  { k with fds := Function.update k.fds p (Function.update (k.fds p) fd o) }

/-- The kernel with another description. -/
def Kern.setDesc (k : Kern ι π ν) (o : Nat) (d : Description ι ν) : Kern ι π ν :=
  { k with desc := Function.update k.desc o (some d) }

/-- The kernel with another content of a file. -/
def Kern.setContent (k : Kern ι π ν) (f : ν) (c : List UInt8) : Kern ι π ν :=
  { k with content := Function.update k.content f (some c) }

/-- The kernel with other pages of a process. -/
def Kern.setMaps (k : Kern ι π ν) (p : π) (m : Nat → Bool) : Kern ι π ν :=
  { k with maps := Function.update k.maps p m }

/-- The content of a file that has been opened: a missing file is empty now. -/
def afterOpen (flg : Nat) (c : Option (List UInt8)) : List UInt8 :=
  if truncates flg then [] else c.getD []

/-- Where `lseek` counts from. -/
def seekBase (d : Description ι ν) (c : List UInt8) : Whence → Nat
  | .seekSet => 0
  | .seekCur => d.offset
  | .seekEnd => c.length

/-- What the documentation allows a call of a thread to do.  Every call but `close` may fail,
and then changes nothing; `read` and `write` may transfer less than they are asked to; a file
that is opened for appending is written at its end. -/
inductive Does (h : Host ι π ν) (i : ι) : Syscall → Kern ι π ν → Answer → Kern ι π ν → Prop
  | failed {c : Syscall} {k : Kern ι π ν} (data : List UInt8) :
      (∀ fd, c ≠ .sysClose fd) → Does h i c k ⟨-1, data⟩ k
  | opened {file : String} {flg o : Nat} {mode : Option Int} {fd : Int} {k : Kern ι π ν} :
      0 ≤ fd → k.fds (h.proc i) fd = none → (∀ q fd', k.fds q fd' ≠ some o) →
      (k.content (h.path file) ≠ none ∨ creates flg) →
      Does h i (.sysOpen file flg mode) k ⟨fd, []⟩
        (((k.setContent (h.path file) (afterOpen flg (k.content (h.path file)))).setDesc o
          ⟨h.path file, flg, 0, i⟩).setFd (h.proc i) fd (some o))
  | closed {fd ret : Int} {o : Nat} {k : Kern ι π ν} :
      k.fds (h.proc i) fd = some o → ret = 0 ∨ ret = -1 →
      Does h i (.sysClose fd) k ⟨ret, []⟩ (k.setFd (h.proc i) fd none)
  | notOpen {fd : Int} {k : Kern ι π ν} : k.fds (h.proc i) fd = none →
      Does h i (.sysClose fd) k ⟨-1, []⟩ k
  | read {fd : Int} {size o : Nat} {k : Kern ι π ν} {d : Description ι ν}
      {c data : List UInt8} : k.fds (h.proc i) fd = some o → k.desc o = some d →
      k.content d.file = some c → readable d.flg → data <+: c.drop d.offset →
      data.length ≤ size → (data = [] → size = 0 ∨ c.length ≤ d.offset) →
      Does h i (.sysRead fd size) k ⟨data.length, data⟩
        (k.setDesc o { d with offset := d.offset + data.length })
  | wrote {fd : Int} {bytes : List UInt8} {o n off : Nat} {k : Kern ι π ν}
      {d : Description ι ν} {c : List UInt8} : k.fds (h.proc i) fd = some o →
      k.desc o = some d → k.content d.file = some c → writable d.flg → n ≤ bytes.length →
      off = (if appends d.flg then c.length else d.offset) →
      Does h i (.sysWrite fd bytes) k ⟨n, []⟩
        ((k.setContent d.file (overwrite c off (bytes.take n))).setDesc o
          { d with offset := off + n })
  | sought {fd offset : Int} {whence : Whence} {o n : Nat} {k : Kern ι π ν}
      {d : Description ι ν} {c : List UInt8} : k.fds (h.proc i) fd = some o →
      k.desc o = some d → k.content d.file = some c →
      (n : Int) = seekBase d c whence + offset →
      Does h i (.sysLseek fd offset whence) k ⟨n, []⟩ (k.setDesc o { d with offset := n })
  | mapped {start len page : Nat} {prot flags fd offset : Int} {k : Kern ι π ν} : 0 < len →
      flags / 2 ^ 4 % 2 = 0 → 0 < page → (page + pagesOf len) * pageSize ≤ taskSize →
      (∀ q, page ≤ q → q < page + pagesOf len → k.maps (h.proc i) q = false) →
      Does h i (.sysMmap start len prot flags fd offset) k ⟨(page * pageSize : Nat), []⟩
        (k.setMaps (h.proc i) (setPages (k.maps (h.proc i)) page (pagesOf len) true))
  | mappedFixed {page len : Nat} {prot flags fd offset : Int} {k : Kern ι π ν} : 0 < len →
      flags / 2 ^ 4 % 2 = 1 → (page + pagesOf len) * pageSize ≤ taskSize →
      Does h i (.sysMmap (page * pageSize) len prot flags fd offset) k ⟨(page * pageSize : Nat), []⟩
        (k.setMaps (h.proc i) (setPages (k.maps (h.proc i)) page (pagesOf len) true))
  | unmapped {page len : Nat} {k : Kern ι π ν} : 0 < len →
      page * pageSize + len ≤ taskSize →
      Does h i (.sysMunmap (page * pageSize) len) k ⟨0, []⟩
        (k.setMaps (h.proc i) (setPages (k.maps (h.proc i)) page (pagesOf len) false))

/-- A kernel does only what is documented. -/
def Documented (h : Host ι π ν) (K : ι → Syscall → Kern ι π ν → Answer → Kern ι π ν → Prop) :
    Prop :=
  ∀ {i c k a k'}, K i c k a k' → Does h i c k a k'

end Documented

end Files
end Smpcil
