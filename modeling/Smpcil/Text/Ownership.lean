import Smpcil.Text.Compare
import Smpcil.Foundations.Ledger

/-!
# Who owns the memory of the strings

The structures that `smp_string.c` and `smp_BoyerMoore.c` request and free: strings, arrays of
strings, splits and match arrays.  A split holds two blocks, and its pieces point into the text,
which it does not own; a string owns its data only if the caller frees it completely.

Main results:

- Definition {lit}`Owned`: the runs of a client, with the objects that it holds.
- Theorem {lit}`smpStrSplit_books`: a split that fails leaves nothing behind, and one that returns
  keeps its two blocks.
- Theorem {lit}`amount_le_limit`: the records of a split hold all its pieces.
- Theorem {lit}`strings_whole_life`: in every run what is live is what the client holds.
-/

namespace Smpcil
namespace Text

open Allocator
open Loops StringMatch Occurrences

variable {place : Strategy} {align bound n limit amount : Nat} {h h' : History}
  {held : List Block} {text delim substr : CString}

/-! ## The functions -/

/-- `smp_str_create`: the address of the new string and its fields. -/
def smpStrCreate (place : Strategy) (h : History) : Option (VoidPtr × MemStr) × History :=
  let (str, h) := smpCalloc place h sizeofStr
  if str = NULL then (none, smpSetError place h) else (some (str, ⟨0, NULL⟩), h)

/-- `smp_str_set_data`: the old data, and the string with the new ones. -/
def smpStrSetData (str : MemStr) (data : VoidPtr) (dataSize : Nat) : VoidPtr × MemStr :=
  (str.data, ⟨dataSize, data⟩)

/-- `smp_str_destory`. -/
def smpStrDestory (h : History) (str : VoidPtr) : History :=
  if str = NULL then h else .free str :: h

/-- `smp_str_destory_complete`, for the address of the string and its fields. -/
def smpStrDestoryComplete (h : History) (str : VoidPtr) (fields : MemStr) : History :=
  if str = NULL then h
  else .free str :: if fields.data ≠ NULL then .free fields.data :: h else h

/-- `smp_bm_point_destory`. -/
def smpBmPointDestory (h : History) (point : VoidPtr) : History :=
  if point ≠ NULL then .free point :: h else h

/-- The address of the split that `smp_str_split` requests. -/
def splitAddr (place : Strategy) (h : History) : VoidPtr := (smpSplitCreate place h).1

/-- The address of its strings. -/
def strsAddr (place : Strategy) (h : History) (limit : Nat) : VoidPtr :=
  (smpCalloc place (splitHistory place h) (sizeofStr * limit)).1

/-! ## Requests -/

/-- The ledger of a client, whose calls keep at most one error text. -/
structure Books (place : Strategy) (h : History) (held : List Block) : Prop where
  ledger : Ledger place h held
  kept : KeptOnce h

namespace Books

/-- The order in which the blocks are held does not matter. -/
theorem perm {held' : List Block} (hb : Books place h held) (hperm : held.Perm held') :
    Books place h held' :=
  ⟨hb.ledger.perm hperm, hb.kept⟩

/-- A block that is held can be freed. -/
theorem free {b : Block} (hb : Books place h (b :: held)) (hs : Sound align bound place) :
    Books place (.free b.addr :: h) held :=
  ⟨hb.ledger.free hs, hb.kept⟩

/-- A request adds the block of its answer. -/
theorem request (hb : Books place h held) (hn : 0 < n) :
    Books place (.alloc n (place h n) :: h) (answered n (place h n) ++ held) :=
  ⟨hb.ledger.request hn, hb.kept⟩

/-- An error text is no block of the client. -/
theorem setError (hb : Books place h held) : Books place (smpSetError place h) held := by
  refine ⟨⟨trace_smpSetError hb.ledger.trace, ?_, hb.ledger.pos, ?_⟩, hb.kept.setError⟩
  · rw [live_smpSetError]
    exact hb.ledger.all
  · exact freesLive_smpSetError.mpr hb.ledger.frees

end Books

/-- The address that a request gets. -/
theorem smpCalloc_fst : (smpCalloc place h n).1 = (place h n).getD NULL := by
  unfold smpCalloc smpAlloc
  simp only
  split_ifs <;> rfl

/-- A refused request changes nothing. -/
theorem smpCalloc_refused (hb : Books place h held) (hs : Sound align bound place)
    (hnull : (smpCalloc place h n).1 = NULL) : Books place (smpCalloc place h n).2 held := by
  have htrace := hb.ledger.trace.alloc n
  rw [smpCalloc_fst] at hnull
  have hnone : place h n = none := by
    cases hp : place h n with
    | none => rfl
    | some a =>
        have hpos := hs.nonzero hp
        rw [hp] at hnull
        exact absurd hnull (Nat.ne_of_gt hpos)
  rw [hnone] at htrace
  have hasked : Books place (.alloc n none :: h) held :=
    ⟨⟨htrace, hb.ledger.all, hb.ledger.pos, hb.ledger.frees⟩, hb.kept⟩
  have hrun : (smpCalloc place h n).2 =
      smpSetError place (smpSetError place (.alloc n none :: h)) := by
    simp [smpCalloc, smpAlloc, hnone, NULL]
  rw [hrun]
  exact hasked.setError.setError

/-- A request that is granted adds its block. -/
theorem smpCalloc_granted (hb : Books place h held) (hn : 0 < n)
    (hne : (smpCalloc place h n).1 ≠ NULL) :
    Books place (smpCalloc place h n).2 (⟨(smpCalloc place h n).1, n⟩ :: held) := by
  have hrequest := hb.request hn
  rw [smpCalloc_fst] at hne
  cases hp : place h n with
  | none =>
      rw [hp] at hne
      exact absurd rfl hne
  | some a =>
      rw [hp, Option.getD_some] at hne
      rw [hp] at hrequest
      have hrun : smpCalloc place h n = (a, .alloc n (some a) :: h) := by
        simp [smpCalloc, smpAlloc, hp, hne]
      rw [hrun]
      exact hrequest

/-- A match array is one block, and there is none if the call returns null. -/
theorem smpBoyerMoore_books {result : Option (VoidPtr × IntArray)} (hb : Books place h held)
    (hs : Sound align bound place)
    (hrun : smpBoyerMoore place h substr text limit = .ok (result, h')) :
    (result = none → Books place h' held) ∧
      ∀ r, result = some r → r.1 ≠ NULL ∧
        Books place h' (⟨r.1, 4 * ((limit + 1) % 2 ^ 32)⟩ :: held) := by
  unfold smpBoyerMoore at hrun
  by_cases hzero : limit = 0
  · simp only [hzero, if_true, Exec.pure_eq, Except.ok.injEq, Prod.mk.injEq] at hrun
    rcases hrun with ⟨rfl, rfl⟩
    exact ⟨fun _ => hb, fun r hr => by cases hr⟩
  by_cases hnull : (smpCalloc place h (4 * ((limit + 1) % 2 ^ 32))).1 = NULL
  · simp only [hzero, if_false, hnull, if_true, Exec.pure_eq, Except.ok.injEq,
      Prod.mk.injEq] at hrun
    rcases hrun with ⟨rfl, rfl⟩
    exact ⟨fun _ => smpCalloc_refused hb hs hnull, fun r hr => by cases hr⟩
  · simp only [hzero, if_false, hnull] at hrun
    rcases Exec.bind_eq_ok.mp hrun with ⟨fresh, hwrite, hrun⟩
    rcases Exec.bind_eq_ok.mp hrun with ⟨found, -, hrun⟩
    simp only [Exec.pure_eq, Except.ok.injEq, Prod.mk.injEq] at hrun
    rcases hrun with ⟨rfl, rfl⟩
    -- an array without cells could not store the limit
    have hpos : 0 < 4 * ((limit + 1) % 2 ^ 32) := by
      by_contra hempty
      rw [show (limit + 1) % 2 ^ 32 = 0 by omega] at hwrite
      simp [IntArray.write, IntArray.zeros] at hwrite
    refine ⟨fun hnone => absurd hnone (Option.some_ne_none _), fun r hr => ?_⟩
    rw [← Option.some.inj hr]
    exact ⟨hnull, smpCalloc_granted hb hpos hnull⟩

/-! ## Splits -/

/-- The structure of a split is one block, or nothing. -/
theorem smpSplitCreate_books (hb : Books place h held) (hs : Sound align bound place) :
    ((smpSplitCreate place h).1 = NULL → Books place (splitHistory place h) held) ∧
      ((smpSplitCreate place h).1 ≠ NULL →
        Books place (splitHistory place h) (⟨splitAddr place h, sizeofSplit⟩ :: held)) := by
  unfold splitHistory splitAddr smpSplitCreate
  simp only
  split_ifs with hnull
  · exact ⟨fun _ => (smpCalloc_refused hb hs hnull).setError, fun hne => absurd rfl hne⟩
  · exact ⟨fun heq => absurd heq hnull, fun hne => smpCalloc_granted hb (by decide) hne⟩

/-- A split that fails leaves nothing behind, and one that returns keeps the block of the split
and the one of its strings. -/
theorem smpStrSplit_books {result : Option SmpSplit} (hb : Books place h held)
    (hs : Sound align bound place)
    (hrun : smpStrSplit place h text delim limit = .ok (result, h')) :
    (result = none → Books place h' held) ∧
      ∀ r, result = some r → splitAddr place h ≠ NULL ∧ strsAddr place h limit ≠ NULL ∧
        Books place h' (⟨splitAddr place h, sizeofSplit⟩ ::
          ⟨strsAddr place h limit, sizeofStr * limit⟩ :: held) := by
  unfold smpStrSplit at hrun
  by_cases hzero : limit < 1
  · simp only [hzero, if_true, Exec.pure_eq, Except.ok.injEq, Prod.mk.injEq] at hrun
    rcases hrun with ⟨rfl, rfl⟩
    exact ⟨fun _ => hb, fun r hr => by cases hr⟩
  rcases smpSplitCreate_books hb hs with ⟨hrefused, hgranted⟩
  by_cases hsplit : (smpSplitCreate place h).1 = NULL
  · simp only [hzero, if_false, hsplit, if_true, Exec.pure_eq, Except.ok.injEq,
      Prod.mk.injEq] at hrun
    rcases hrun with ⟨rfl, rfl⟩
    exact ⟨fun _ => hrefused hsplit, fun r hr => by cases hr⟩
  have hb₁ := hgranted hsplit
  simp only [hzero, if_false, hsplit] at hrun
  rw [← splitHistory, ← splitAddr] at hrun
  by_cases hstrs : strsAddr place h limit = NULL
  · have hbatch : smpStrBatchCreate place (splitHistory place h) limit =
        (none, smpSetError place (strsHistory place h limit)) := by
      rw [strsAddr] at hstrs
      simp only [smpStrBatchCreate, show limit ≠ 0 by omega, if_false, hstrs, if_true, strsHistory]
    rw [hbatch] at hrun
    simp only [Exec.pure_eq, Except.ok.injEq, Prod.mk.injEq] at hrun
    rcases hrun with ⟨rfl, rfl⟩
    have hb₂ : Books place (strsHistory place h limit)
        (⟨splitAddr place h, sizeofSplit⟩ :: held) := smpCalloc_refused hb₁ hs hstrs
    exact ⟨fun _ => hb₂.setError.free hs, fun r hr => by cases hr⟩
  have hb₂ : Books place (strsHistory place h limit)
      (⟨strsAddr place h limit, sizeofStr * limit⟩ ::
        ⟨splitAddr place h, sizeofSplit⟩ :: held) := by
    refine smpCalloc_granted hb₁ ?_ hstrs
    unfold sizeofStr
    omega
  rw [smpStrBatchCreate_granted (by omega) hstrs, ← strsHistory, ← strsAddr] at hrun
  rcases Exec.bind_eq_ok.mp hrun with ⟨⟨found, h₃⟩, hsearch, hrun⟩
  rcases smpBoyerMoore_books hb₂ hs hsearch with ⟨hnone, hsome⟩
  cases found with
  | none =>
      simp only [Exec.pure_eq, Except.ok.injEq, Prod.mk.injEq] at hrun
      rcases hrun with ⟨rfl, rfl⟩
      refine ⟨fun _ => ?_, fun r hr => by cases hr⟩
      rw [smpSplitDestory, if_neg hstrs]
      exact ((hnone rfl).free hs).free hs
  | some found =>
      rcases hsome found rfl with ⟨-, hb₃⟩
      simp only at hrun
      rcases Exec.bind_eq_ok.mp hrun with ⟨pieces, -, hrun⟩
      simp only [Exec.pure_eq, Except.ok.injEq, Prod.mk.injEq] at hrun
      rcases hrun with ⟨rfl, rfl⟩
      refine ⟨fun hnone => absurd hnone (Option.some_ne_none _), fun r _ =>
        ⟨hsplit, hstrs, ?_⟩⟩
      exact (hb₃.free hs).perm (List.Perm.swap _ _ _)

/-- The records of a split hold all its pieces. -/
theorem amount_le_limit {result : SmpSplit} (hmax : limit < 2 ^ 32)
    (hrun : smpStrSplit place h text delim limit = .ok (some result, h')) :
    result.amount ≤ limit := by
  rcases granted_of_smpStrSplit hmax hrun with ⟨hlimit, hg⟩
  rcases exists_of_smpStrSplit hlimit hmax hg hrun with ⟨point, l, hs, hfound, hsize, hsplit⟩
  have hmi := toInt_lt delim.strlen
  have hni := toInt_lt text.strlen
  have hroom : 0 < (nullStrs limit).size := by
    show 0 < limit
    omega
  -- without a position in the first cell, there is one piece
  have hsingle : point.get 0 = some 0 → result.amount ≤ limit := by
    intro hzero
    rw [strSplit_none hzero (by omega) hroom, Except.ok.injEq] at hsplit
    rw [← hsplit]
    show 1 ≤ limit
    omega
  rcases toInt_limit hlimit hmax with ⟨hle, hint⟩ | ⟨-, hneg, huint⟩
  · have hpoints := hfound.toPoints hs.nonempty hmi hni (by omega) (by omega)
    have hlen := hpoints.size
    by_cases hnil : l = []
    · subst hnil
      exact hsingle hpoints.count
    · by_cases hmany : l.length + 1 < 2 ^ 31
      · rcases @strSplit_spec text delim _ _ point l (nullStrs limit) rfl rfl hpoints hnil hmany
          (show l.length < limit by omega) with ⟨result', hsplit', hamount, -⟩
        rw [hsplit, Except.ok.injEq] at hsplit'
        rw [hsplit', hamount]
        omega
      · exact absurd hsplit (strSplit_overflow hpoints.count (by omega) (by omega))
  · rcases hfound.outcome with ⟨j, -, ⟨hzero, -⟩ | ⟨-, hzero, hnil⟩⟩
    · rcases @strSplit_negative text delim point (nullStrs limit) _ hzero hneg (le_toInt _)
        (by omega) hroom with ⟨last, hsplit'⟩
      rw [hsplit, Except.ok.injEq] at hsplit'
      rw [hsplit', huint]
    · have hempty : l = [] := hnil.resolve_right (by omega)
      rw [hempty] at hzero
      exact hsingle hzero

/-! ## Runs -/

/-- What a client holds: splits, match arrays, strings, arrays of strings, and data of its
own. -/
inductive Obj where
  | split (split strs : VoidPtr) (limit : Nat) (result : SmpSplit)
  | points (point : VoidPtr) (limit : Nat)
  | str (str : VoidPtr) (fields : MemStr)
  | strs (strs : VoidPtr) (amount : Nat)
  | data (data : VoidPtr) (size : Nat)

/-- The blocks of an object. -/
def Obj.blocks : Obj → List Block
  | .split p q limit _ => [⟨p, sizeofSplit⟩, ⟨q, sizeofStr * limit⟩]
  | .points p limit => [⟨p, 4 * ((limit + 1) % 2 ^ 32)⟩]
  | .str p _ => [⟨p, sizeofStr⟩]
  | .strs p amount => [⟨p, sizeofStr * amount⟩]
  | .data p size => [⟨p, size⟩]

/-- The pieces of a split lie in the block of its strings. -/
def Obj.Fits : Obj → Prop
  | .split _ _ limit result => result.amount ≤ limit
  | _ => True

/-- The runs of a client.  It destroys objects that it holds, and frees a string completely
only if it owns the data as well. -/
inductive Owned (place : Strategy) : History → List Obj → Prop where
  | start : Owned place [] []
  | split {h h' : History} {os : List Obj} {text delim : CString} {limit : Nat}
      {result : Option SmpSplit} : Owned place h os → limit < 2 ^ 32 →
      smpStrSplit place h text delim limit = .ok (result, h') →
      Owned place h'
        ((result.map (.split (splitAddr place h) (strsAddr place h limit) limit)).toList ++ os)
  | search {h h' : History} {os : List Obj} {substr text : CString} {limit : Nat}
      {result : Option (VoidPtr × IntArray)} : Owned place h os → limit < 2 ^ 32 →
      smpBoyerMoore place h substr text limit = .ok (result, h') →
      Owned place h' ((result.map fun r => .points r.1 limit).toList ++ os)
  | stringCreate {h h' : History} {os : List Obj} {data : VoidPtr} {dataSize : Nat}
      {result : Option (VoidPtr × MemStr)} : Owned place h os →
      smpStringCreate place h data dataSize = (result, h') →
      Owned place h' ((result.map fun r => .str r.1 r.2).toList ++ os)
  | strCreate {h h' : History} {os : List Obj} {result : Option (VoidPtr × MemStr)} :
      Owned place h os → smpStrCreate place h = (result, h') →
      Owned place h' ((result.map fun r => .str r.1 r.2).toList ++ os)
  | batchCreate {h h' : History} {os : List Obj} {amount : Nat}
      {result : Option (VoidPtr × StrArray)} : Owned place h os →
      smpStrBatchCreate place h amount = (result, h') →
      Owned place h' ((result.map fun r => .strs r.1 amount).toList ++ os)
  | data {h : History} {os : List Obj} {size : Nat} : Owned place h os → 0 < size →
      Owned place (.alloc size (place h size) :: h)
        (((place h size).map fun a => .data a size).toList ++ os)
  | setData {h : History} {os rest : List Obj} {str data : VoidPtr} {fields : MemStr}
      {dataSize : Nat} : Owned place h os → os.Perm (.str str fields :: rest) →
      Owned place h (.str str (smpStrSetData fields data dataSize).2 :: rest)
  | splitDestory {h : History} {os rest : List Obj} {split strs : VoidPtr} {limit : Nat}
      {result : SmpSplit} : Owned place h os → os.Perm (.split split strs limit result :: rest) →
      Owned place (smpSplitDestory h split strs) rest
  | pointDestory {h : History} {os rest : List Obj} {point : VoidPtr} {limit : Nat} :
      Owned place h os → os.Perm (.points point limit :: rest) →
      Owned place (smpBmPointDestory h point) rest
  | strDestory {h : History} {os rest : List Obj} {str : VoidPtr} {fields : MemStr} :
      Owned place h os → os.Perm (.str str fields :: rest) →
      Owned place (smpStrDestory h str) rest
  | strsDestory {h : History} {os rest : List Obj} {strs : VoidPtr} {amount : Nat} :
      Owned place h os → os.Perm (.strs strs amount :: rest) →
      Owned place (smpStrDestory h strs) rest
  | destoryComplete {h : History} {os own rest : List Obj} {str : VoidPtr} {fields : MemStr} :
      Owned place h os → os.Perm (.str str fields :: (own ++ rest)) →
      (fields.data = NULL ∧ own = [] ∨ ∃ size, own = [.data fields.data size]) →
      Owned place (smpStrDestoryComplete h str fields) rest
  | free {h : History} {os rest : List Obj} {data : VoidPtr} {size : Nat} :
      Owned place h os → os.Perm (.data data size :: rest) → Owned place (.free data :: h) rest

/-- The accounts of a client. -/
structure Balance (place : Strategy) (h : History) (os : List Obj) : Prop where
  books : Books place h (os.flatMap Obj.blocks)
  fits : ∀ o ∈ os, o.Fits

namespace Balance

variable {os rest : List Obj} {o : Obj}

/-- The order of the objects does not matter. -/
theorem perm {os' : List Obj} (hb : Balance place h os) (hperm : os.Perm os') :
    Balance place h os' :=
  ⟨hb.books.perm (hperm.flatMap_right Obj.blocks), fun o ho => hb.fits o (hperm.mem_iff.mpr ho)⟩

/-- No object is at the null address. -/
theorem ne_null (hb : Balance place h os) (hs : Sound align bound place) {b : Block}
    (hmem : b ∈ os.flatMap Obj.blocks) : b.addr ≠ NULL :=
  Nat.ne_of_gt (hb.books.ledger.trace.block hs (hb.books.ledger.all.mem_iff.mpr hmem)).1

/-- A call returns null, or a new object. -/
theorem made {α : Type} {result : Option α} {obj : α → Obj} (hb : Balance place h os)
    (hnone : result = none → Books place h' (os.flatMap Obj.blocks))
    (hsome : ∀ r, result = some r → (obj r).Fits ∧
      Books place h' ((obj r).blocks ++ os.flatMap Obj.blocks)) :
    Balance place h' ((result.map obj).toList ++ os) := by
  cases result with
  | none => exact ⟨hnone rfl, hb.fits⟩
  | some r =>
      rcases hsome r rfl with ⟨hfits, hbooks⟩
      refine ⟨hbooks, ?_⟩
      intro o ho
      rcases List.mem_cons.mp ho with rfl | ho
      · exact hfits
      · exact hb.fits o ho

/-- A call makes one request, and returns null or an object with its block. -/
theorem requested {α : Type} {result : Option α} {obj : α → Obj} {r : α}
    (hb : Balance place h os) (hs : Sound align bound place) (hn : 0 < n)
    (hrun : (result, h') = (if (smpCalloc place h n).1 = NULL then
        (none, smpSetError place (smpCalloc place h n).2)
      else (some r, (smpCalloc place h n).2)))
    (hblocks : (obj r).blocks = [⟨(smpCalloc place h n).1, n⟩]) (hfits : (obj r).Fits) :
    Balance place h' ((result.map obj).toList ++ os) := by
  split at hrun
  case isTrue hnull =>
    rcases Prod.mk.inj hrun with ⟨rfl, rfl⟩
    exact ⟨(smpCalloc_refused hb.books hs hnull).setError, hb.fits⟩
  case isFalse hne =>
    rcases Prod.mk.inj hrun with ⟨rfl, rfl⟩
    apply hb.made
    · exact fun hnone => absurd hnone (Option.some_ne_none _)
    · intro r' hr
      rw [← Option.some.inj hr, hblocks]
      exact ⟨hfits, smpCalloc_granted hb.books hn hne⟩

/-- An object of one block is freed. -/
theorem freed {b : Block} (hb : Balance place h os) (hs : Sound align bound place)
    (hperm : os.Perm (o :: rest)) (ho : o.blocks = [b]) :
    b.addr ≠ NULL ∧ Balance place (.free b.addr :: h) rest := by
  have hb' := hb.perm hperm
  have hbooks := hb'.books
  rw [List.flatMap_cons, ho] at hbooks
  refine ⟨hb'.ne_null hs ?_, hbooks.free hs, fun o ho => ?_⟩
  · rw [List.flatMap_cons, ho]
    exact List.mem_cons_self
  · exact hb'.fits o (List.mem_cons_of_mem _ ho)

/-- A split is freed with its strings. -/
theorem split_freed {split strs : VoidPtr} {result : SmpSplit} (hb : Balance place h os)
    (hs : Sound align bound place) (hperm : os.Perm (.split split strs limit result :: rest)) :
    Balance place (smpSplitDestory h split strs) rest := by
  have hb' := hb.perm hperm
  have hbooks : Books place h (⟨split, sizeofSplit⟩ :: ⟨strs, sizeofStr * limit⟩ ::
      rest.flatMap Obj.blocks) := hb'.books
  have hstrs : strs ≠ NULL := hb'.ne_null hs (List.mem_cons_of_mem _ List.mem_cons_self)
  rw [smpSplitDestory, if_neg hstrs]
  exact ⟨((hbooks.perm (List.Perm.swap _ _ _)).free hs).free hs,
    fun o ho => hb'.fits o (List.mem_cons_of_mem _ ho)⟩

/-- A string is freed with the data that it owns. -/
theorem complete_freed {str : VoidPtr} {fields : MemStr} {own : List Obj}
    (hb : Balance place h os) (hs : Sound align bound place)
    (hperm : os.Perm (.str str fields :: (own ++ rest)))
    (hown : fields.data = NULL ∧ own = [] ∨ ∃ size, own = [.data fields.data size]) :
    Balance place (smpStrDestoryComplete h str fields) rest := by
  have hstr : str ≠ NULL := (hb.freed hs hperm rfl).1
  unfold smpStrDestoryComplete
  rw [if_neg hstr]
  rcases hown with ⟨hnull, rfl⟩ | ⟨size, rfl⟩
  · rw [if_neg (not_not_intro hnull)]
    exact (hb.freed hs hperm rfl).2
  · have hdata := hb.freed hs
      (hperm.trans (List.Perm.swap (Obj.data fields.data size) (.str str fields) rest)) rfl
    rw [if_pos hdata.1]
    exact (hdata.2.freed hs (List.Perm.refl _) rfl).2

end Balance

/-- What is live is what the client holds, in every run. -/
theorem Owned.balance {os : List Obj} (hs : Sound align bound place) (ho : Owned place h os) :
    Balance place h os := by
  induction ho with
  | start => exact ⟨⟨.nil, Or.inl rfl⟩, fun o ho => absurd ho List.not_mem_nil⟩
  | split _ hmax hrun ih =>
      rcases smpStrSplit_books ih.books hs hrun with ⟨hnone, hsome⟩
      refine ih.made hnone fun r hr => ⟨?_, (hsome r hr).2.2⟩
      subst hr
      exact amount_le_limit hmax hrun
  | search _ _ hrun ih =>
      rcases smpBoyerMoore_books ih.books hs hrun with ⟨hnone, hsome⟩
      exact ih.made hnone fun r hr => ⟨trivial, (hsome r hr).2⟩
  | stringCreate _ hrun ih => exact ih.requested hs (by decide) hrun.symm rfl trivial
  | strCreate _ hrun ih => exact ih.requested hs (by decide) hrun.symm rfl trivial
  | @batchCreate _ _ _ amount _ _ hrun ih =>
      unfold smpStrBatchCreate at hrun
      by_cases hzero : amount = 0
      · rw [if_pos hzero] at hrun
        rcases Prod.mk.inj hrun with ⟨rfl, rfl⟩
        exact ih
      · rw [if_neg hzero] at hrun
        have hpos : 0 < sizeofStr * amount := Nat.mul_pos (by decide) (Nat.pos_of_ne_zero hzero)
        exact ih.requested hs hpos hrun.symm rfl trivial
  | @data h os size _ hpos ih =>
      have hbooks := ih.books.request hpos
      cases hp : place h size with
      | none =>
          rw [hp] at hbooks
          exact ⟨hbooks, ih.fits⟩
      | some a =>
          rw [hp] at hbooks
          refine ih.made (fun hnone => absurd hnone (Option.some_ne_none _)) fun r hr => ?_
          rw [← Option.some.inj hr]
          exact ⟨trivial, hbooks⟩
  | setData _ hperm ih =>
      have hb := ih.perm hperm
      refine ⟨hb.books, fun o ho => ?_⟩
      rcases List.mem_cons.mp ho with rfl | ho
      · trivial
      · exact hb.fits o (List.mem_cons_of_mem _ ho)
  | splitDestory _ hperm ih => exact ih.split_freed hs hperm
  | pointDestory _ hperm ih =>
      have hfreed := ih.freed hs hperm rfl
      rw [smpBmPointDestory, if_pos hfreed.1]
      exact hfreed.2
  | strDestory _ hperm ih =>
      have hfreed := ih.freed hs hperm rfl
      rw [smpStrDestory, if_neg hfreed.1]
      exact hfreed.2
  | strsDestory _ hperm ih =>
      have hfreed := ih.freed hs hperm rfl
      rw [smpStrDestory, if_neg hfreed.1]
      exact hfreed.2
  | destoryComplete _ hperm hown ih => exact ih.complete_freed hs hperm hown
  | free _ hperm ih => exact (ih.freed hs hperm rfl).2

/-- In every run of a client the blocks that are live are those of the objects it holds, and
they are apart; besides there is at most the one buffer of an error text; nothing was freed twice;
and every split that it holds has its pieces in the block of its strings. -/
theorem strings_whole_life {place : Strategy} {align bound : Nat} {h : History} {os : List Obj}
    (hs : Sound align bound place) (ho : Owned place h os) :
    (live h).Perm (os.flatMap Obj.blocks) ∧ (os.flatMap Obj.blocks).Pairwise Apart ∧
      KeptOnce h ∧ FreesLive h ∧ ∀ o ∈ os, o.Fits := by
  have hb := ho.balance hs
  exact ⟨hb.books.ledger.all, hb.books.ledger.apart hs, hb.books.kept, hb.books.ledger.frees,
    hb.fits⟩

/-- A run in which a split is made. -/
theorem strings_whole_life_sample : ∃ h result,
    Owned (bump 16 (2 ^ 20)) h [.split 16 48 3 result] ∧
      (live h).Perm [⟨16, 16⟩, ⟨48, 48⟩] ∧ KeptOnce h ∧ result.amount ≤ 3 := by
  have hg : SplitGranted (bump 16 (2 ^ 20)) [] 3 := by constructor <;> decide
  rcases smpStrSplit_pieces (by decide) (by decide) hg
    ((searchableFor_iff (by decide) (by decide) ascii_aba (by decide)).mpr ascii_ababa.clean) with
    ⟨result, h, hrun, -⟩
  have ho := Owned.start.split (by decide) hrun
  rcases strings_whole_life (bump_sound (by decide)) ho with ⟨hall, -, hkept, -, hfits⟩
  exact ⟨h, result, ho, hall, hkept, hfits _ List.mem_cons_self⟩

end Text
end Smpcil
