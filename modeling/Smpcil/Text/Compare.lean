import Smpcil.Text.Slices
import Smpcil.Foundations.KeyOrder
import Mathlib.Data.List.Lex
import Mathlib.Data.Prod.Lex

/-!
# Comparing strings

`smp_str_cmp` and the functions of `smp_string.c` that use it, on the strings that the
library makes itself: those of `smp_string_create` and the pieces of `smp_str_split`.

Main results:

- Theorem {lit}`smpStrCmp_held`: strings with data are compared by their lengths, then byte
  by byte.
- Theorem {lit}`Made.held`: a string of the library is null and empty, or its bytes are in
  memory.
- Theorem {lit}`smpStrCmp_order`: the comparison is a total order on the strings with data,
  and has an outcome of its own for the others.
-/

namespace Smpcil
namespace Text

open Allocator (History Strategy)
open KeyOrder

/-! ## Memory -/

/-- The bytes that can be read, by address. -/
abbrev Memory := Nat → Option Int8

/-- `*p`. -/
def Memory.read (mem : Memory) (p : Nat) : Exec Int8 :=
  match mem p with
  | some c => .ok c
  | none => .error .outOfBounds

/-- A `char` as `memcmp` sees it. -/
def unsigned (c : Int8) : Nat := c.toUInt8.toNat

/-- `memcmp` of {lit}`n` bytes from position {lit}`i` on; it reads up to the first
difference and returns it. -/
def memcmp (a b : Nat → Exec Int8) : Nat → Nat → Exec Int
  | 0, _ => .ok 0
  | n + 1, i => do
      let x ← a i
      let y ← b i
      if x = y then memcmp a b n (i + 1) else return (unsigned x : Int) - unsigned y

/-! ## The functions -/

/-- `SMP_CMP_MORETHAN`. -/
def smpCmpMorethan : Int := 1

/-- `SMP_CMP_EQUAL`. -/
def smpCmpEqual : Int := 0

/-- `SMP_CMP_LESSTHAN`. -/
def smpCmpLessthan : Int := -1

/-- `SMP_CMP_NOTEQUAL`. -/
def smpCmpNotequal : Int := -2

/-- `SMP_CMP_POINTLESS`. -/
def smpCmpPointless : Int := -3

/-- `struct smp_str_s`, with an address for its data. -/
structure MemStr where
  len : Nat
  data : VoidPtr
deriving DecidableEq, Repr

/-- `smp_str_cmp`. -/
def smpStrCmp (mem : Memory) (str1 str2 : Option MemStr) : Exec Int := do
  match str1, str2 with
  | some str1, some str2 =>
    if str1.data = NULL ∨ str2.data = NULL then return smpCmpPointless
    if str1.len > str2.len then return smpCmpMorethan
    else
      if str1.len < str2.len then return smpCmpLessthan
      let ret ← memcmp (fun i => mem.read (str1.data + i)) (fun i => mem.read (str2.data + i))
        str1.len 0
      if ret = 0 then return smpCmpEqual
      else if ret > 0 then return smpCmpMorethan
      else return smpCmpLessthan
  | _, _ => return smpCmpPointless

/-- `smp_kv_keyIsequal_bystrs`. -/
def smpKvKeyIsequalBystrs (mem : Memory) (key1 key2 : Option MemStr) : Exec Int := do
  let ret ← smpStrCmp mem key1 key2
  if ret = smpCmpEqual then return smpCmpEqual
  return smpCmpNotequal

/-- `struct smp_kv_s`. -/
structure SmpKv where
  key : MemStr
  value : MemStr

/-- `smp_kv_keyIsequal_bykeys`; the key is the first member, so its address is null
precisely for a null pointer. -/
def smpKvKeyIsequalBykeys (mem : Memory) (kv1 kv2 : Option SmpKv) : Exec Int :=
  match kv1, kv2 with
  | some kv1, some kv2 => smpKvKeyIsequalBystrs mem (some kv1.key) (some kv2.key)
  | _, _ => .ok smpCmpPointless

/-- `smp_string_create`: the address of the new string and its fields. -/
def smpStringCreate (place : Strategy) (h : History) (data : VoidPtr) (dataSize : Nat) :
    Option (VoidPtr × MemStr) × History :=
  let (str, h) := smpCalloc place h sizeofStr
  if str = NULL then (none, smpSetError place h) else (some (str, ⟨dataSize, data⟩), h)

/-! ## The order of byte strings -/

/-- Byte strings are ranked by their lengths, then as lists of unsigned bytes. -/
def shortlex (w : List Int8) : ℕ ×ₗ List ℕ := toLex (w.length, w.map unsigned)

theorem unsigned_injective : Function.Injective unsigned := by
  intro x y hxy
  exact Int8.toBitVec.inj (congrArg UInt8.toBitVec (UInt8.toNat_inj.mp hxy))

theorem shortlex_injective : Function.Injective shortlex := by
  intro u v huv
  have hpair := Prod.mk.inj (toLex_inj.mp huv)
  exact List.map_injective_iff.mpr unsigned_injective hpair.2

section Memcmp

variable {a b : Nat → Exec Int8} {x y : Int8} {n i : Nat}

/-- Equal bytes are passed. -/
theorem memcmp_same (hx : a i = .ok x) (hy : b i = .ok x) :
    memcmp a b (n + 1) i = memcmp a b n (i + 1) := by
  rw [memcmp, hx, Exec.ok_bind, hy, Exec.ok_bind, if_pos rfl]

/-- The first difference decides. -/
theorem memcmp_differ (hx : a i = .ok x) (hy : b i = .ok y) (hxy : x ≠ y) :
    memcmp a b (n + 1) i = .ok ((unsigned x : Int) - unsigned y) ∧ unsigned x ≠ unsigned y := by
  constructor
  · rw [memcmp, hx, Exec.ok_bind, hy, Exec.ok_bind, if_neg hxy, Exec.pure_eq]
  · exact fun heq => hxy (unsigned_injective heq)

/-- The bytes behind the first one. -/
theorem reads_tail {u : List Int8} (h : ∀ t (ht : t < (x :: u).length), a (i + t) = .ok (x :: u)[t])
    (t : Nat) (ht : t < u.length) : a (i + 1 + t) = .ok u[t] := by
  have hnext := h (t + 1) (Nat.succ_lt_succ ht)
  rwa [show i + (t + 1) = i + 1 + t by omega] at hnext

/-- The outcome of `memcmp` on byte strings of one length. -/
theorem memcmp_spec {u v : List Int8}
    (ha : ∀ t (ht : t < u.length), a (i + t) = .ok u[t])
    (hb : ∀ t (ht : t < v.length), b (i + t) = .ok v[t]) (hlen : u.length = v.length) :
    ∃ c, memcmp a b u.length i = .ok c ∧ (c < 0 ↔ u.map unsigned < v.map unsigned) ∧
      (0 < c ↔ v.map unsigned < u.map unsigned) := by
  induction u generalizing v i with
  | nil =>
      have hv : v = [] := List.length_eq_zero_iff.mp hlen.symm
      subst hv
      exact ⟨0, rfl, by simp, by simp⟩
  | cons x u ih =>
      cases v with
      | nil => cases hlen
      | cons y v =>
          have hx : a i = .ok x := ha 0 (Nat.zero_lt_succ _)
          have hy : b i = .ok y := hb 0 (Nat.zero_lt_succ _)
          simp only [List.length_cons, List.map_cons, List.cons_lt_cons_iff]
          by_cases hxy : x = y
          · subst hxy
            have hrest := ih (reads_tail ha) (reads_tail hb) (by simpa using hlen)
            rw [memcmp_same hx hy]
            simpa using hrest
          · rcases @memcmp_differ _ _ _ _ u.length _ hx hy hxy with ⟨hrun, hne⟩
            refine ⟨_, hrun, ?_, ?_⟩
            · simp only [hne, false_and, or_false]
              omega
            · simp only [hne.symm, false_and, or_false]
              omega

end Memcmp

/-! ## Strings with data -/

/-- The data of a string is the byte string {lit}`w` in memory. -/
structure Held (mem : Memory) (s : MemStr) (w : List Int8) : Prop where
  len : s.len = w.length
  data : ∀ i (hi : i < w.length), mem (s.data + i) = some w[i]

variable {mem : Memory} {a b : MemStr} {u v : List Int8}

theorem Held.read (h : Held mem a u) (i : Nat) (hi : i < u.length) :
    mem.read (a.data + (0 + i)) = .ok u[i] := by
  rw [Nat.zero_add, Memory.read, h.data i hi]

/-- Strings with data are compared by their lengths, then byte by byte. -/
theorem smpStrCmp_held (ha : Held mem a u) (hb : Held mem b v) (hadata : a.data ≠ NULL)
    (hbdata : b.data ≠ NULL) :
    smpStrCmp mem (some a) (some b) = .ok (signCmp shortlex u v) := by
  have hdata : ¬ (a.data = NULL ∨ b.data = NULL) := not_or.mpr ⟨hadata, hbdata⟩
  simp only [smpStrCmp, hdata, if_false, ha.len, hb.len, signCmp, shortlex,
    Prod.Lex.toLex_lt_toLex]
  rcases Nat.lt_trichotomy u.length v.length with hlt | heq | hgt
  · simp [hlt, hlt.asymm, smpCmpLessthan]
  · rcases @memcmp_spec (fun i => mem.read (a.data + i)) (fun i => mem.read (b.data + i)) 0 u v
      ha.read hb.read heq with ⟨c, hrun, hneg, hpos⟩
    rw [hrun]
    simp only [heq, lt_irrefl, if_false, Exec.ok_bind, false_or, true_and, ← hneg, ← hpos,
      gt_iff_lt]
    rcases Int.lt_trichotomy c 0 with hc | hc | hc
    · simp [hc, hc.ne, hc.asymm, smpCmpLessthan]
    · simp [hc, smpCmpEqual]
    · simp [hc, hc.ne', hc.asymm, smpCmpMorethan]
  · simp [hgt, hgt.asymm, hgt.ne', smpCmpMorethan]

/-- Without data there is no comparison. -/
theorem smpStrCmp_null (h : a.data = NULL ∨ b.data = NULL) :
    smpStrCmp mem (some a) (some b) = .ok smpCmpPointless := by
  simp only [smpStrCmp, h, if_true, Exec.pure_eq]

/-! ## The strings of the library -/

/-- A piece of a text that begins at the address {lit}`base`. -/
def SmpStr.inMemory (base : VoidPtr) (s : SmpStr) : MemStr :=
  match s.data with
  | none => ⟨s.len, NULL⟩
  | some off => ⟨s.len, (base + off).toNat⟩

/-- The text is in memory at {lit}`base`. -/
structure TextAt (mem : Memory) (base : VoidPtr) (text : CString) : Prop where
  ne_null : base ≠ NULL
  bytes : ∀ i (hi : i < text.bytes.length), mem (base + i) = some text.bytes[i]

/-- The strings that the library makes from data that can be read: those of
`smp_string_create`, and the pieces of a text whose length is not negative as an
`int`. -/
inductive Made (mem : Memory) : MemStr → Prop
  | create {place : Strategy} {h h' : History} {data str : VoidPtr} {size : Nat} {s : MemStr}
      (run : smpStringCreate place h data size = (some (str, s), h')) (ne_null : data ≠ NULL)
      (readable : ∀ i < size, (mem (data + i)).isSome) : Made mem s
  | piece {place : Strategy} {h h' : History} {text delim : CString} {limit r : Nat}
      {result : SmpSplit} {base : VoidPtr}
      (run : smpStrSplit place h text delim limit = .ok (some result, h'))
      (max : limit ≤ 2 ^ 31) (length : 0 ≤ toInt text.strlen) (bytes : TextAt mem base text)
      (lt : r < result.amount) : Made mem ((result.strs.elem r).inMemory base)

/-- Bytes that can be read are a byte string. -/
theorem exists_held {p k : Nat} (h : ∀ i < k, (mem (p + i)).isSome) :
    ∃ w, Held mem ⟨k, p⟩ w := by
  refine ⟨List.ofFn fun i : Fin k => (mem (p + i)).get (h i i.isLt), ?_, ?_⟩
  · rw [List.length_ofFn]
  · intro i hi
    rw [List.getElem_ofFn, Option.some_get]

/-- A piece inside a text is null and empty, or its bytes are in memory. -/
theorem SmpStr.Inside.held {text : CString} {base : VoidPtr} {s : SmpStr} (h : s.Inside text)
    (ht : TextAt mem base text) :
    (s.inMemory base).data = NULL ∧ (s.inMemory base).len = 0 ∨
      (s.inMemory base).data ≠ NULL ∧ ∃ w, Held mem (s.inMemory base) w := by
  rcases s with ⟨len, data⟩
  cases data with
  | none => exact Or.inl ⟨rfl, h⟩
  | some off =>
      rcases inside_some.mp h with ⟨hoff, hend⟩
      lift off to ℕ using hoff
      have hfits : off + len ≤ text.strlen := by exact_mod_cast hend
      have hbase := ht.ne_null
      have haddr : ((base : Int) + (off : Int)).toNat = base + off := by omega
      simp only [SmpStr.inMemory, haddr]
      right
      constructor
      · have hpos : 0 < base := Nat.pos_of_ne_zero hbase
        exact Nat.ne_of_gt (Nat.add_pos_left hpos off)
      · apply exists_held
        intro i hi
        have hlt : off + i < text.strlen := by omega
        rw [Nat.add_assoc, ht.bytes (off + i) hlt]
        rfl

/-- A split that returns pieces got its memory, and its limit is more than one. -/
theorem granted_of_smpStrSplit {place : Strategy} {h h' : History} {text delim : CString}
    {limit : Nat} {result : SmpSplit} (hmax : limit < 2 ^ 32)
    (hrun : smpStrSplit place h text delim limit = .ok (some result, h')) :
    2 ≤ limit ∧ SplitGranted place h limit := by
  have hlimit : 1 ≤ limit := by
    by_contra hzero
    simp only [smpStrSplit, show limit < 1 by omega, if_true, Exec.pure_eq, Except.ok.injEq,
      Prod.mk.injEq, reduceCtorEq, false_and] at hrun
  by_contra hnot
  rcases @smpStrSplit_refused text delim place h limit hlimit hmax (by
    by_cases hone : limit = 1
    · exact Or.inr hone
    · exact Or.inl fun hg => hnot ⟨by omega, hg⟩) with ⟨h'', hrefused⟩
  rw [hrun] at hrefused
  cases hrefused

/-- A string of the library is null and empty, or its bytes are in memory. -/
theorem Made.held (h : Made mem a) :
    a.data = NULL ∧ a.len = 0 ∨ a.data ≠ NULL ∧ ∃ w, Held mem a w := by
  cases h with
  | @create place h _ _ _ _ _ run ne_null readable =>
      unfold smpStringCreate at run
      by_cases hnull : (smpCalloc place h sizeofStr).1 = NULL
      · simp only [hnull, if_true, Prod.mk.injEq, reduceCtorEq, false_and] at run
      · simp only [hnull, if_false, Prod.mk.injEq, Option.some.injEq] at run
        rw [← run.1.2]
        exact Or.inr ⟨ne_null, exists_held readable⟩
  | @piece _ _ _ _ _ limit r result _ run max length bytes lt =>
      rcases granted_of_smpStrSplit (by omega) run with ⟨hlimit, hg⟩
      rcases splitAt_of_smpStrSplit hlimit max hg run with ⟨hs, hat⟩
      have hinside := hat.inside hs.nonempty length (toInt_lt _) (toInt_le _)
        (fun p hp => le_of_mem_inText (List.mem_of_mem_take hp))
      exact (hinside r lt).held bytes

/-! ## The order -/

/-- Two strings have the same length and bytes. -/
def SameBytes (mem : Memory) (a b : MemStr) : Prop :=
  a.len = b.len ∧ ∀ i < a.len, mem (a.data + i) = mem (b.data + i)

/-- Strings have the same bytes precisely if they are the same byte string. -/
theorem sameBytes_iff (ha : Held mem a u) (hb : Held mem b v) : SameBytes mem a b ↔ u = v := by
  constructor
  case mp =>
    rintro ⟨hlen, hbytes⟩
    rw [ha.len, hb.len] at hlen
    apply List.ext_getElem hlen
    intro i hi hi'
    have hbyte := hbytes i (by rw [ha.len]; exact hi)
    rw [ha.data i hi, hb.data i hi', Option.some.injEq] at hbyte
    exact hbyte
  case mpr =>
    intro huv
    subst huv
    constructor
    · rw [ha.len, hb.len]
    · intro i hi
      rw [ha.len] at hi
      rw [ha.data i hi, hb.data i hi]

/-- A string of the library that has data. -/
structure DataStr (mem : Memory) where
  str : MemStr
  made : Made mem str
  ne_null : str.data ≠ NULL

theorem DataStr.exists_held (s : DataStr mem) : ∃ w, Held mem s.str w := by
  rcases s.made.held with ⟨hnull, -⟩ | ⟨-, hw⟩
  · exact absurd hnull s.ne_null
  · exact hw

/-- The bytes of a string. -/
noncomputable def DataStr.bytes (s : DataStr mem) : List Int8 := s.exists_held.choose

theorem DataStr.held (s : DataStr mem) : Held mem s.str s.bytes := s.exists_held.choose_spec

/-- On the strings with data, `smp_str_cmp` is a total preorder that ranks two strings equal
if they have the same bytes only, and the comparison of keys agrees with it. -/
structure ComparesBy (mem : Memory) (cmp : DataStr mem → DataStr mem → Int) : Prop where
  order : TotalPreorder cmp
  run : ∀ s t : DataStr mem, smpStrCmp mem (some s.str) (some t.str) = .ok (cmp s t)
  equal_iff : ∀ s t : DataStr mem, cmp s t = smpCmpEqual ↔ SameBytes mem s.str t.str
  swap : ∀ s t, cmp t s = -cmp s t
  key_iff : ∀ s t : DataStr mem, ∃ ret,
    smpKvKeyIsequalBystrs mem (some s.str) (some t.str) = .ok ret ∧
      (∀ v w, smpKvKeyIsequalBykeys mem (some ⟨s.str, v⟩) (some ⟨t.str, w⟩) = .ok ret) ∧
      (ret = smpCmpEqual ↔ SameBytes mem s.str t.str)

/-- Keys are equal precisely if the comparison says so. -/
theorem smpKvKeyIsequalBystrs_ok {ret : Int}
    (h : smpStrCmp mem (some a) (some b) = .ok ret) :
    smpKvKeyIsequalBystrs mem (some a) (some b) =
      .ok (if ret = smpCmpEqual then smpCmpEqual else smpCmpNotequal) := by
  rw [smpKvKeyIsequalBystrs, h, Exec.ok_bind]
  split_ifs <;> rfl

theorem comparesBy_shortlex :
    ComparesBy mem (signCmp fun s : DataStr mem => shortlex s.bytes) := by
  have hrun : ∀ s t : DataStr mem, smpStrCmp mem (some s.str) (some t.str) =
      .ok (signCmp (fun s : DataStr mem => shortlex s.bytes) s t) := by
    intro s t
    exact smpStrCmp_held s.held t.held s.ne_null t.ne_null
  have hequal : ∀ s t : DataStr mem,
      signCmp (fun s : DataStr mem => shortlex s.bytes) s t = smpCmpEqual ↔
        SameBytes mem s.str t.str := by
    intro s t
    rw [smpCmpEqual, signCmp_eq_zero_iff, shortlex_injective.eq_iff,
      sameBytes_iff s.held t.held]
  constructor
  case order => exact totalPreorder_signCmp _
  case run => exact hrun
  case equal_iff => exact hequal
  case swap => exact fun s t => signCmp_swap
  case key_iff =>
    intro s t
    have hkeys := smpKvKeyIsequalBystrs_ok (hrun s t)
    refine ⟨_, hkeys, fun v w => hkeys, ?_⟩
    rw [← hequal s t]
    split_ifs with hret
    · exact iff_of_true rfl hret
    · exact iff_of_false (by decide) hret

/-- The comparison is a total order of the byte strings on the strings of the library that
have data.  The others are empty; they are not ranked, and no key is equal to them. -/
theorem smpStrCmp_order (mem : Memory) :
    (∃ cmp, ComparesBy mem cmp) ∧ (∀ a, Made mem a → a.data = NULL → a.len = 0) ∧
      ∀ a b, Made mem a → Made mem b → a.data = NULL ∨ b.data = NULL →
        smpStrCmp mem (some a) (some b) = .ok smpCmpPointless ∧
          smpKvKeyIsequalBystrs mem (some a) (some b) = .ok smpCmpNotequal := by
  refine ⟨⟨_, comparesBy_shortlex⟩, ?_, ?_⟩
  · intro a ha hnull
    rcases ha.held with ⟨-, hlen⟩ | ⟨hne, -⟩
    · exact hlen
    · exact absurd hnull hne
  · intro a b _ _ hnull
    have hcmp := @smpStrCmp_null mem a b hnull
    exact ⟨hcmp, smpKvKeyIsequalBystrs_ok hcmp⟩

/-- A memory that holds a text at the address 8. -/
def textMemory (text : CString) : Memory := fun p => if 8 ≤ p then text.bytes[p - 8]? else none

theorem textAt_textMemory (text : CString) : TextAt (textMemory text) 8 text := by
  constructor
  · decide
  · intro i hi
    rw [textMemory, if_pos (Nat.le_add_right 8 i), Nat.add_sub_cancel_left,
      List.getElem?_eq_getElem hi]

/-- The first piece of `"ababa"`, split at `"aba"`. -/
theorem made_empty : Made (textMemory ababa) ⟨0, NULL⟩ := by
  have hsearch : SearchableFor aba ababa ((3 - 1 : Nat) : Int) :=
    (searchableFor_iff (by decide) (by decide) ascii_aba (by decide)).mpr ascii_ababa.clean
  rcases @smpStrSplit_pieces ababa aba (fun _ _ => some 8) [] 3 (by decide) (by decide)
    (by constructor <;> decide) hsearch with ⟨result, h', hrun, hat⟩
  have hpositions : splitPositions ababa aba 3 = [0, 2] := by decide
  rw [hpositions] at hat
  have hfirst := hat.piece 0 (by decide)
  have hmade := Made.piece hrun (by decide) (by decide) (textAt_textMemory ababa)
    (show 0 < result.amount by rw [hat.amount]; decide)
  rwa [hfirst] at hmade

/-- The theorem with `"ababa"` in memory: there is a string with data, and a piece without. -/
theorem smpStrCmp_order_ababa :
    (∃ cmp, ComparesBy (textMemory ababa) cmp) ∧ Nonempty (DataStr (textMemory ababa)) ∧
      smpStrCmp (textMemory ababa) (some ⟨0, NULL⟩) (some ⟨0, NULL⟩) = .ok smpCmpPointless := by
  have horder := smpStrCmp_order (textMemory ababa)
  have hmade : Made (textMemory ababa) ⟨3, 8⟩ :=
    @Made.create _ (fun _ _ => some 16) [] _ 8 16 3 _ rfl (by decide) (by decide)
  exact ⟨horder.1, ⟨⟨3, 8⟩, hmade, by decide⟩,
    (horder.2.2 _ _ made_empty made_empty (Or.inl rfl)).1⟩

/-- An empty piece is not equal to itself. -/
theorem smpStrCmp_fails : ¬ ∀ (mem : Memory) (s : MemStr), Made mem s →
    smpStrCmp mem (some s) (some s) = .ok smpCmpEqual := by
  intro hall
  have hequal := hall _ _ made_empty
  rw [smpStrCmp_null (Or.inl rfl), Except.ok.injEq] at hequal
  exact absurd hequal (by decide)

end Text
end Smpcil
