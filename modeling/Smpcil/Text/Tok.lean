import Smpcil.Text.Compare
import Smpcil.Text.Trim
import Smpcil.Foundations.Tokens

/-!
# Tokens of a string

`smp_strtok` of `smp_string.c`, with the position that it keeps between its calls.  The
delimiter is not a part of the buffer.

Main results:

- Theorem {lit}`smpStrtok_next`: one call cuts one token off.
- Theorem {lit}`smpStrtokAll_eq`: a run of calls returns the greedy tokens.
- Theorem {lit}`smpStrtok_greedy`: a whole run, from the call with the string on.
-/

namespace Smpcil
namespace Text

open Loops (Pass loop)
open Strings (StringAt stringAt_iff)
open Tokens

/-! ## The function -/

/-- The static variables of `smp_strtok`. -/
structure TokStatics where
  p : Option Nat
  start : Option Nat

/-- `strlen(p)`. -/
def Buffer.strlen (buf : Buffer) (p : Nat) : Exec Nat :=
  match (buf.drop p).idxOf? 0 with
  | some len => .ok len
  | none => .error .outOfBounds

/-- One pass of the `for` loop; the state is {lit}`i` and {lit}`p`. -/
def tokPass (buf : Buffer) (delim : CString) (len : Nat) (s : Nat × Nat) :
    Exec (Pass (Nat × Nat) (Nat × Buffer)) := do
  let (i, p) := s
  if i < len then
    let ret ← memcmp (fun k => buf.read (p + k)) (fun k => delim.read k) delim.strlen 0
    if ret = 0 then
      let buf ← buf.write p 0
      return .done (p + delim.strlen, buf)
    return .again (i + 1, p + 1)
  else return .done (p, buf)

/-- `smp_strtok`: the token, the static variables and the buffer. -/
def smpStrtok (st : TokStatics) (buf : Buffer) (str : Option Nat) (delim : Option CString) :
    Exec (Option Nat × TokStatics × Buffer) := do
  let st : TokStatics := if str = none then st else ⟨str, str⟩
  let st : TokStatics := { st with start := st.p }
  match st.p with
  | none => .error .outOfBounds
  | some p =>
    let len ← buf.strlen p
    match delim with
    | none => return (some p, st, buf)
    | some delim =>
      let (p, buf) ← loop .diverged (tokPass buf delim len) (len + 1) (0, p)
      return (st.start, { st with p := some p }, buf)

/-- The calls `smp_strtok(NULL, d)` for a sequence of delimiters. -/
def smpStrtokAll (st : TokStatics) (buf : Buffer) :
    List CString → Exec (List (Option Nat) × TokStatics × Buffer)
  | [] => .ok ([], st, buf)
  | d :: ds => do
      let (tok, st, buf) ← smpStrtok st buf none (some d)
      let (toks, st, buf) ← smpStrtokAll st buf ds
      return (tok :: toks, st, buf)

/-- The calls `smp_strtok(str, d)` and then `smp_strtok(NULL, e)` for the delimiters behind
{lit}`d`. -/
def smpStrtokRun (st : TokStatics) (buf : Buffer) (str : Nat) (d : CString) (ds : List CString) :
    Exec (List (Option Nat) × TokStatics × Buffer) := do
  let (tok, st, buf) ← smpStrtok st buf (some str) (some d)
  let (toks, st, buf) ← smpStrtokAll st buf ds
  return (tok :: toks, st, buf)

/-! ## One call -/

variable {buf : Buffer} {r : Rest Int8} {p : Nat} {s rest : List Int8} {delim : CString}

theorem Buffer.strlen_of_drop (h0 : 0 ∉ s) (h : buf.drop p = s ++ 0 :: rest) :
    buf.strlen p = .ok s.length := by
  rw [Buffer.strlen, h, Strings.idxOf?_append_cons h0]

/-- The comparison of a delimiter with what is left of a string stops at the terminator at
the latest. -/
theorem memcmp_of_drop {b : Nat → Exec Int8} {d : List Int8} {i : Nat}
    (h : buf.drop (p + i) = s ++ 0 :: rest) (h0 : 0 ∉ d)
    (hb : ∀ t (ht : t < d.length), b (i + t) = .ok d[t]) :
    ∃ c, memcmp (fun k => buf.read (p + k)) b d.length i = .ok c ∧ (c = 0 ↔ d <+: s) := by
  induction d generalizing s i with
  | nil => exact ⟨0, rfl, by simp⟩
  | cons y d ih =>
      have hy : b i = .ok y := hb 0 (Nat.zero_lt_succ _)
      simp only [List.mem_cons, not_or] at h0
      cases s with
      | nil =>
          have hread : buf.read (p + i) = .ok 0 := Buffer.read_of_drop h
          rcases @memcmp_differ (fun k => buf.read (p + k)) b _ _ d.length i hread hy h0.1 with
            ⟨hrun, hne⟩
          refine ⟨_, hrun, ?_⟩
          rw [List.prefix_nil]
          constructor
          · intro hzero
            omega
          · intro hnil
            cases hnil
      | cons x s =>
          have hread : buf.read (p + i) = .ok x := Buffer.read_of_drop h
          rw [List.cons_prefix_cons]
          by_cases hxy : x = y
          · subst hxy
            have hdrop : buf.drop (p + (i + 1)) = s ++ 0 :: rest := drop_succ_of_drop h
            have hrest := ih hdrop h0.2 (reads_tail hb)
            rw [List.length_cons,
              @memcmp_same (fun k => buf.read (p + k)) b x d.length i hread hy]
            simpa using hrest
          · rcases @memcmp_differ (fun k => buf.read (p + k)) b _ _ d.length i hread hy hxy with
              ⟨hrun, hne⟩
            refine ⟨_, hrun, ?_⟩
            constructor
            · intro hzero
              omega
            · intro hcons
              exact absurd hcons.1.symm hxy

/-- `memcmp(p, delim, del_len)` looks for the delimiter at `p`. -/
theorem memcmp_delim (h : buf.drop p = s ++ 0 :: rest) :
    ∃ c, memcmp (fun k => buf.read (p + k)) (fun k => delim.read k) delim.strlen 0 = .ok c ∧
      (c = 0 ↔ delim.bytes <+: s) := by
  apply @memcmp_of_drop buf p s rest _ _ 0 h delim.noNul
  intro t ht
  have hle : (t : Int) ≤ delim.strlen := Int.ofNat_le.mpr ht.le
  rw [Nat.zero_add, CString.read, if_pos ⟨Int.natCast_nonneg t, hle⟩, Int.toNat_natCast,
    List.getD_eq_getElem?_getD, List.getElem?_eq_getElem ht, Option.getD_some]

/-- A position where the delimiter does not occur is passed. -/
theorem tokPass_again {i len : Nat} (hi : i < len) (h : buf.drop p = s ++ 0 :: rest)
    (hocc : ¬ delim.bytes <+: s) : tokPass buf delim len (i, p) = .ok (.again (i + 1, p + 1)) := by
  rcases @memcmp_delim buf p s rest delim h with ⟨c, hcmp, hzero⟩
  have hc : c ≠ 0 := fun heq => hocc (hzero.mp heq)
  simp only [tokPass, if_pos hi, hcmp, Exec.ok_bind, if_neg hc, Exec.pure_eq]

/-- At an occurrence of the delimiter the string is cut. -/
theorem tokPass_done {i len : Nat} (hi : i < len) (h : buf.drop p = s ++ 0 :: rest)
    (hocc : delim.bytes <+: s) :
    tokPass buf delim len (i, p) = .ok (.done (p + delim.strlen, buf.set p 0)) := by
  rcases @memcmp_delim buf p s rest delim h with ⟨c, hcmp, hzero⟩
  have hin : p < buf.length := by
    have hlen := congrArg List.length h
    simp only [List.length_drop, List.length_append, List.length_cons] at hlen
    omega
  have hwrite : buf.write p 0 = .ok (buf.set p 0) := if_pos hin
  simp only [tokPass, if_pos hi, hcmp, Exec.ok_bind, if_pos (hzero.mpr hocc), hwrite,
    Exec.pure_eq]

/-- What is left of the string behind {lit}`i` characters. -/
theorem drop_add_of_text {i : Nat} (h : buf.drop p = s ++ 0 :: rest) (hi : i ≤ s.length) :
    buf.drop (p + i) = s.drop i ++ 0 :: rest := by
  rw [← List.drop_drop, h, List.drop_append_of_le_length hi]

/-- The loop stops at the leftmost occurrence, or at the terminator. -/
theorem tokLoop_eq (hdelim : delim.bytes ≠ []) (h : buf.drop r.pos = r.text ++ 0 :: rest) :
    loop .diverged (tokPass buf delim r.text.length) (r.text.length + 1) (0, r.pos) =
      .ok ((r.next delim.bytes).pos, blank 0 buf (r.cut delim.bytes)) := by
  -- no occurrence begins before `i`
  have hpass : ∀ n (s : Nat × Nat), (s.1 ≤ r.text.length ∧ n = r.text.length - s.1 ∧
      s.2 = r.pos + s.1 ∧ ∀ k < s.1, ¬ delim.bytes <+: r.text.drop k) →
      (∃ t, tokPass buf delim r.text.length s = .ok (.done t) ∧
        t = ((r.next delim.bytes).pos, blank 0 buf (r.cut delim.bytes))) ∨
      ∃ s' m, tokPass buf delim r.text.length s = .ok (.again s') ∧
        (s'.1 ≤ r.text.length ∧ m = r.text.length - s'.1 ∧ s'.2 = r.pos + s'.1 ∧
          ∀ k < s'.1, ¬ delim.bytes <+: r.text.drop k) ∧ m < n := by
    rintro n ⟨i, p⟩ ⟨hi, hn, hp, hnone⟩
    simp only at hi hn hp hnone
    subst hp
    have hdrop := drop_add_of_text h hi
    by_cases hlt : i < r.text.length
    · by_cases hocc : delim.bytes <+: r.text.drop i
      · have hleft := (leftmost_eq_some hdelim).mpr ⟨hocc, hnone⟩
        refine Or.inl ⟨_, tokPass_done hlt hdrop hocc, ?_⟩
        rw [Rest.next, Rest.cut, hleft]
        rfl
      · refine Or.inr ⟨_, _, tokPass_again hlt hdrop hocc, ⟨hlt, rfl, rfl, ?_⟩, ?_⟩
        · intro k hk
          rcases Nat.lt_succ_iff_lt_or_eq.mp hk with hbefore | rfl
          · exact hnone k hbefore
          · exact hocc
        · show r.text.length - (i + 1) < n
          omega
    · have hleft : leftmost delim.bytes r.text = none := by
        rw [leftmost_eq_none hdelim]
        intro k hocc
        have hle := Occurrences.le_length_of_prefix hdelim hocc
        have hpos := List.length_pos_iff.mpr hdelim
        exact hnone k (by omega) hocc
      obtain rfl : i = r.text.length := by omega
      refine Or.inl ⟨_, if_neg hlt, ?_⟩
      rw [Rest.next, Rest.cut, hleft]
      rfl
  have hspec : ∃ t, loop .diverged (tokPass buf delim r.text.length) (r.text.length + 1)
      (0, r.pos) = .ok t ∧
      t = ((r.next delim.bytes).pos, blank 0 buf (r.cut delim.bytes)) :=
    Loops.loop_spec _ _ hpass ⟨Nat.zero_le _, rfl, rfl, fun k hk => absurd hk (Nat.not_lt_zero k)⟩
      (Nat.lt_succ_self _)
  rcases hspec with ⟨t, hrun, rfl⟩
  exact hrun

/-- One call returns the rest of the string and cuts one token off. -/
theorem smpStrtok_next {st : TokStatics} (hst : st.p = some r.pos)
    (hr : StringAt 0 buf r.pos r.text) (h0 : 0 ∉ r.text) (hdelim : delim.bytes ≠ []) :
    smpStrtok st buf none (some delim) =
      .ok (some r.pos, ⟨some (r.next delim.bytes).pos, some r.pos⟩,
        blank 0 buf (r.cut delim.bytes)) := by
  rcases stringAt_iff.mp hr with ⟨rest, hdrop⟩
  simp only [smpStrtok, if_true, hst, Buffer.strlen_of_drop h0 hdrop, Exec.ok_bind,
    tokLoop_eq hdelim hdrop, Exec.pure_eq]

/-- The first call is given the string. -/
theorem smpStrtok_first {st : TokStatics} {str : Nat} :
    smpStrtok st buf (some str) (some delim) =
      smpStrtok ⟨some str, some str⟩ buf none (some delim) := rfl

/-! ## Runs -/

variable {ds : List CString}

/-- What is left of a string contains none but its characters. -/
theorem not_mem_next (h0 : 0 ∉ r.text) : 0 ∉ (r.next delim.bytes).text := by
  unfold Rest.next
  split
  · exact fun hmem => h0 (List.mem_of_mem_drop hmem)
  · exact List.not_mem_nil

/-- A run of calls returns the positions of the tokens, and cuts them off. -/
theorem smpStrtokAll_eq {st : TokStatics} (hst : st.p = some r.pos)
    (hr : StringAt 0 buf r.pos r.text) (h0 : 0 ∉ r.text) (hds : ∀ d ∈ ds, d.bytes ≠ []) :
    ∃ st', smpStrtokAll st buf ds =
        .ok ((r.tokens (ds.map CString.bytes)).map fun t => some t.1, st',
          blank 0 buf (r.cuts (ds.map CString.bytes))) ∧
      st'.p = some (r.after (ds.map CString.bytes)).pos := by
  induction ds generalizing st buf r with
  | nil => exact ⟨st, rfl, hst⟩
  | cons d ds ih =>
      have hd := hds d List.mem_cons_self
      have hcut := (Rest.stringAt_cut hr hd).2
      rcases @ih (blank 0 buf (r.cut d.bytes)) (r.next d.bytes)
        ⟨some (r.next d.bytes).pos, some r.pos⟩ rfl hcut (not_mem_next h0)
        (fun e he => hds e (List.mem_cons_of_mem d he)) with ⟨st', hrun, hst'⟩
      refine ⟨st', ?_, hst'⟩
      rw [smpStrtokAll, smpStrtok_next hst hr h0 hd, Exec.ok_bind]
      simp only [hrun, Exec.ok_bind, Exec.pure_eq, List.map_cons, Rest.tokens, Rest.cuts,
        blank_append]

/-- A run is continued from the statics and the buffer that it leaves. -/
theorem smpStrtokAll_append {st st' st'' : TokStatics} {buf' buf'' : Buffer}
    {toks toks' : List (Option Nat)} {es : List CString}
    (h : smpStrtokAll st buf ds = .ok (toks, st', buf'))
    (h' : smpStrtokAll st' buf' es = .ok (toks', st'', buf'')) :
    smpStrtokAll st buf (ds ++ es) = .ok (toks ++ toks', st'', buf'') := by
  induction ds generalizing st buf toks with
  | nil =>
      simp only [smpStrtokAll, Except.ok.injEq, Prod.mk.injEq] at h
      rcases h with ⟨rfl, rfl, rfl⟩
      exact h'
  | cons d ds ih =>
      rw [smpStrtokAll] at h
      rcases Exec.bind_eq_ok.mp h with ⟨⟨tok, st₁, buf₁⟩, hcall, h⟩
      rcases Exec.bind_eq_ok.mp h with ⟨⟨toks₁, st₂, buf₂⟩, hrun, h⟩
      simp only [Exec.pure_eq, Except.ok.injEq, Prod.mk.injEq] at h
      rcases h with ⟨rfl, rfl, rfl⟩
      rw [List.cons_append, smpStrtokAll, hcall, Exec.ok_bind]
      simp only [ih hrun, Exec.ok_bind, Exec.pure_eq, List.cons_append]

theorem smpStrtokRun_eq {st : TokStatics} {str : Nat} {d : CString} :
    smpStrtokRun st buf str d ds = smpStrtokAll ⟨some str, some str⟩ buf (d :: ds) := by
  rw [smpStrtokRun, smpStrtok_first, smpStrtokAll]

/-- The run that starts with {lit}`smp_strtok(str, d)` cuts the tokens of the string
{lit}`s` off and changes nothing else; what is left of {lit}`s` is at the position kept, and
further calls continue the run.  They return the empty string when nothing is left. -/
structure Tokenises (st : TokStatics) (buf : Buffer) (str : Nat) (s : List Int8) (d : CString)
    (ds : List CString) (toks : List (Option Nat)) (st' : TokStatics) (buf' : Buffer) : Prop where
  run : smpStrtokRun st buf str d ds = .ok (toks, st', buf')
  returned : toks = ((Rest.mk str s).tokens ((d :: ds).map CString.bytes)).map fun t => some t.1
  tokens : ∀ t ∈ (Rest.mk str s).tokens ((d :: ds).map CString.bytes), StringAt 0 buf' t.1 t.2
  changed : ∀ k, buf'[k]? =
    if k ∈ (Rest.mk str s).cuts ((d :: ds).map CString.bytes) then some 0 else buf[k]?
  kept : st'.p = some ((Rest.mk str s).after ((d :: ds).map CString.bytes)).pos
  left : StringAt 0 buf' ((Rest.mk str s).after ((d :: ds).map CString.bytes)).pos
    ((Rest.mk str s).after ((d :: ds).map CString.bytes)).text
  continues : ∀ es toks' st'' buf'', smpStrtokAll st' buf' es = .ok (toks', st'', buf'') →
    smpStrtokRun st buf str d (ds ++ es) = .ok (toks ++ toks', st'', buf'')
  finished : ((Rest.mk str s).after ((d :: ds).map CString.bytes)).text = [] →
    ∀ es : List CString, (∀ e ∈ es, 1 ≤ e.strlen) →
      ∃ st'', smpStrtokAll st' buf' es = .ok (List.replicate es.length st'.p, st'', buf') ∧
        st''.p = st'.p

/-- Every run of `smp_strtok` over a string returns its greedy tokens. -/
theorem smpStrtok_greedy {str : Nat} {d : CString} (st : TokStatics) (hs : StringAt 0 buf str s)
    (h0 : 0 ∉ s) (hds : ∀ e ∈ d :: ds, 1 ≤ e.strlen) :
    ∃ toks st' buf', Tokenises st buf str s d ds toks st' buf' := by
  have hbytes : ∀ es : List CString, (∀ e ∈ es, 1 ≤ e.strlen) → ∀ e ∈ es, e.bytes ≠ [] :=
    fun es hes e he => List.length_pos_iff.mp (hes e he)
  have hmap : ∀ es : List CString, (∀ e ∈ es, 1 ≤ e.strlen) →
      ∀ b ∈ es.map CString.bytes, b ≠ [] := by
    intro es hes b hb
    rcases List.mem_map.mp hb with ⟨e, he, rfl⟩
    exact hbytes es hes e he
  rcases @smpStrtokAll_eq buf ⟨str, s⟩ (d :: ds) ⟨some str, some str⟩ rfl hs h0
    (hbytes _ hds) with ⟨st', hrun, hkept⟩
  rw [← smpStrtokRun_eq] at hrun
  rcases @Rest.stringAt_tokens _ 0 _ ⟨str, s⟩ _ buf hs (hmap _ hds) with ⟨htokens, hleft⟩
  refine ⟨_, st', _, hrun, rfl, htokens, ?_, hkept, hleft, ?_, ?_⟩
  · intro k
    exact Rest.getElem?_blank_cuts hs (hmap _ hds)
  · intro es toks' st'' buf'' hes
    rw [smpStrtokRun_eq] at hrun ⊢
    exact smpStrtokAll_append hrun hes
  · intro hempty es hes
    rcases Rest.tokens_empty hempty (hmap _ hes) with ⟨hnone, hcuts, hafter⟩
    rcases @smpStrtokAll_eq _ _ es st' hkept hleft (by rw [hempty]; exact List.not_mem_nil)
      (hbytes _ hes) with ⟨st'', hrun', hkept'⟩
    refine ⟨st'', ?_, ?_⟩
    · rw [hrun', hnone, hcuts, List.map_replicate, List.length_map, hkept]
      rfl
    · rw [hkept', hafter, hkept]

/-- The delimiter `","`. -/
def comma : CString := ⟨[44], by decide, by decide⟩

/-- The theorem at `",1,,2"`: the tokens are `""`, `"1"`, `""` and `"2"`, and then only the
empty string is left. -/
theorem smpStrtok_greedy_list :
    (Rest.mk 0 ([44, 49, 44, 44, 50] : List Int8)).tokens (List.replicate 5 [44]) =
      [(0, []), (1, [49]), (3, []), (4, [50]), (5, [])] ∧
    ∃ toks st' buf', Tokenises ⟨none, none⟩ [44, 49, 44, 44, 50, 0] 0 [44, 49, 44, 44, 50] comma
      (List.replicate 4 comma) toks st' buf' := by
  constructor
  · decide
  · apply smpStrtok_greedy
    · decide
    · decide
    · decide

end Text
end Smpcil
