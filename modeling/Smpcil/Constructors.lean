import Smpcil.Pool.Accounting
import Smpcil.Pool.FirstBlock
import Smpcil.Array.Model
import Smpcil.Link.Model
import Smpcil.PartList.Model
import Smpcil.Stack.Model
import Smpcil.Text.Split

/-!
# Constructors that fail

A constructor takes a pool and several blocks from it, any of which may be refused.  What
does it keep when it returns null?  The containers are run over the pool of `smp_mpool.c`
itself, and the pool over an allocator that may refuse any request.  A failure may also keep
the buffer of `smp_set_error`.

Main results:

- Definition {lit}`KeepsNothing`: a constructor that returns null has freed what it got.
- Theorems {lit}`smpListCreate_keepsNothing_iff`, {lit}`smpArrayInit_keepsNothing_iff`,
  {lit}`smpLinkInit_keepsNothing_iff` and {lit}`smpStackInit_keepsNothing_iff`: the containers.
- Theorem {lit}`smpStrSplit_keepsNothing_iff`: the splitting of strings.
- Theorem {lit}`failures_keepNothing_iff`: all of them, with the big requests of a pool.
-/

namespace Smpcil

open Allocator
open Mpool (Env Pool PoolData BigPool SoundEnv OneBlock Addressed Refused RefusedQuiet Starves
  maxOf newPool firstAnswers sound_firstAnswers smpMpoolCreate smpMpalloc smpMpdestory
  poolAlignment sizeofPool sizeofBigPool)

variable {env : Env} {data : Nat → PoolData} {big : Nat → BigPool}

/-! ## The calls of a constructor -/

/-- The surroundings of one constructor: the contents of the memory that its pool is created
in, the pool once it is created, and what was asked of the allocator. -/
structure Site where
  data : Nat → PoolData
  big : Nat → BigPool
  pool : Option Pool
  history : History

namespace Site

/-- `smp_mpool_create`. -/
def create (env : Env) (site : Site) (size : Nat) : Exec (Bool × Site) := do
  match ← smpMpoolCreate env site.data site.big size with
  | some pool => return (true, { site with pool := some pool, history := pool.history })
  | none =>
      return (false, { site with history := env.setError (.alloc size none :: site.history) })

/-- `smp_mpalloc`; no constructor makes this call without a pool. -/
def mpalloc (env : Env) (fuel : Nat) (site : Site) (size : Nat) : Exec (VoidPtr × Site) :=
  match site.pool with
  | none => .ok (NULL, site)
  | some pool => do
      let (m, pool) ← smpMpalloc env fuel pool size
      return (m, { site with pool := some pool, history := pool.history })

/-- `smp_mpdestory`, which does nothing without a pool. -/
def destory (fuel : Nat) (site : Site) : Exec Site :=
  match site.pool with
  | none => .ok site
  | some pool => do
      let (_, pool) ← smpMpdestory fuel pool
      return { site with pool := none, history := pool.history }

/-- `smp_set_error`. -/
def setError (env : Env) (site : Site) : Site :=
  { site with
    pool := site.pool.map fun pool => { pool with history := env.setError pool.history }
    history := env.setError site.history }

/-- Nothing is left of what was got. -/
def Empty (site : Site) : Prop := live site.history = [] ∧ kept site.history = []

end Site

/-- The calls of a constructor to its pool. -/
def siteCalls (env : Env) (fuel : Nat) : PoolCalls Site where
  create := Site.create env
  mpalloc := Site.mpalloc env fuel
  destory := Site.destory fuel
  setError := Site.setError env

/-- Before a constructor is called. -/
def newSite (data : Nat → PoolData) (big : Nat → BigPool) : Site := ⟨data, big, none, []⟩

/-- The pool of a constructor is created in {lit}`s` bytes at {lit}`p`. -/
def createdSite (env : Env) (data : Nat → PoolData) (big : Nat → BigPool) (s p : Nat) : Site :=
  ⟨data, big, some (newPool env data big s p), [.alloc s (some p)]⟩

/-- If a constructor returns null, all blocks it got are freed, and it keeps no buffer. -/
def KeepsNothing {α : Type} (run : Nat → Exec (Option α × Site)) : Prop :=
  ∀ fuel site, run fuel = .ok (none, site) → site.Empty

/-- A constructor that returns null in one way only. -/
theorem keepsNothing_of_null {α : Type} {run : Nat → Exec (Option α × Site)} {site : Site}
    (hnull : ∀ fuel, run fuel = .ok (none, site)) : KeepsNothing run ↔ site.Empty := by
  constructor
  · exact fun hkeeps => hkeeps 0 site (hnull 0)
  · intro hempty fuel site' hrun
    rw [hnull fuel, Except.ok.injEq, Prod.mk.injEq] at hrun
    exact hrun.2 ▸ hempty

/-! ## A site with a pool of one block -/

/-- The pool of a site is one block of {lit}`s` bytes at {lit}`p`, the first {lit}`off` of
them in use, and nothing else is live. -/
structure Holding (env : Env) (site : Site) (p s off : Nat) : Prop where
  block : ∃ pool, site.pool = some pool ∧ OneBlock pool p s off ∧ pool.max = maxOf env s ∧
    pool.history = site.history
  addressed : Addressed p s
  isLive : live site.history = [⟨p, s⟩]

/-- A created pool. -/
theorem createdSite_holding (hs : SoundEnv env) {p s : Nat} (hheader : sizeofPool ≤ s)
    (hp : env.place [] s = some p) :
    Holding env (createdSite env data big s p) p s sizeofPool := by
  rcases @Mpool.smpMpoolCreate_oneBlock _ _ _ data big hheader hp with
    ⟨pool, hcreate, hblock, hmax, hhistory⟩
  rcases Mpool.smpMpoolCreate_eq_some.mp hcreate with ⟨q, hq, -, rfl⟩
  rw [hp, Option.some.injEq] at hq
  subst hq
  exact ⟨⟨_, rfl, hblock, hmax, rfl⟩, Mpool.addressed_of_place hs hp, rfl⟩

namespace Holding

variable {site site' : Site} {p s off n fuel : Nat}

/-- Without fuel no request is answered. -/
theorem mpalloc_zero (h : Holding env site p s off) :
    (siteCalls env 0).mpalloc site n = .error .diverged := by
  rcases h.block with ⟨pool, hpool, -⟩
  simp only [siteCalls, Site.mpalloc, hpool, smpMpalloc, Exec.error_bind]

/-- A site that holds its block is not empty. -/
theorem not_empty (h : Holding env site p s off) : ¬ site.Empty := by
  intro hempty
  have hlive := hempty.1
  rw [h.isLive] at hlive
  exact List.cons_ne_nil _ _ hlive

/-- An error text leaves the block as it is. -/
theorem setError (h : Holding env site p s off) :
    Holding env (Site.setError env site) p s off := by
  rcases h.block with ⟨pool, hpool, hblock, hmax, hhistory⟩
  refine ⟨⟨{ pool with history := env.setError pool.history }, ?_, { hblock with }, hmax, ?_⟩,
    h.addressed, ?_⟩
  · simp [Site.setError, hpool]
  · simp [Site.setError, hhistory]
  · simpa [Site.setError] using h.isLive

/-- A request with room in the block. -/
theorem carve (h : Holding env site p s off) (hoff : poolAlignment ∣ off)
    (hn : n ≤ maxOf env s) (hroom : off + n ≤ s) :
    ∃ site', (∀ fuel, (siteCalls env (fuel + 1)).mpalloc site n = .ok (p + off, site')) ∧
      p + off ≠ NULL ∧ Holding env site' p s (off + n) ∧ site'.history = site.history := by
  rcases h.block with ⟨pool, hpool, hblock, hmax, hhistory⟩
  rcases @OneBlock.carve env _ _ _ _ _ hblock h.addressed hoff (hmax ▸ hn) hroom with
    ⟨pool', hrun, hblock', hmax', hhistory'⟩
  have hpos : 0 < p := h.addressed.1
  have hne : p + off ≠ NULL := Nat.ne_of_gt (Nat.add_pos_left hpos off)
  refine ⟨⟨site.data, site.big, some pool', pool'.history⟩, fun fuel => ?_, hne, ?_,
    hhistory'.trans hhistory⟩
  · simp only [siteCalls, Site.mpalloc, hpool, hrun, Exec.ok_bind, Exec.pure_eq]
  · refine ⟨⟨pool', rfl, hblock', hmax'.trans hmax, rfl⟩, h.addressed, ?_⟩
    rw [hhistory', hhistory]
    exact h.isLive

/-- A refused request returns null and leaves the block as it was; it may get a buffer for its
error text. -/
theorem null_of_refused (h : Holding env site p s off) (hoff : poolAlignment ∣ off)
    (hle : off ≤ s) (hnone : kept site.history = [])
    (hrefused : Refused env site.history (maxOf env s) s off n) :
    ∃ site', (∀ fuel, (siteCalls env (fuel + 1)).mpalloc site n = .ok (NULL, site')) ∧
      Holding env site' p s off ∧
      (kept site'.history = [] ↔ RefusedQuiet env site.history (maxOf env s) s n) := by
  rcases h.block with ⟨pool, hpool, hblock, hmax, hhistory⟩
  rw [← hmax, ← hhistory] at hrefused ⊢
  rw [← hhistory] at hnone
  rcases hblock.null_of_refused h.addressed hoff hle hnone hrefused with
    ⟨pool', hrun, hblock', hmax', hlive, hquiet⟩
  refine ⟨⟨site.data, site.big, some pool', pool'.history⟩, fun fuel => ?_, ?_, hquiet⟩
  · simp only [siteCalls, Site.mpalloc, hpool, hrun, Exec.ok_bind, Exec.pure_eq, NULL]
  · refine ⟨⟨pool', rfl, hblock', hmax'.trans hmax, rfl⟩, h.addressed, ?_⟩
    rw [hlive, hhistory]
    exact h.isLive

/-- A request that returns null was refused, if the block has room for a record. -/
theorem refused_of_null (hs : SoundEnv env) (h : Holding env site p s off)
    (hoff : poolAlignment ∣ off) (hmax : sizeofBigPool ≤ maxOf env s)
    (hrecord : off + sizeofBigPool ≤ s)
    (hrun : (siteCalls env fuel).mpalloc site n = .ok (NULL, site')) :
    Refused env site.history (maxOf env s) s off n := by
  rcases h.block with ⟨pool, hpool, hblock, hpoolMax, hhistory⟩
  simp only [siteCalls, Site.mpalloc, hpool, Exec.bind_eq_ok] at hrun
  rcases hrun with ⟨⟨m, pool'⟩, hcall, hdone⟩
  simp only [Exec.pure_eq, Except.ok.injEq, Prod.mk.injEq] at hdone
  rcases hdone with ⟨rfl, -⟩
  rw [← hpoolMax, ← hhistory]
  rw [← hpoolMax] at hmax
  exact hblock.refused_of_null hs h.addressed hoff hmax hrecord hcall

/-- Destroying the pool frees its block. -/
theorem destory (h : Holding env site p s off) (hsize : sizeofPool ≤ s) :
    ∃ site', (∀ fuel, (siteCalls env (fuel + 1)).destory site = .ok site') ∧
      live site'.history = [] ∧ kept site'.history = kept site.history := by
  rcases h.block with ⟨pool, hpool, hblock, -, hhistory⟩
  have haddr := hblock.addr
  have hlive : ⟨pool.addr, s⟩ ∈ live pool.history := by
    rw [hhistory, h.isLive, haddr]
    exact List.mem_singleton.mpr rfl
  have hne : pool.addr ≠ 0 := by
    rw [haddr]
    exact Nat.ne_of_gt h.addressed.1
  have hnext : (pool.data pool.addr).next = 0 := by
    rw [haddr]
    exact hblock.next
  have hrun := Mpool.smpMpdestory_single hlive hsize hne hnext hblock.bigPool
  refine ⟨⟨site.data, site.big, none, .free pool.addr :: pool.history⟩, fun fuel => ?_, ?_, ?_⟩
  · simp only [siteCalls, Site.destory, hpool, hrun, Exec.ok_bind, Exec.pure_eq]
  · rw [live_free, hhistory, h.isLive, haddr]
    simp
  · rw [kept_free, hhistory]

/-- A constructor that gives up destroys its pool: what it leaves is the buffer of an error
text. -/
theorem unwind {α : Type} (h : Holding env site p s off) (hsize : sizeofPool ≤ s) :
    ∃ site', (∀ fuel, ((siteCalls env (fuel + 1)).destory site >>= fun site =>
      pure (none, site)) = (.ok (none, site') : Exec (Option α × Site))) ∧
      (site'.Empty ↔ kept site.history = []) := by
  rcases h.destory hsize with ⟨site', hcall, hlive, hkept⟩
  refine ⟨site', fun fuel => ?_, ?_⟩
  · rw [hcall, Exec.ok_bind, Exec.pure_eq]
  · rw [Site.Empty, hlive, hkept]
    simp

end Holding

section Creation

variable {α : Type} {s p off n : Nat} {rest : Nat → Bool × Site → Exec (Option α × Site)}

/-- The pool of a constructor is refused, and the buffer of the error text too, if the pool
is. -/
def CreateQuiet (env : Env) (s : Nat) : Prop :=
  env.place [] s = none → env.Quiet 1 [.alloc s none]

/-- A constructor starts with the creation of its pool. -/
theorem keepsNothing_create_iff :
    (KeepsNothing fun fuel => (siteCalls env fuel).create (newSite data big) s >>= fun r =>
      if ¬ r.1 = true then pure (none, r.2) else rest fuel r) ↔
      CreateQuiet env s ∧ ∀ p, env.place [] s = some p → sizeofPool ≤ s →
        KeepsNothing fun fuel => rest fuel (true, createdSite env data big s p) := by
  unfold CreateQuiet
  cases hp : env.place [] s with
  | none =>
      have hquiet := @Env.kept_setErrors env [.alloc s none] rfl 1
      rw [@keepsNothing_of_null _ _ ⟨data, big, none, env.setError [.alloc s none]⟩]
      · rw [Function.iterate_one] at hquiet
        simp [Site.Empty, hquiet]
      · intro fuel
        simp [siteCalls, Site.create, newSite, smpMpoolCreate, hp]
  | some p =>
      by_cases hsize : s < sizeofPool
      · -- the pool struct is stored outside the block
        have hless := Nat.not_le.mpr hsize
        refine iff_of_true (fun fuel site hrun => ?_) ⟨fun hnone => by simp at hnone,
          fun _ _ hheader => absurd hheader hless⟩
        simp [siteCalls, Site.create, newSite, smpMpoolCreate, hp, hsize] at hrun
      · have hheader := Nat.not_lt.mp hsize
        have hcreate : ∀ fuel, (siteCalls env fuel).create (newSite data big) s =
            .ok (true, createdSite env data big s p) := fun fuel => by
          simp [siteCalls, Site.create, newSite, smpMpoolCreate, hp, hsize, createdSite, newPool]
        simp [hcreate, hheader]

/-- A refused request is also refused the buffer of its error text. -/
def RefusalQuiet (env : Env) (h : History) (s off n : Nat) : Prop :=
  Refused env h (maxOf env s) s off n → RefusedQuiet env h (maxOf env s) s n

/-- A constructor returns null only where its last request is refused, and destroys its pool
there. -/
theorem Holding.keepsNothing_iff {site : Site} (h : Holding env site p s off)
    (hoff : poolAlignment ∣ off) (hsize : sizeofPool ≤ s) (hle : off ≤ s)
    (hnone : kept site.history = []) {run : Nat → Exec (Option α × Site)}
    (hnull : ∀ {fuel site₁}, (siteCalls env (fuel + 1)).mpalloc site n = .ok (NULL, site₁) →
      run (fuel + 1) = (siteCalls env (fuel + 1)).destory site₁ >>= fun site => pure (none, site))
    (honly : ∀ {fuel site'}, run fuel = .ok (none, site') →
      fuel ≠ 0 ∧ Refused env site.history (maxOf env s) s off n) :
    KeepsNothing run ↔ RefusalQuiet env site.history s off n := by
  have hrun : Refused env site.history (maxOf env s) s off n → ∃ site', (∀ fuel,
      run (fuel + 1) = .ok (none, site')) ∧
      (site'.Empty ↔ RefusedQuiet env site.history (maxOf env s) s n) := by
    intro hrefused
    rcases h.null_of_refused hoff hle hnone hrefused with ⟨site₁, hcall, h₁, hquiet⟩
    rcases @unwind _ _ _ _ _ α h₁ hsize with ⟨site₂, hdestory, hempty⟩
    exact ⟨site₂, fun fuel => (hnull (hcall fuel)).trans (hdestory fuel), hempty.trans hquiet⟩
  constructor
  · intro hkeeps hrefused
    rcases hrun hrefused with ⟨site', hsame, hempty⟩
    exact hempty.mp (hkeeps 1 site' (hsame 0))
  · intro hkept fuel site' hreturn
    rcases honly hreturn with ⟨hfuel, hrefused⟩
    obtain ⟨k, rfl⟩ := Nat.exists_eq_succ_of_ne_zero hfuel
    rcases hrun hrefused with ⟨site₁, hsame, hempty⟩
    rw [hsame, Except.ok.injEq, Prod.mk.injEq] at hreturn
    exact hreturn.2 ▸ hempty.mpr (hkept hrefused)

end Creation

/-! ## The containers -/

/-- What a constructor takes from its pool for itself are small requests. -/
theorem le_maxOf (hpage : 256 ≤ env.pageSize) {n s : Nat} (hn : n ≤ 256)
    (hsize : sizeofPool + n ≤ s) (hbound : s ≤ 4096) : n ≤ maxOf env s := by
  unfold maxOf sizeofPool at *
  omega

/-- The answers of the allocator for which an array that is not created keeps nothing: what is
refused to it, its size, its pool or the elements of its first unit, gets no buffer. -/
def ArrayKept (env : Env) (e u : Nat) : Prop :=
  if GrowArray.uint (e * u) = 0 then env.Quiet 1 []
  else CreateQuiet env GrowArray.arrayPoolSize ∧
    ∀ p, env.place [] GrowArray.arrayPoolSize = some p →
      RefusalQuiet env [.alloc GrowArray.arrayPoolSize (some p)] GrowArray.arrayPoolSize
        (sizeofPool + GrowArray.sizeofArray + GrowArray.sizeofPtr * GrowArray.arrayIndexAmt)
        (GrowArray.uint (e * u))

/-- An array that is not created keeps nothing but the buffer of an error text. -/
theorem smpArrayInit_keepsNothing_iff (hs : SoundEnv env) (hpage : 256 ≤ env.pageSize)
    (e u : Nat) :
    (KeepsNothing fun fuel =>
      GrowArray.smpArrayInit (siteCalls env fuel) (newSite data big) e u) ↔
      ArrayKept env e u := by
  have hmax : ∀ n ≤ 256, n ≤ maxOf env GrowArray.arrayPoolSize := fun n hn =>
    le_maxOf hpage hn (by unfold sizeofPool GrowArray.arrayPoolSize; omega) (by decide)
  simp only [GrowArray.smpArrayInit, ArrayKept]
  by_cases hsize : GrowArray.uint (e * u) = 0
  · have hquiet := @Env.kept_setErrors env [] rfl 1
    rw [Function.iterate_one] at hquiet
    simp only [if_pos hsize]
    refine (keepsNothing_of_null fun fuel => rfl).trans ?_
    simp [Site.Empty, newSite, hquiet]
  simp only [if_neg hsize]
  rw [keepsNothing_create_iff]
  have hheader : sizeofPool ≤ GrowArray.arrayPoolSize := by decide
  refine and_congr_right fun _ => forall₂_congr fun p hp => (imp_iff_right hheader).trans ?_
  have h₁ := @createdSite_holding _ data big hs p GrowArray.arrayPoolSize hheader hp
  rcases @Holding.carve _ _ _ _ _ GrowArray.sizeofArray h₁ (by decide)
    (hmax _ (by decide)) (by decide) with ⟨site₂, hcall₂, hne₂, h₂, hsame₂⟩
  rcases @Holding.carve _ _ _ _ _ (GrowArray.sizeofPtr * GrowArray.arrayIndexAmt) h₂
    (by decide) (hmax _ (by decide)) (by decide) with ⟨site₃, hcall₃, hne₃, h₃, hsame₃⟩
  have hhistory : site₃.history = [.alloc GrowArray.arrayPoolSize (some p)] :=
    hsame₃.trans hsame₂
  rw [← hhistory]
  apply h₃.keepsNothing_iff (by decide) hheader (by decide) (by rw [hhistory]; rfl)
  · intro fuel site₄ hcall₄
    simp only [hcall₂, if_neg hne₂, GrowArray.smpArrayIndexInit, hcall₃, if_neg hne₃, hcall₄,
      Exec.ok_bind, Exec.pure_eq, if_true]
  · intro fuel site' hrun
    cases fuel with
    | zero => simp [h₁.mpalloc_zero] at hrun
    | succ fuel =>
        simp only [hcall₂, if_neg hne₂, GrowArray.smpArrayIndexInit, hcall₃, if_neg hne₃,
          Exec.ok_bind, Exec.pure_eq] at hrun
        rw [Exec.bind_eq_ok] at hrun
        rcases hrun with ⟨⟨start, site₄⟩, hcall₄, hrun⟩
        by_cases hstart : start = NULL
        · subst hstart
          exact ⟨Nat.succ_ne_zero _, h₃.refused_of_null hs (by decide) (hmax _ (by decide))
            (by decide) hcall₄⟩
        · rw [if_neg hstart, Exec.bind_eq_ok] at hrun
          rcases hrun with ⟨index, -, hdone⟩
          simp at hdone

/-- A link that is not created keeps nothing but the buffer of an error text. -/
theorem smpLinkInit_keepsNothing_iff (hs : SoundEnv env) (hpage : 256 ≤ env.pageSize)
    (raw : Link.Contents) (freeFunc : VoidPtr) :
    (KeepsNothing fun fuel =>
      Link.smpLinkInit (siteCalls env fuel) (newSite data big) raw freeFunc) ↔
      CreateQuiet env Link.linkPoolSize := by
  have hmax : Link.sizeofLink ≤ maxOf env Link.linkPoolSize :=
    le_maxOf hpage (by decide) (by decide) (by decide)
  simp only [Link.smpLinkInit]
  rw [keepsNothing_create_iff]
  refine and_iff_left fun p hp hheader fuel site hrun => ?_
  have h₁ := @createdSite_holding _ data big hs p Link.linkPoolSize hheader hp
  cases fuel with
  | zero => simp [h₁.mpalloc_zero] at hrun
  | succ fuel =>
      rcases h₁.carve (by decide) hmax (by decide) with ⟨site₂, hcall₂, hne₂, -⟩
      simp [hcall₂, if_neg hne₂] at hrun

/-- The arguments and answers of the allocator for which a list that is not created keeps
nothing: the pool is refused, and the buffer too, or no argument is zero and the elements of
the first part get their memory. -/
def ListKept (env : Env) (e u : Nat) : Prop :=
  CreateQuiet env PartList.listPoolSize ∧
    ∀ p, env.place [] PartList.listPoolSize = some p → e ≠ 0 ∧ u ≠ 0 ∧
      ¬ Refused env [.alloc PartList.listPoolSize (some p)] (maxOf env PartList.listPoolSize)
        PartList.listPoolSize (sizeofPool + PartList.sizeofList) (e * u % 2 ^ 64)

/-- A list that is not created keeps its pool, unless that is refused. -/
theorem smpListCreate_keepsNothing_iff (hs : SoundEnv env) (hpage : 256 ≤ env.pageSize)
    (raw : Nat → PartList.Lpart) (e u : Nat) :
    (KeepsNothing fun fuel =>
      PartList.smpListCreate (siteCalls env fuel) (newSite data big) raw e u) ↔
      ListKept env e u := by
  have hmax : ∀ n ≤ 256, n ≤ maxOf env PartList.listPoolSize := fun n hn =>
    le_maxOf hpage hn (by unfold sizeofPool PartList.listPoolSize; omega) (by decide)
  simp only [PartList.smpListCreate, ListKept]
  rw [keepsNothing_create_iff]
  refine and_congr_right fun _ => forall₂_congr fun p hp => ?_
  rw [imp_iff_right (by decide)]
  have h₁ := @createdSite_holding _ data big hs p PartList.listPoolSize (by decide) hp
  rcases @Holding.carve _ _ _ _ _ PartList.sizeofList h₁ (by decide)
    (hmax _ (by decide)) (by decide) with ⟨site₂, hcall₂, hne₂, h₂, hsame⟩
  have hhistory : site₂.history = [.alloc PartList.listPoolSize (some p)] := hsame
  constructor
  · intro hkeeps
    by_cases hzero : e = 0 ∨ u = 0
    · -- the arguments are looked at when the pool exists
      refine absurd (hkeeps 0 _ ?_) h₁.setError.not_empty
      simp [PartList.smpListInit, hzero, siteCalls]
    · refine ⟨fun he => hzero (Or.inl he), fun hu => hzero (Or.inr hu), fun hrefused => ?_⟩
      rw [← hhistory] at hrefused
      rcases h₂.null_of_refused (by decide) (by decide) (by rw [hhistory]; rfl) hrefused with
        ⟨site₃, hcall₃, h₃, -⟩
      refine absurd (hkeeps 1 (Site.setError env site₃) ?_) h₃.setError.not_empty
      simp only [PartList.smpListInit, if_neg hzero, hcall₂, if_neg hne₂, hcall₃, if_true,
        Exec.ok_bind, Exec.pure_eq]
      rfl
  · rintro ⟨he, hu, hgranted⟩ fuel site hrun
    have hargs : ¬ (e = 0 ∨ u = 0) := not_or.mpr ⟨he, hu⟩
    simp only [PartList.smpListInit, if_neg hargs] at hrun
    cases fuel with
    | zero => simp [h₁.mpalloc_zero] at hrun
    | succ fuel =>
        simp only [hcall₂, Exec.ok_bind, if_neg hne₂] at hrun
        rw [Exec.bind_eq_ok] at hrun
        rcases hrun with ⟨⟨elems, site₃⟩, hcall₃, hrun⟩
        by_cases hnull : elems = NULL
        · subst hnull
          have hrefused := h₂.refused_of_null hs (by decide) (hmax _ (by decide)) (by decide)
            hcall₃
          rw [hhistory] at hrefused
          exact absurd hrefused hgranted
        · simp [hnull] at hrun

/-- The size of the pool of a stack. -/
def stackPoolSize (e stackSize : Nat) : Nat :=
  ((if stackSize = Stack.stackUnlimited then 2048 else e * stackSize % 2 ^ 64) + sizeofPool +
    sizeofBigPool) % 2 ^ 64

/-- The memory of the stack is granted, and a row of requests for records that it starts is
not: in a pool that has room for its header but not for a record the stack is a big request,
and its record one more, and so on. -/
def StackLost (env : Env) (h : History) (s : Nat) : Prop :=
  s < sizeofPool + sizeofBigPool ∧ ∃ q, env.place h Stack.sizeofStack = some q ∧
    Starves env.place (.alloc Stack.sizeofStack (some q) :: h)

/-- The pool sizes and answers of the allocator for which a stack that is not created keeps
nothing: what is refused gets no buffer, and the memory of the stack is not lost. -/
def StackKept (env : Env) (s : Nat) : Prop :=
  CreateQuiet env s ∧ ∀ p, env.place [] s = some p → sizeofPool ≤ s →
    RefusalQuiet env [.alloc s (some p)] s sizeofPool Stack.sizeofStack ∧
    ¬ StackLost env [.alloc s (some p)] s

/-- In a pool that has room for its header but not for a record, records are no small
requests. -/
theorem maxOf_gap {s : Nat} (hheader : sizeofPool ≤ s) (hless : s < sizeofPool + sizeofBigPool) :
    maxOf env s < sizeofBigPool := by
  unfold maxOf sizeofBigPool sizeofPool at *
  omega

section StackCreation

variable {site site' : Site} {p s fuel : Nat}

/-- The request for the structure of a stack returns null if it is refused or the structure is
lost. -/
theorem Holding.stack_null (hs : SoundEnv env) (hpage : 256 ≤ env.pageSize)
    (h : Holding env site p s sizeofPool) (hheader : sizeofPool ≤ s)
    (hrun : (siteCalls env fuel).mpalloc site Stack.sizeofStack = .ok (NULL, site')) :
    Refused env site.history (maxOf env s) s sizeofPool Stack.sizeofStack ∨
      StackLost env site.history s := by
  have hend : p + s ≤ 2 ^ 47 := h.addressed.2.2
  by_cases hrecord : sizeofPool + sizeofBigPool ≤ s
  · have hmax : sizeofBigPool ≤ maxOf env s := by
      unfold maxOf sizeofBigPool sizeofPool at *
      omega
    exact Or.inl (h.refused_of_null hs (by decide) hmax hrecord hrun)
  · have hless := Nat.not_le.mp hrecord
    have hgap := @maxOf_gap env _ hheader hless
    cases fuel with
    | zero => simp [h.mpalloc_zero] at hrun
    | succ fuel =>
        rcases h.block with ⟨pool, hpool, -, hpoolMax, hsame⟩
        have hbig : ¬ Stack.sizeofStack ≤ pool.max := by
          rw [hpoolMax]
          unfold Stack.sizeofStack sizeofBigPool at *
          omega
        simp only [siteCalls, Site.mpalloc, hpool, smpMpalloc, if_neg hbig,
          Exec.bind_eq_ok] at hrun
        rcases hrun with ⟨⟨m, pool'⟩, hcall, hdone⟩
        simp only [Exec.pure_eq, Except.ok.injEq, Prod.mk.injEq] at hdone
        rcases hdone with ⟨rfl, -⟩
        rw [hpoolMax] at hbig
        rcases Mpool.smpMpallocBigpool_null hs hcall with ⟨-, ⟨hq, -⟩ | ⟨-, q, hq, hnull⟩⟩
        · exact Or.inl (Or.inr ⟨Nat.not_le.mp hbig, hsame ▸ hq⟩)
        · rcases hnull with ⟨hroom, -⟩ | ⟨-, hstarves⟩
          · rw [Mpool.smpCalloc_max, hpoolMax] at hroom
            omega
          · rw [(Mpool.smpCalloc_granted hs hq).2.2, hsame] at hstarves
            rw [hsame] at hq
            exact Or.inr ⟨hless, q, hq, hstarves⟩

/-- The memory of the stack outlasts the pool when it is lost. -/
theorem Holding.stack_lost (hs : SoundEnv env) (h : Holding env site p s sizeofPool)
    (hheader : sizeofPool ≤ s) (hlost : StackLost env site.history s) :
    ∃ fuel site₁ site₂,
      (siteCalls env fuel).mpalloc site Stack.sizeofStack = .ok (NULL, site₁) ∧
      (siteCalls env fuel).destory site₁ = .ok site₂ ∧ live site₂.history ≠ [] := by
  rcases hlost with ⟨hless, q, hq, hstarves⟩
  rcases h.block with ⟨pool, hpool, hblock, hmax, hsame⟩
  rw [← hsame] at hq hstarves
  have hsmall : pool.max < sizeofBigPool := hmax ▸ maxOf_gap hheader hless
  have hbig : ¬ Stack.sizeofStack ≤ pool.max := by
    unfold Stack.sizeofStack sizeofBigPool at *
    omega
  have hunrecorded : Mpool.Unrecorded env pool Stack.sizeofStack := by
    refine ⟨Or.inl hblock.bigPool, q, hq, Or.inr ⟨?_, ?_⟩⟩
    · rw [Mpool.smpCalloc_max]
      exact hsmall
    · rw [(Mpool.smpCalloc_granted hs hq).2.2]
      exact hstarves
  rcases hunrecorded.run hs with ⟨k, pool', hrun⟩
  have hnull := hrun k (Nat.le_refl k)
  have honly := (Mpool.smpMpallocBigpool_null hs hnull).1
  have hall := (Mpool.smpCalloc_onlyAllocs env pool Stack.sizeofStack).trans honly
  have hpos : 0 < p := h.addressed.1
  have haddr : pool'.addr = p := hall.addr.trans hblock.addr
  have hlive : ⟨p, s⟩ ∈ live pool.history := by
    rw [hsame, h.isLive]
    exact List.mem_singleton.mpr rfl
  have hdestory : smpMpdestory (k + 1) pool' =
      .ok (.ok, { pool' with history := .free pool'.addr :: pool'.history }) := by
    apply Mpool.smpMpdestory_single (haddr ▸ hall.kept _ hlive) hheader
    · rw [haddr]
      exact Nat.ne_of_gt hpos
    · rw [haddr, hall.next]
      exact hblock.next
    · exact hall.bigPool.trans hblock.bigPool
  refine ⟨k + 1, ⟨site.data, site.big, some pool', pool'.history⟩,
    ⟨site.data, site.big, none, .free pool'.addr :: pool'.history⟩, ?_, ?_, ?_⟩
  · simp only [siteCalls, Site.mpalloc, hpool, smpMpalloc, if_neg hbig, hnull, Exec.ok_bind,
      Exec.pure_eq, NULL]
  · simp only [siteCalls, Site.destory, hdestory, Exec.ok_bind, Exec.pure_eq]
  · have happ := hs.fresh hq _ hlive
    have hne : q ≠ p := by
      unfold Apart Stack.sizeofStack sizeofPool at *
      simp only at happ
      omega
    have hleft : ⟨q, Stack.sizeofStack⟩ ∈ live (.free pool'.addr :: pool'.history) := by
      rw [live_free, List.mem_filter, haddr]
      exact ⟨honly.calloc_live hs hq, by simpa using hne⟩
    exact List.ne_nil_of_mem hleft

end StackCreation

/-- A stack that is not created keeps nothing but the buffer of an error text, unless its
memory is lost. -/
theorem smpStackInit_keepsNothing_iff (hs : SoundEnv env) (hpage : 256 ≤ env.pageSize) {ε : Type}
    (raw : Nat → Stack.StackNode) (e stackSize : Nat) (appoint : Option (Stack.Appoint ε)) :
    (KeepsNothing fun fuel =>
      Stack.smpStackInit (siteCalls env fuel) (newSite data big) raw e stackSize appoint) ↔
      StackKept env (stackPoolSize e stackSize) := by
  simp only [Stack.smpStackInit, StackKept]
  rw [keepsNothing_create_iff]
  refine and_congr_right fun _ => forall₃_congr fun p hp hheader => ?_
  have h₁ := @createdSite_holding _ data big hs p _ hheader hp
  by_cases hlost : StackLost env [.alloc (stackPoolSize e stackSize) (some p)]
      (stackPoolSize e stackSize)
  · refine iff_of_false (fun hkeeps => ?_) fun hkept => hkept.2 hlost
    rcases h₁.stack_lost hs hheader hlost with ⟨fuel, site₂, site₃, hcall, hdestory, hleft⟩
    refine hleft (hkeeps fuel site₃ ?_).1
    simp only [hcall, Exec.ok_bind, if_true, hdestory, Exec.pure_eq]
  · rw [and_iff_left hlost]
    apply h₁.keepsNothing_iff (by decide) hheader hheader rfl
    · intro fuel site₂ hcall
      simp only [hcall, Exec.ok_bind, if_true]
    · intro fuel site' hrun
      simp only at hrun
      rw [Exec.bind_eq_ok] at hrun
      rcases hrun with ⟨⟨m, site₂⟩, hcall, hrun⟩
      by_cases hnull : m = NULL
      · subst hnull
        refine ⟨?_, (h₁.stack_null hs hpage hheader hcall).resolve_right hlost⟩
        rintro rfl
        rw [h₁.mpalloc_zero] at hcall
        cases hcall
      · simp [hnull] at hrun

/-! ## Strings -/

section Strings

variable {h h' : History} {text delim : Text.CString} {limit : Nat}

@[simp]
theorem live_setErrors {place : Strategy} (k : Nat) :
    live ((smpSetError place)^[k] h) = live h := by
  induction k generalizing h with
  | zero => rfl
  | succ k ih => rw [Function.iterate_succ_apply, ih, live_smpSetError]

/-- A request of the splitting of a string is refused, with the history behind the refusal and
how often the error is set then. -/
inductive SplitRefused (place : Strategy) (h : History) (limit : Nat) : Nat → History → Prop where
  | split : 1 ≤ limit → place h Text.sizeofSplit = none →
      SplitRefused place h limit 3 (.alloc Text.sizeofSplit none :: h)
  | strs {a : Nat} : 1 ≤ limit → place h Text.sizeofSplit = some a →
      place (.alloc Text.sizeofSplit (some a) :: h) (Text.sizeofStr * limit) = none →
      SplitRefused place h limit 3
        (.alloc (Text.sizeofStr * limit) none :: .alloc Text.sizeofSplit (some a) :: h)
  | points {a q : Nat} : 1 < limit → place h Text.sizeofSplit = some a →
      place (.alloc Text.sizeofSplit (some a) :: h) (Text.sizeofStr * limit) = some q →
      place (.alloc (Text.sizeofStr * limit) (some q) :: .alloc Text.sizeofSplit (some a) :: h)
        (4 * (limit % 2 ^ 32)) = none →
      SplitRefused place h limit 2
        (.alloc (4 * (limit % 2 ^ 32)) none :: .alloc (Text.sizeofStr * limit) (some q) ::
          .alloc Text.sizeofSplit (some a) :: h)

/-- The answers of the allocator for which a string that is not split keeps nothing: what is
refused gets no buffer. -/
def SplitKept (place : Strategy) (h : History) (limit : Nat) : Prop :=
  ∀ k h₀, SplitRefused place h limit k h₀ → Hushed place k h₀

/-- A refusal leaves what was live and what is kept. -/
theorem SplitRefused.kept_eq {place : Strategy} {k : Nat} {h₀ : History}
    (hrefused : SplitRefused place h limit k h₀) : kept h₀ = kept h := by
  cases hrefused with
  | split _ _ => simp
  | strs _ _ _ => simp
  | points _ _ _ _ => simp

/-- A string that is refused a request is not split. -/
theorem SplitRefused.run (hs : SoundEnv env) {k : Nat} {h₀ : History}
    (hrefused : SplitRefused env.place h limit k h₀) :
    ∃ h', Text.smpStrSplit env.place h text delim limit = .ok (none, h') ∧
      kept h' = kept ((smpSetError env.place)^[k] h₀) := by
  cases hrefused with
  | split hlimit hp =>
      refine ⟨_, ?_, rfl⟩
      simp only [Text.smpStrSplit, if_neg (Nat.not_lt.mpr hlimit),
        Text.smpSplitCreate_of_none hp, if_true, Exec.pure_eq]
  | @strs a hlimit hp hq =>
      have hne : a ≠ NULL := Nat.ne_of_gt (hs.nonzero hp)
      refine ⟨.free a :: _, ?_, kept_free _ _⟩
      simp only [Text.smpStrSplit, if_neg (Nat.not_lt.mpr hlimit),
        Text.smpSplitCreate_of_some hp hne, if_neg hne,
        Text.smpStrBatchCreate_of_none (Nat.ne_of_gt hlimit) hq, Text.smpSplitDestory, if_true,
        Exec.pure_eq]
  | @points a q hlimit hp hq hpoints =>
      have hne : a ≠ NULL := Nat.ne_of_gt (hs.nonzero hp)
      have hqne : q ≠ NULL := Nat.ne_of_gt (hs.nonzero hq)
      have hone : 1 ≤ limit := Nat.le_of_lt hlimit
      have hsearch : limit - 1 ≠ 0 := Nat.sub_ne_zero_of_lt hlimit
      refine ⟨.free a :: .free q :: _, ?_, (kept_free _ _).trans (kept_free _ _)⟩
      simp only [Text.smpStrSplit, if_neg (Nat.not_lt.mpr hone),
        Text.smpSplitCreate_of_some hp hne, if_neg hne,
        Text.smpStrBatchCreate_of_some (Nat.ne_of_gt hone) hq hqne, Text.smpBoyerMoore,
        if_neg hsearch, Nat.sub_add_cancel hone, Text.smpCalloc_of_none hpoints, if_true,
        Exec.ok_bind, Text.smpSplitDestory, if_neg hqne, Exec.pure_eq]

/-- A search without a result has got nothing; only a search for no places is not refused. -/
theorem smpBoyerMoore_null (hs : SoundEnv env) {substr : Text.CString}
    (hrun : Text.smpBoyerMoore env.place h substr text limit = .ok (none, h')) :
    (limit = 0 ∧ h' = h) ∨
      (limit ≠ 0 ∧ env.place h (4 * ((limit + 1) % 2 ^ 32)) = none ∧
        h' = (smpSetError env.place)^[2] (.alloc (4 * ((limit + 1) % 2 ^ 32)) none :: h)) := by
  unfold Text.smpBoyerMoore at hrun
  by_cases hlimit : limit = 0
  · simp only [if_pos hlimit, Exec.pure_eq, Except.ok.injEq, Prod.mk.injEq, true_and] at hrun
    exact Or.inl ⟨hlimit, hrun.symm⟩
  simp only [if_neg hlimit] at hrun
  cases hp : env.place h (4 * ((limit + 1) % 2 ^ 32)) with
  | none =>
      simp only [Text.smpCalloc_of_none hp, if_true, Exec.pure_eq, Except.ok.injEq,
        Prod.mk.injEq, true_and] at hrun
      exact Or.inr ⟨hlimit, rfl, hrun.symm⟩
  | some a =>
      have hne : a ≠ NULL := Nat.ne_of_gt (hs.nonzero hp)
      simp only [Text.smpCalloc_of_some hp hne, if_neg hne, Exec.bind_eq_ok] at hrun
      rcases hrun with ⟨first, -, points, -, hdone⟩
      simp at hdone

/-- A string that is not split leaves nothing live; what it keeps is a buffer of the errors that
a refusal sets. -/
theorem smpStrSplit_null (hs : SoundEnv env)
    (hrun : Text.smpStrSplit env.place h text delim limit = .ok (none, h')) :
    (∀ b ∈ live h', b ∈ live h) ∧ (kept h' = kept h ∨
      ∃ k h₀, SplitRefused env.place h limit k h₀ ∧
        kept h' = kept ((smpSetError env.place)^[k] h₀)) := by
  unfold Text.smpStrSplit at hrun
  by_cases hlimit : limit < 1
  · simp only [if_pos hlimit, Exec.pure_eq, Except.ok.injEq, Prod.mk.injEq, true_and] at hrun
    subst hrun
    exact ⟨fun b hb => hb, Or.inl rfl⟩
  simp only [if_neg hlimit] at hrun
  have hone : 1 ≤ limit := Nat.not_lt.mp hlimit
  cases hp : env.place h Text.sizeofSplit with
  | none =>
      simp only [Text.smpSplitCreate_of_none hp, if_true, Exec.pure_eq, Except.ok.injEq,
        Prod.mk.injEq, true_and] at hrun
      subst hrun
      rw [live_setErrors, live_alloc_none]
      exact ⟨fun b hb => hb, Or.inr ⟨3, _, .split hone hp, rfl⟩⟩
  | some a =>
      have hne : a ≠ NULL := Nat.ne_of_gt (hs.nonzero hp)
      simp only [Text.smpSplitCreate_of_some hp hne, if_neg hne] at hrun
      cases hq : env.place (.alloc Text.sizeofSplit (some a) :: h) (Text.sizeofStr * limit) with
      | none =>
          simp only [Text.smpStrBatchCreate_of_none (Nat.ne_of_gt hone) hq,
            Text.smpSplitDestory, if_true, Exec.pure_eq, Except.ok.injEq, Prod.mk.injEq,
            true_and] at hrun
          subst hrun
          refine ⟨?_, Or.inr ⟨3, _, .strs hone hp hq, kept_free _ _⟩⟩
          rw [live_free, live_setErrors, live_alloc_none, live_alloc_some]
          intro b hb
          simp only [List.mem_filter, List.mem_cons] at hb
          rcases hb with ⟨rfl | hb, hkeep⟩
          · simp at hkeep
          · exact hb
      | some q =>
          have hqne : q ≠ NULL := Nat.ne_of_gt (hs.nonzero hq)
          simp only [Text.smpStrBatchCreate_of_some (Nat.ne_of_gt hone) hq hqne,
            Exec.bind_eq_ok] at hrun
          rcases hrun with ⟨⟨points, h₃⟩, hsearch, hrun⟩
          cases points with
          | some found =>
              simp only [Exec.bind_eq_ok] at hrun
              rcases hrun with ⟨result, -, hdone⟩
              simp at hdone
          | none =>
              simp only [Text.smpSplitDestory, if_neg hqne, Exec.pure_eq, Except.ok.injEq,
                Prod.mk.injEq, true_and] at hrun
              subst hrun
              have hlive : live h₃ = ⟨q, Text.sizeofStr * limit⟩ ::
                  ⟨a, Text.sizeofSplit⟩ :: live h := by
                rcases smpBoyerMoore_null hs hsearch with ⟨-, rfl⟩ | ⟨-, -, rfl⟩
                · rfl
                · rw [live_setErrors]
                  rfl
              constructor
              · rw [live_free, live_free, hlive]
                intro b hb
                simp only [List.mem_filter, List.mem_cons] at hb
                rcases hb with ⟨⟨rfl | rfl | hb, hkeep⟩, hkeep'⟩
                · simp at hkeep
                · simp at hkeep'
                · exact hb
              · rw [kept_free, kept_free]
                rcases smpBoyerMoore_null hs hsearch with ⟨-, rfl⟩ | ⟨hne₁, hpoints, rfl⟩
                · exact Or.inl rfl
                · have hmore : 1 < limit := by omega
                  rw [Nat.sub_add_cancel hone] at hpoints ⊢
                  exact Or.inr ⟨2, _, .points hmore hp hq hpoints, rfl⟩

/-- When a string that is not split keeps nothing. -/
theorem smpStrSplit_keepsNothing_iff (hs : SoundEnv env) :
    (∀ h', Text.smpStrSplit env.place h text delim limit = .ok (none, h') →
      (∀ b ∈ live h', b ∈ live h) ∧ kept h' = kept h) ↔ SplitKept env.place h limit := by
  constructor
  · intro hkeeps k h₀ hrefused
    rcases @SplitRefused.run _ _ text delim _ hs _ _ hrefused with ⟨h', hrun, hkept⟩
    apply (kept_setErrors_eq k).mp
    rw [← hkept, (hkeeps h' hrun).2, hrefused.kept_eq]
  · intro hquiet h' hrun
    rcases smpStrSplit_null hs hrun with ⟨hlive, hkept | ⟨k, h₀, hrefused, hkept⟩⟩
    · exact ⟨hlive, hkept⟩
    · refine ⟨hlive, ?_⟩
      rw [hkept, (kept_setErrors_eq k).mpr (hquiet k h₀ hrefused), hrefused.kept_eq]

end Strings

/-! ## All failures -/

/-- When a failure keeps nothing, for every argument and all answers of the allocator.  The
containers and the splitting of strings may get a buffer for an error text, which is kept; a
list, a stack and a big request may also lose what they got themselves. -/
theorem failures_keepNothing_iff (hs : SoundEnv env) (hpage : 256 ≤ env.pageSize)
    (data : Nat → PoolData) (big : Nat → BigPool) :
    (∀ raw e u, (KeepsNothing fun fuel =>
      PartList.smpListCreate (siteCalls env fuel) (newSite data big) raw e u) ↔
        ListKept env e u) ∧
    (∀ e u, (KeepsNothing fun fuel =>
      GrowArray.smpArrayInit (siteCalls env fuel) (newSite data big) e u) ↔ ArrayKept env e u) ∧
    (∀ {ε : Type} raw e stackSize (appoint : Option (Stack.Appoint ε)), (KeepsNothing fun fuel =>
      Stack.smpStackInit (siteCalls env fuel) (newSite data big) raw e stackSize appoint) ↔
        StackKept env (stackPoolSize e stackSize)) ∧
    (∀ raw freeFunc, (KeepsNothing fun fuel =>
      Link.smpLinkInit (siteCalls env fuel) (newSite data big) raw freeFunc) ↔
        CreateQuiet env Link.linkPoolSize) ∧
    (∀ {h : History} {text delim : Text.CString} {limit : Nat},
      (∀ h', Text.smpStrSplit env.place h text delim limit = .ok (none, h') →
        (∀ b ∈ live h', b ∈ live h) ∧ kept h' = kept h) ↔ SplitKept env.place h limit) ∧
    ∀ pool n, Mpool.BigKeepsNothing env pool n ↔ ¬ Mpool.Unrecorded env pool n :=
  ⟨smpListCreate_keepsNothing_iff hs hpage, smpArrayInit_keepsNothing_iff hs hpage,
    smpStackInit_keepsNothing_iff hs hpage, smpLinkInit_keepsNothing_iff hs hpage,
    smpStrSplit_keepsNothing_iff hs, Mpool.bigKeepsNothing_iff hs⟩

/-- The surroundings of a first constructor, over zeros. -/
def zeroSite : Site := newSite (fun _ => ⟨0, 0, 0, 0⟩) (fun _ => ⟨0, 0⟩)

/-- An array with units of 2400 bytes for which the pool alone is granted: the constructor asks
for the first unit and twice for a buffer, frees the pool and returns null. -/
theorem failures_keepNothing_sample :
    (KeepsNothing fun fuel =>
      GrowArray.smpArrayInit (siteCalls (firstAnswers 1) fuel) zeroSite 8 300) ∧
    ∃ site, GrowArray.smpArrayInit (siteCalls (firstAnswers 1) 1) zeroSite 8 300 =
        .ok (none, site) ∧
      site.history = [.free 8, .keep 2048 none, .keep 2048 none, .alloc 2400 none,
        .alloc 2048 (some 8)] := by
  have hiff := (failures_keepNothing_iff (sound_firstAnswers 1) (by decide)
    (fun _ => ⟨0, 0, 0, 0⟩) (fun _ => ⟨0, 0⟩)).2.1 8 300
  refine ⟨hiff.mpr ?_, _, rfl, rfl⟩
  have hsize : GrowArray.uint (8 * 300) ≠ 0 := by decide
  have hplace : (firstAnswers 1).place [] GrowArray.arrayPoolSize = some 8 := by decide
  rw [ArrayKept, if_neg hsize]
  refine ⟨fun hnone => absurd (hplace.symm.trans hnone) (Option.some_ne_none _), ?_⟩
  intro p hp _
  rw [hplace, Option.some.injEq] at hp
  subst hp
  exact ⟨fun hless => absurd hless (by decide), fun _ => Or.inr ⟨by decide, by decide, trivial⟩⟩

/-- An array of no elements may keep a buffer; a list with elements of no bytes keeps its pool;
and a big request on a full pool keeps its block when the block of its record is refused. -/
theorem not_failures_keepNothing :
    (¬ KeepsNothing fun fuel =>
      GrowArray.smpArrayInit (siteCalls (Mpool.bumpEnv 4096) fuel) zeroSite 0 1) ∧
    (¬ KeepsNothing fun fuel =>
      PartList.smpListCreate (siteCalls (Mpool.bumpEnv 4096) fuel) zeroSite
        (fun _ => ⟨NULL, 0, 0⟩) 0 5) ∧
    ∃ c, Mpool.Reachable (firstAnswers 2) 128 c ∧ c.small = [⟨64, 72⟩] ∧
      ¬ Mpool.BigKeepsNothing (firstAnswers 2) c.pool 80 := by
  refine ⟨fun hkeeps => ?_, fun hkeeps => ?_, ?_⟩
  · have hempty : [(⟨8, 2048⟩ : Block)] = [] := (hkeeps 0 _ rfl).2
    exact List.cons_ne_nil _ _ hempty
  · have hempty : [(⟨8, 4096⟩ : Block)] = [] := (hkeeps 1 _ rfl).1
    exact List.cons_ne_nil _ _ hempty
  · have hcreate : Mpool.Reachable (firstAnswers 2) 128 _ :=
      @Mpool.Reachable.create _ _ (fun _ => ⟨0, 0, 0, 0⟩) (fun _ => ⟨0, 0⟩) _ rfl
    have hsmall := @Mpool.Reachable.request _ _ _ _ 72 64 _ hcreate
      (Mpool.smpMpalloc_fits _ 0 (by decide) (by decide))
    refine ⟨_, hsmall, rfl, fun hkeeps => ?_⟩
    apply (hkeeps 1 _ rfl).1 144 rfl
    exact ⟨⟨144, 80⟩, List.mem_cons_self, rfl⟩

end Smpcil
