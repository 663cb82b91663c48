import Smpcil.Constructors
import Smpcil.Pool.Lifetime
import Smpcil.References

/-!
# The life of a link

A link over the pool of `smp_mpool.c`, from its creation to its end.  The elements inserted
and the elements removed are kept beside the link.

Main results:

- Definition {lit}`Kept`: the runs, with these two lists.
- Theorem {lit}`Kept.elements`: every element inserted is in the link or was removed, once.
- Theorem {lit}`link_whole_life`: what a link leaves behind.
-/

namespace Smpcil
namespace Link

open Allocator Chains PoolCalls
open Mpool (Env SoundEnv PoolData BigPool Life lifeCalls lifeCalls_serves maxOf
  firstAnswers sound_firstAnswers)

variable {π : Type} {calls : PoolCalls π} {Good : π → Prop} {blocks : π → List Block}
variable {env : Env} {link link' : SmpLink Life} {ins outs : List VoidPtr}

/-! ## Elements -/

namespace Op

/-- What an operation that returns {lit}`r` inserts. -/
def inserted : Op → VoidPtr → List VoidPtr
  | insert data, r => if r = NULL then [] else [data]
  | _, _ => []

/-- What an operation that returns {lit}`r` removes. -/
def removed : Op → VoidPtr → List VoidPtr
  | insert _, _ => []
  | _, r => if r = NULL then [] else [r]

/-- An operation moves elements: none appears and none disappears. -/
theorem Effect.perm {op : Op} {xs xs' : List VoidPtr} {r : VoidPtr} (h : op.Effect xs r xs')
    (hne : NULL ∉ xs) : (xs' ++ op.removed r).Perm (op.inserted r ++ xs) := by
  cases op with
  | insert data =>
      rcases h with ⟨rfl, rfl⟩ | ⟨hr, -, rfl⟩
      · simp [inserted, removed]
      · simp only [inserted, removed, if_neg hr, List.append_nil]
        exact List.perm_append_comm
  | rmAthead =>
      rcases h with ⟨rfl, rfl⟩
      cases xs with
      | nil => simp [inserted, removed]
      | cons x xs =>
          have hx : x ≠ NULL := fun heq => hne (by simp [heq])
          rw [List.headD_cons, List.tail_cons]
          simp only [inserted, removed, if_neg hx, List.nil_append]
          exact List.perm_append_singleton x xs
  | rmAttail =>
      rcases h with ⟨rfl, rfl⟩
      rcases List.eq_nil_or_concat xs with rfl | ⟨s, x, hs⟩
      · simp [inserted, removed]
      · rw [List.concat_eq_append] at hs
        subst hs
        have hx : x ≠ NULL := fun heq => hne (by simp [heq])
        simp [inserted, removed, hx]
  | rm data cmpFunc =>
      simp only [Effect] at h
      split_ifs at h with hdata
      · rcases h with ⟨rfl, rfl⟩
        simp [inserted, removed]
      · rcases h with ⟨rfl, rfl⟩
        cases hfind : xs.find? fun x => decide (cmpFunc x data = 0) with
        | none =>
            have hnone := List.find?_eq_none.mp hfind
            rw [List.eraseP_of_forall_not hnone]
            simp [inserted, removed]
        | some x =>
            rcases List.find?_eq_some_iff_append.mp hfind with ⟨hx, s, t, rfl, hs⟩
            have hne' : x ≠ NULL := fun heq => hne (by simp [heq])
            have herase : (x :: t).eraseP (fun x => decide (cmpFunc x data = 0)) = t := by simp [hx]
            rw [List.eraseP_append_right _ (by simpa using hs), herase]
            simp only [inserted, removed, Option.getD_some, if_neg hne', List.nil_append]
            exact (List.perm_append_singleton x (s ++ t)).trans List.perm_middle.symm

end Op

/-- The links of all runs over a pool, on memory whose field {lit}`recover` reads as null, with
the elements inserted and the elements removed. -/
inductive Kept (env : Env) : SmpLink Life → List VoidPtr → List VoidPtr → Prop where
  | init {data : Nat → PoolData} {big : Nat → BigPool} {life : Life} {raw : Contents}
      {freeFunc : VoidPtr} {link : SmpLink Life} : raw.recover = 0 →
      smpLinkInit (lifeCalls env) (Life.start data big) raw freeFunc = .ok (some link, life) →
      Kept env link [] []
  | step {link link' : SmpLink Life} {ins outs : List VoidPtr} {fuel : Nat} {op : Op}
      {r : VoidPtr} : Kept env link ins outs →
      op.run (lifeCalls env) fuel link = .ok (r, link') →
      Kept env link' (op.inserted r ++ ins) (op.removed r ++ outs)

/-- An operation that returned on a reachable link had its outcome. -/
theorem Linked.outcome (hserves : calls.Serves Good blocks) {link link' : SmpLink π}
    {ns fs : List Nat} (h : Linked Good blocks link ns fs []) (hne : NULL ∉ elements link ns)
    {op : Op} {fuel : Nat} {r : VoidPtr} (hrun : op.run calls fuel link = .ok (r, link')) :
    Outcome Good blocks link (elements link ns) op r link' := by
  rcases op.run_spec hserves h hne
    (show ns.length < max fuel (ns.length + 1) from Nat.le_max_right _ _) with
    ⟨r', link₂, hrun', hout⟩
  rw [Op.run_mono (Nat.le_max_left _ _) hrun, Except.ok.injEq, Prod.mk.injEq] at hrun'
  rcases hrun' with ⟨rfl, rfl⟩
  exact hout

/-! ## The pool of a link -/

/-- Storing into a link asks nothing of its pool. -/
theorem smpLinkRmNode_pool (link : SmpLink π) (node : Nat) :
    (smpLinkRmNode link node).pool = link.pool := by
  unfold smpLinkRmNode
  split_ifs <;> simp

theorem removeNode_pool (link : SmpLink π) (node : Nat) :
    (removeNode link node).2.pool = link.pool := by
  rw [← smpLinkRmNode_pool link node]
  unfold removeNode smpLinkNodeRecover
  simp only
  split_ifs <;> simp

theorem removeNode_asked {P : Nat → Prop} (link : SmpLink π) (node : Nat) :
    calls.Asked P link.pool (removeNode link node).2.pool := by
  rw [removeNode_pool]
  exact .none

/-- An operation asks its pool for nodes. -/
theorem Op.run_asked {op : Op} {fuel : Nat} {r : VoidPtr} {link link' : SmpLink π}
    (hrun : op.run calls fuel link = .ok (r, link')) :
    calls.Asked (· ≤ sizeofLink) link.pool link'.pool := by
  cases op with
  | insert data =>
      simp only [Op.run, smpLinkInsert] at hrun
      split_ifs at hrun with hdata
      · cases hrun
        exact .none
      rcases Exec.bind_eq_ok.mp hrun with ⟨⟨node, link₁⟩, hcreate, hrest⟩
      have hpool : link'.pool = link₁.pool := by
        simp only at hrest
        split_ifs at hrest
        · cases hrest
          rfl
        · cases hrest
          simp only [linkInsert, SmpLink.setData_pool]
          split_ifs <;> simp
      rw [hpool]
      unfold smpLnodeCreate at hcreate
      split_ifs at hcreate
      · cases hcreate
        exact .none
      · rcases Exec.bind_eq_ok.mp hcreate with ⟨⟨m, pool⟩, hcall, hrest⟩
        have hasked : calls.Asked (· ≤ sizeofLink) link.pool pool := .one (by decide) hcall
        simp only at hrest
        split_ifs at hrest
        · cases hrest
          exact hasked
        · cases hrest
          exact hasked
  | rmAthead =>
      simp only [Op.run, smpLinkNodeRmAthead] at hrun
      split_ifs at hrun
      · cases hrun
        exact .none
      · cases hrun
        exact removeNode_asked link _
  | rmAttail =>
      simp only [Op.run, smpLinkNodeRmAttail] at hrun
      split_ifs at hrun
      · cases hrun
        exact .none
      · cases hrun
        exact removeNode_asked link _
  | rm data cmpFunc =>
      simp only [Op.run, smpLinkNodeRm] at hrun
      split_ifs at hrun
      · cases hrun
        exact .none
      rcases Exec.bind_eq_ok.mp hrun with ⟨node, -, hrest⟩
      split_ifs at hrest
      · cases hrest
        exact .none
      · cases hrest
        exact removeNode_asked link _

/-- The requests of a link are small. -/
theorem small_requests (hpage : 256 ≤ env.pageSize) : sizeofLink ≤ maxOf env linkPoolSize :=
  le_maxOf hpage (by decide) (by decide) (by decide)

/-- What a link keeps of its pool and of its elements. -/
structure Lasting (env : Env) (link : SmpLink Life) (ns fs : List Nat)
    (ins outs : List VoidPtr) : Prop where
  linked : Linked (Life.Good env) (fun life => life.world.issued) link ns fs []
  nonnull : NULL ∉ elements link ns
  begun : (lifeCalls env).Begun (Life.Good env) (· ≤ sizeofLink) linkPoolSize link.pool
  elements : (elements link ns ++ outs).Perm ins

/-- A new link over a new pool. -/
theorem smpLinkInit_lasting (hs : SoundEnv env) (hpage : 256 ≤ env.pageSize)
    {data : Nat → PoolData} {big : Nat → BigPool} {life : Life} {raw : Contents}
    {freeFunc : VoidPtr} (hraw : raw.recover = 0)
    (hinit : smpLinkInit (lifeCalls env) (Life.start data big) raw freeFunc =
      .ok (some link, life)) : Lasting env link [] [] [] [] := by
  have hserves := lifeCalls_serves hs (Nat.le_trans (by decide) hpage)
  have hstart : (Life.start data big).Good env := Life.good_start data big
  constructor
  case linked => exact smpLinkInit_linked hserves hstart hraw hinit
  case nonnull => simp [elements]
  case begun =>
    rcases Exec.bind_eq_ok.mp hinit with ⟨⟨created, life₁⟩, hcreate, hinit⟩
    cases created with
    | false => simp at hinit
    | true =>
        simp only [not_true_eq_false, if_false] at hinit
        rcases Exec.bind_eq_ok.mp hinit with ⟨⟨m, life₂⟩, hcall, hinit⟩
        by_cases hm : m = NULL
        · simp only [if_pos hm] at hinit
          rcases Exec.bind_eq_ok.mp hinit with ⟨life₃, -, hnone⟩
          simp at hnone
        · simp only [if_neg hm, Exec.pure_eq, Except.ok.injEq, Prod.mk.injEq,
            Option.some.injEq] at hinit
          rcases hinit with ⟨rfl, rfl⟩
          exact ⟨_, life₁, hstart, hcreate, .one (Nat.le_refl _) hcall⟩
  case elements => simp [elements]

/-- An operation keeps what lasts. -/
theorem Lasting.step (hs : SoundEnv env) (hpage : 256 ≤ env.pageSize) {ns fs : List Nat}
    (h : Lasting env link ns fs ins outs) {op : Op} {fuel : Nat} {r : VoidPtr}
    (hrun : op.run (lifeCalls env) fuel link = .ok (r, link')) :
    ∃ ns' fs', Lasting env link' ns' fs' (op.inserted r ++ ins) (op.removed r ++ outs) := by
  have hserves := lifeCalls_serves hs (Nat.le_trans (by decide) hpage)
  rcases (h.linked.outcome hserves h.nonnull hrun).effect with
    ⟨ns', fs', hlinked', hne', heffect⟩
  refine ⟨ns', fs', hlinked', hne', h.begun.ask (Op.run_asked hrun), ?_⟩
  have hmoved := heffect.perm h.nonnull
  calc List.Perm (Link.elements link' ns' ++ (op.removed r ++ outs))
          ((Link.elements link' ns' ++ op.removed r) ++ outs) := by rw [List.append_assoc]
    List.Perm _ ((op.inserted r ++ Link.elements link ns) ++ outs) := hmoved.append_right outs
    List.Perm _ (op.inserted r ++ (Link.elements link ns ++ outs)) := by rw [List.append_assoc]
    List.Perm _ (op.inserted r ++ ins) := h.elements.append_left _

theorem Kept.lasting (hs : SoundEnv env) (hpage : 256 ≤ env.pageSize)
    (h : Kept env link ins outs) : ∃ ns fs, Lasting env link ns fs ins outs := by
  induction h with
  | init hraw hinit => exact ⟨[], [], smpLinkInit_lasting hs hpage hraw hinit⟩
  | step _ hrun ih =>
      rcases ih with ⟨ns, fs, hlasting⟩
      exact hlasting.step hs hpage hrun

/-! ## The end of a link -/

/-- In every run the live nodes of a link lie in live memory of the underlying allocator, and
destroying it hands every element that was inserted and not removed to `data_free`, once and in
order, and leaves nothing live. -/
theorem link_whole_life (hs : SoundEnv env) (hpage : 256 ≤ env.pageSize)
    (h : Kept env link ins outs) :
    ∃ ns, LiveChain link ns ∧ (elements link ns ++ outs).Perm ins ∧
      (∀ n ∈ ns, ∃ b ∈ live link.pool.history, Within ⟨n, sizeofLinkNode⟩ b) ∧
      ∃ life, life.Leaves [] ∧ ∀ fuel, ns.length < fuel →
        smpLinkDestory (lifeCalls env) fuel link =
          .ok (.ok, life, if link.dataFree = NULL then [] else elements link ns) := by
  rcases h.lasting hs hpage with ⟨ns, fs, hlasting⟩
  have hrecord : Mpool.sizeofBigPool ≤ env.pageSize := Nat.le_trans (by decide) hpage
  have hlost := Life.begun_small hs hrecord hlasting.begun
    fun n hn => Nat.le_trans hn (small_requests hpage)
  rcases Life.begun_destory hs hrecord hlasting.begun with ⟨life, hrun, hleaves⟩
  rw [hlost] at hleaves
  refine ⟨ns, hlasting.linked.next, hlasting.elements, ?_, life, hleaves, ?_⟩
  · intro n hn
    exact hlasting.linked.good.within (hlasting.linked.block n (List.mem_append_left _ hn))
  · intro fuel hfuel
    rw [smpLinkDestory_eq hlasting.linked.next hfuel, hrun, Exec.ok_bind, Exec.pure_eq]

/-- The life of a link from which its first element of two was removed. -/
theorem link_whole_life_sample : ∃ link life, Kept (firstAnswers 2) link [8, 7] [7] ∧
    life.Leaves [] ∧ smpLinkDestory (lifeCalls (firstAnswers 2)) 2 link = .ok (.ok, life, [8]) := by
  have h₀ : Kept (firstAnswers 2) _ [] [] :=
    @Kept.init _ (fun _ => ⟨0, 0, 0, 0⟩) (fun _ => ⟨0, 0⟩) _ zeroed 5 _ rfl rfl
  have h₁ := @Kept.step _ _ _ _ _ 1 (.insert 7) 208 h₀ rfl
  have h₂ := @Kept.step _ _ _ _ _ 1 (.insert 8) 232 h₁ rfl
  have h₃ := @Kept.step _ _ _ _ _ 1 .rmAthead 7 h₂ rfl
  rcases link_whole_life (sound_firstAnswers 2) (by decide) h₃ with
    ⟨ns, hchain, -, -, life, hnothing, hrun⟩
  have hns : ns = [232] := hchain.unique ⟨rfl, by decide, rfl⟩
  subst hns
  exact ⟨_, life, h₃, hnothing, hrun 2 (by decide)⟩

end Link
end Smpcil
