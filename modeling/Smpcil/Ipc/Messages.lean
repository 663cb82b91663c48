import Smpcil.Basic
import Smpcil.Foundations.Linearizability

/-!
# Message queues

The operations of `smp_msg.c` that send messages to a queue, receive them by type, and remove the
queue.  A receiver may ask for the first message, for the first one of a type, or for the first
one of the least type up to a bound.

Main results:

- Theorem {lit}`ofKind_of_find`: whatever a receiver asks for, it takes the first message of a
  type.
- Theorem {lit}`Accounted.snoc`: one more request keeps the account of the messages of a queue.
- Theorem {lit}`messages_in_order`: in every interleaving the messages of a type are received in
  the order in which they were sent, each once, and only the removal of a queue loses some.
-/

namespace Smpcil
namespace Ipc
namespace Messages

open Programs

/-! ## Lists of several kinds -/

section Kinds

variable {α κ : Type} [DecidableEq κ] {kind : α → κ} {v w : κ} {l : List α} {a : α}

/-- The elements of a kind, in order. -/
def ofKind (kind : α → κ) (v : κ) (l : List α) : List α := l.filter fun a => kind a = v

@[simp] theorem ofKind_nil : ofKind kind v [] = [] := rfl

@[simp] theorem ofKind_append (l l' : List α) :
    ofKind kind v (l ++ l') = ofKind kind v l ++ ofKind kind v l' := List.filter_append ..

theorem ofKind_cons_of_eq (h : kind a = v) : ofKind kind v (a :: l) = a :: ofKind kind v l :=
  List.filter_cons_of_pos (by simpa using h)

theorem ofKind_cons_of_ne (h : kind a ≠ v) : ofKind kind v (a :: l) = ofKind kind v l :=
  List.filter_cons_of_neg (by simpa using h)

/-- Taking the first element of a kind takes the first of that kind and none of the others. -/
theorem ofKind_of_find (hfind : l.find? (fun b => kind b = w) = some a) : ofKind kind v l =
    (if kind a = v then [a] else []) ++ ofKind kind v (l.eraseP fun b => kind b = w) := by
  induction l with
  | nil => cases hfind
  | cons b l ih =>
      by_cases hb : kind b = w
      · rw [List.find?_cons_of_pos (by simpa using hb)] at hfind
        cases hfind
        rw [List.eraseP_cons_of_pos (by simpa using hb)]
        by_cases hv : kind a = v
        · rw [ofKind_cons_of_eq hv, if_pos hv]
          rfl
        · rw [ofKind_cons_of_ne hv, if_neg hv]
          rfl
      · rw [List.find?_cons_of_neg (by simpa using hb)] at hfind
        rw [List.eraseP_cons_of_neg (by simpa using hb)]
        have hrest := ih hfind
        have hkind : kind a = w := by simpa using List.find?_some hfind
        by_cases hv : kind b = v
        · -- an element that stays is of another kind than the one taken
          have hne : kind a ≠ v := fun heq => hb (by rw [hv, ← heq, hkind])
          rw [if_neg hne] at hrest ⊢
          rw [ofKind_cons_of_eq hv, ofKind_cons_of_eq hv, hrest]
          rfl
        · rw [ofKind_cons_of_ne hv, ofKind_cons_of_ne hv, hrest]

end Kinds

/-! ## The functions -/

/-- A message in a queue: its type is positive, and its length is an `int`. -/
structure Message where
  type : Int
  data : List UInt8
  pos : 0 < type
  short : data.length < 2 ^ 31

/-- `struct smp_msg_s`. -/
structure SmpMsg where
  type : Int
  msg : List UInt8
deriving DecidableEq, Repr

/-- The system calls. -/
inductive Syscall where
  | msgsnd (msgid type : Int) (data : List UInt8) (msgflg : Int)
  | msgrcv (msgid : Int) (msgSize : Nat) (msgtype msgflg : Int)
  | msgctlRmid (msgid : Int)

/-- What a system call returns, and the message that it stores. -/
structure Answer where
  ret : Int
  msg : Option Message

/-- A C function that makes system calls. -/
abbrev Sys (X : Type) := Prog Syscall Answer X

/-- `IPC_NOWAIT`. -/
def ipcNowait : Int := 0o4000

/-- `smp_msgsnd`, which sends {lit}`msgSize` bytes of a message. -/
def smpMsgsnd (msgid : Int) (msgbuf : SmpMsg) (msgSize : Nat) (msgflg : Int) : Sys Status := do
  let ret ← Prog.invoke (.msgsnd msgid msgbuf.type (msgbuf.msg.take msgSize) msgflg)
  if ret.ret = -1 then return .failure
  return .ok

/-- `smp_msgsnd_wait`. -/
def smpMsgsndWait (msgid : Int) (msgbuf : Option SmpMsg) (dataSize : Nat) : Sys Status :=
  match msgbuf with
  | none => return .failure
  | some msgbuf => smpMsgsnd msgid msgbuf dataSize 0

/-- `smp_msgsnd_nowait`. -/
def smpMsgsndNowait (msgid : Int) (msgbuf : Option SmpMsg) (dataSize : Nat) : Sys Status :=
  match msgbuf with
  | none => return .failure
  | some msgbuf => smpMsgsnd msgid msgbuf dataSize ipcNowait

/-- `smp_msgrcv`: what it returns, an `int`, and the message that is stored. -/
def smpMsgrcv (msgid : Int) (msgSize : Nat) (msgtype msgflg : Int) :
    Sys (Int × Option Message) := do
  let a ← Prog.invoke (.msgrcv msgid msgSize msgtype msgflg)
  let ret := a.ret.bmod (2 ^ 32)
  if ret = -1 then return (-1, a.msg)
  return (ret, a.msg)

/-- `smp_msgrcv_wait`; a buffer is given or not. -/
def smpMsgrcvWait (msgid : Int) (msgbuf : Bool) (rcvSize : Nat) (msgtype : Int) :
    Sys (Int × Option Message) :=
  if msgbuf = false then return (-1, none)
  else smpMsgrcv msgid rcvSize msgtype 0

/-- `smp_msgrcv_nowait`. -/
def smpMsgrcvNowait (msgid : Int) (msgbuf : Bool) (rcvSize : Nat) (msgtype : Int) :
    Sys (Int × Option Message) :=
  if msgbuf = false then return (-1, none)
  else smpMsgrcv msgid rcvSize msgtype ipcNowait

/-- `smp_msgctl` with the command `IPC_RMID`. -/
def smpMsgctl (msgid : Int) : Sys Status := do
  let ret ← Prog.invoke (.msgctlRmid msgid)
  if ret.ret = -1 then return .failure
  return .ok

/-- `smp_msgqueue_remove`. -/
def smpMsgqueueRemove (msgid : Int) : Sys Status := smpMsgctl msgid

/-! ## The kernel -/

/-- The type of the message that a receiver gets. -/
def wanted (msgtype : Int) (q : List Message) : Option Int :=
  if msgtype = 0 then q.head?.map Message.type
  else if 0 < msgtype then some msgtype
  else ((q.map Message.type).filter (· ≤ -msgtype)).min?

/-- The queues of the system, by their identifiers: the messages of each that exists. -/
abbrev Queues := Int → Option (List Message)

/-- What the documentation allows a call to do.  Every call may fail, and then changes nothing; a
queue that is removed is destroyed with the messages in it. -/
inductive Does : Syscall → Queues → Answer → Queues → Prop
  | failed (c : Syscall) (k : Queues) : Does c k ⟨-1, none⟩ k
  | sent {msgid type msgflg : Int} {data : List UInt8} {k : Queues} {q : List Message}
      (hpos : 0 < type) (hshort : data.length < 2 ^ 31) : k msgid = some q →
      Does (.msgsnd msgid type data msgflg) k ⟨0, none⟩
        (Function.update k msgid (some (q ++ [⟨type, data, hpos, hshort⟩])))
  | received {msgid msgtype msgflg w : Int} {msgSize : Nat} {m : Message} {k : Queues}
      {q : List Message} : k msgid = some q → wanted msgtype q = some w →
      q.find? (fun b => b.type = w) = some m → m.data.length ≤ msgSize →
      Does (.msgrcv msgid msgSize msgtype msgflg) k ⟨m.data.length, some m⟩
        (Function.update k msgid (some (q.eraseP fun b => b.type = w)))
  | removed {msgid : Int} {k : Queues} {q : List Message} : k msgid = some q →
      Does (.msgctlRmid msgid) k ⟨0, none⟩ (Function.update k msgid none)

/-- A kernel does only what is documented. -/
def Documented {ι : Type} (K : ι → Syscall → Queues → Answer → Queues → Prop) : Prop :=
  ∀ {i c k a k'}, K i c k a k' → Does c k a k'

/-! ## Requests -/

/-- A call of one of the functions.  A message that is sent has the bytes to be sent. -/
inductive Request where
  | send (wait : Bool) (msgid : Int) (msgbuf : Option SmpMsg) (dataSize : Nat)
      (fits : ∀ m, msgbuf = some m → dataSize ≤ m.msg.length)
  | receive (wait : Bool) (msgid : Int) (msgbuf : Bool) (rcvSize : Nat) (msgtype : Int)
  | remove (msgid : Int)

/-- What a function returns, and the message stored. -/
structure Outcome where
  ret : Int
  msg : Option Message

/-- A status as a number. -/
def statusRet : Status → Int
  | .ok => 0
  | .failure => -1

/-- The function called. -/
def code : Request → Sys Outcome
  | .send wait msgid msgbuf dataSize _ => do
      let st ← if wait then smpMsgsndWait msgid msgbuf dataSize
        else smpMsgsndNowait msgid msgbuf dataSize
      return ⟨statusRet st, none⟩
  | .receive wait msgid msgbuf rcvSize msgtype => do
      let a ← if wait then smpMsgrcvWait msgid msgbuf rcvSize msgtype
        else smpMsgrcvNowait msgid msgbuf rcvSize msgtype
      return ⟨a.1, a.2⟩
  | .remove msgid => do
      let st ← smpMsgqueueRemove msgid
      return ⟨statusRet st, none⟩

/-- What a request does to the queues. -/
inductive Effect : Request → Outcome → Queues → Queues → Prop
  | failed {r : Request} {k : Queues} : Effect r ⟨-1, none⟩ k k
  | sent {wait : Bool} {msgid : Int} {m : SmpMsg} {n : Nat} {fits} {k : Queues} {q : List Message}
      (hpos : 0 < m.type) (hshort : (m.msg.take n).length < 2 ^ 31) : k msgid = some q →
      Effect (.send wait msgid (some m) n fits) ⟨0, none⟩ k
        (Function.update k msgid (some (q ++ [⟨m.type, m.msg.take n, hpos, hshort⟩])))
  | received {wait : Bool} {msgid msgtype w : Int} {n : Nat} {m : Message} {k : Queues}
      {q : List Message} : k msgid = some q → wanted msgtype q = some w →
      q.find? (fun b => b.type = w) = some m → m.data.length ≤ n →
      Effect (.receive wait msgid true n msgtype) ⟨m.data.length, some m⟩ k
        (Function.update k msgid (some (q.eraseP fun b => b.type = w)))
  | removed {msgid : Int} {k : Queues} {q : List Message} : k msgid = some q →
      Effect (.remove msgid) ⟨0, none⟩ k (Function.update k msgid none)

/-- The system call that a request makes, if it is not refused. -/
def Request.syscall : Request → Option Syscall
  | .send wait msgid (some m) n _ =>
      some (.msgsnd msgid m.type (m.msg.take n) (if wait then 0 else ipcNowait))
  | .receive wait msgid true n msgtype =>
      some (.msgrcv msgid n msgtype (if wait then 0 else ipcNowait))
  | .remove msgid => some (.msgctlRmid msgid)
  | _ => none

/-- The outcome for an answer. -/
def Request.outcome : Request → Answer → Outcome
  | .receive .., a => ⟨a.ret.bmod (2 ^ 32), a.msg⟩
  | _, a => ⟨if a.ret = -1 then -1 else 0, none⟩

theorem smpMsgsnd_eq (msgid : Int) (m : SmpMsg) (n : Nat) (flg : Int) :
    (do let st ← smpMsgsnd msgid m n flg; return ⟨statusRet st, none⟩ : Sys Outcome) =
      .call (.msgsnd msgid m.type (m.msg.take n) flg) fun a =>
        .ret ⟨if a.ret = -1 then -1 else 0, none⟩ := by
  simp only [smpMsgsnd, Prog.invoke_bind, Prog.call_bind, Prog.bind_ite, Prog.pure_eq,
    Prog.ret_bind, statusRet]
  refine congrArg (Prog.call _) (funext fun a => ?_)
  split <;> rfl

theorem smpMsgrcv_eq (msgid : Int) (n : Nat) (msgtype flg : Int) :
    (do let a ← smpMsgrcv msgid n msgtype flg; return ⟨a.1, a.2⟩ : Sys Outcome) =
      .call (.msgrcv msgid n msgtype flg) fun a => .ret ⟨a.ret.bmod (2 ^ 32), a.msg⟩ := by
  simp only [smpMsgrcv, Prog.invoke_bind, Prog.call_bind, Prog.bind_ite, Prog.pure_eq,
    Prog.ret_bind]
  refine congrArg (Prog.call _) (funext fun a => ?_)
  split
  · rename_i h
    rw [h]
  · rfl

/-- A request is refused without a call, or makes one call. -/
theorem code_eq (r : Request) : code r =
    match r.syscall with
    | none => .ret ⟨-1, none⟩
    | some c => .call c fun a => .ret (r.outcome a) := by
  cases r with
  | send wait msgid msgbuf n fits =>
      cases msgbuf with
      | none => cases wait <;> rfl
      | some m => cases wait <;> exact smpMsgsnd_eq msgid m n _
  | receive wait msgid msgbuf n msgtype =>
      cases msgbuf with
      | false => cases wait <;> rfl
      | true => cases wait <;> exact smpMsgrcv_eq msgid n msgtype _
  | remove msgid =>
      simp only [code, smpMsgqueueRemove, smpMsgctl, Prog.invoke_bind, Prog.call_bind,
        Prog.bind_ite, Prog.pure_eq, Prog.ret_bind, statusRet, Request.syscall]
      refine congrArg (Prog.call _) (funext fun a => ?_)
      split <;> simp_all [Request.outcome]

/-- The call of a request is its effect. -/
theorem Does.effect {r : Request} {c : Syscall} {k k' : Queues} {a : Answer}
    (hcall : r.syscall = some c) (hdoes : Does c k a k') : Effect r (r.outcome a) k k' := by
  cases r with
  | send wait msgid msgbuf n fits =>
      cases msgbuf with
      | none => cases hcall
      | some m =>
          cases hcall
          cases hdoes with
          | failed => exact .failed
          | sent hpos hshort halive => exact .sent hpos hshort halive
  | receive wait msgid msgbuf n msgtype =>
      cases msgbuf with
      | false => cases hcall
      | true =>
          cases hcall
          cases hdoes with
          | failed => exact .failed
          | @received _ _ _ w _ m _ _ halive hwanted hfind hle =>
              have hret : ((m.data.length : Int)).bmod (2 ^ 32) = m.data.length :=
                bmod_of_lt m.short
              dsimp only [Request.outcome]
              rw [hret]
              exact .received halive hwanted hfind hle
  | remove msgid =>
      cases hcall
      cases hdoes with
      | failed => exact .failed
      | removed halive => exact .removed halive

/-! ## All requests -/

section Runs

variable {ι : Type} [DecidableEq ι] {K : ι → Syscall → Queues → Answer → Queues → Prop}

/-- A process is about to make its call, or has its result. -/
inductive Stage (r : Request) : Option Outcome → Sys Outcome → Prop
  | start : Stage r none (code r)
  | returned (x : Outcome) : Stage r (some x) (.ret x)

theorem Stage.call {r : Request} {m : Option Outcome} {c : Syscall} {f : Answer → Sys Outcome}
    {a : Answer} {k k' : Queues} (hstage : Stage r m (.call c f)) (hdoes : Does c k a k') :
    ∃ m', Stage r m' (f a) ∧ Advance (Effect r) m m' k k' := by
  generalize hP : Prog.call c f = P at hstage
  cases hstage with
  | start =>
      rw [code_eq] at hP
      cases hsys : r.syscall with
      | none =>
          rw [hsys] at hP
          cases hP
      | some c' =>
          rw [hsys] at hP
          cases hP
          exact ⟨_, .returned _, .commit _ (hdoes.effect hsys)⟩
  | returned _ => cases hP

theorem Stage.finish {r : Request} {m : Option Outcome} {x : Outcome} {k : Queues}
    (hstage : Stage r m (.ret x)) : m = some x ∨ m = none ∧ Effect r x k k := by
  generalize hP : Prog.ret x = P at hstage
  cases hstage with
  | start =>
      rw [code_eq] at hP
      cases hsys : r.syscall with
      | none =>
          rw [hsys] at hP
          cases hP
          exact .inr ⟨rfl, .failed⟩
      | some c =>
          rw [hsys] at hP
          cases hP
  | returned _ =>
      cases hP
      exact .inl rfl

/-- A request takes effect at its call. -/
def outline (hK : Documented K) : Outline code K id Effect where
  env := fun _ => True
  idle := fun _ _ => True
  busy := fun _ r m P _ => Stage r m P
  begin := fun _ _ => .start
  call := fun _ hstage hcall => ⟨trivial, hstage.call (hK hcall)⟩
  finish := fun _ hstage => ⟨trivial, hstage.finish⟩
  idle_stable := fun _ _ _ _ _ => trivial
  busy_stable := fun _ _ _ _ hother => hother

/-- What a message says. -/
def Message.content (m : Message) : SmpMsg := ⟨m.type, m.data⟩

/-- What the messages of a queue say, none if there is no queue. -/
def contents (k : Queues) (msgid : Int) : List SmpMsg := ((k msgid).getD []).map Message.content

theorem contents_none {k : Queues} {msgid : Int} (h : k msgid = none) :
    contents k msgid = [] := by
  rw [contents, h]
  rfl

theorem contents_some {k : Queues} {msgid : Int} {q : List Message} (h : k msgid = some q) :
    contents k msgid = q.map Message.content := by
  rw [contents, h]
  rfl

/-- The message that an entry of a log has put into a queue. -/
def sentBy (msgid : Int) (e : Entry Request Outcome) : List SmpMsg :=
  match e.request with
  | .send _ q (some m) n _ =>
      if q = msgid ∧ e.result.ret = 0 then [⟨m.type, m.msg.take n⟩] else []
  | _ => []

/-- The message that an entry of a log has got from a queue. -/
def gotBy (msgid : Int) (e : Entry Request Outcome) : List SmpMsg :=
  match e.request with
  | .receive _ q _ _ _ => if q = msgid then (e.result.msg.map Message.content).toList else []
  | _ => []

/-- An entry of a log has removed a queue. -/
def Removes (msgid : Int) (e : Entry Request Outcome) : Prop :=
  e.request = .remove msgid ∧ e.result.ret = 0

theorem ofKind_map (u : Int) (l : List Message) :
    ofKind SmpMsg.type u (l.map Message.content) =
      (ofKind Message.type u l).map Message.content :=
  List.filter_map

/-- What a request that has no effect has sent and got. -/
theorem sent_failed (msgid : Int) (n : Nat) (r : Request) :
    sentBy msgid ⟨n, r, ⟨-1, none⟩⟩ = [] := by
  unfold sentBy
  split
  · exact if_neg fun hboth => (by decide : (-1 : Int) ≠ 0) hboth.2
  · rfl

theorem got_failed (msgid : Int) (n : Nat) (r : Request) :
    gotBy msgid ⟨n, r, ⟨-1, none⟩⟩ = [] := by
  unfold gotBy
  split
  · exact ite_self _
  · rfl

theorem not_removes_failed (msgid : Int) (n : Nat) (r : Request) :
    ¬ Removes msgid ⟨n, r, ⟨-1, none⟩⟩ := fun hremoves => (by decide : (-1 : Int) ≠ 0) hremoves.2

/-- A removal sends nothing and gets nothing. -/
theorem Removes.sent {msgid : Int} {e : Entry Request Outcome} (h : Removes msgid e) :
    sentBy msgid e = [] := by
  rw [sentBy, h.1]

theorem Removes.got {msgid : Int} {e : Entry Request Outcome} (h : Removes msgid e) :
    gotBy msgid e = [] := by
  rw [gotBy, h.1]

/-- A queue is gone if it was before, or by a removal of it. -/
theorem Effect.gone_iff {r : Request} {x : Outcome} {k k' : Queues} (heffect : Effect r x k k')
    (n : Nat) (msgid : Int) : k' msgid = none ↔ k msgid = none ∨ Removes msgid ⟨n, r, x⟩ := by
  cases heffect with
  | failed => exact ⟨.inl, fun h => h.resolve_right (not_removes_failed msgid n r)⟩
  | @sent wait q m size fits _ ms hpos hshort hq =>
      by_cases heq : q = msgid
      · subst heq
        simp [hq, Removes]
      · simp [Function.update_of_ne (Ne.symm heq), Removes]
  | @received wait q msgtype w size m _ ms hq hwanted hfind hle =>
      by_cases heq : q = msgid
      · subst heq
        simp [hq, Removes]
      · simp [Function.update_of_ne (Ne.symm heq), Removes]
  | @removed q _ ms hq =>
      by_cases heq : q = msgid
      · subst heq
        simp [Removes]
      · simp [Function.update_of_ne (Ne.symm heq), Removes, heq]

/-- Nothing is sent to a queue that does not exist, got from it, or removed. -/
theorem Effect.dead {r : Request} {x : Outcome} {k k' : Queues} (heffect : Effect r x k k')
    (n : Nat) {msgid : Int} (hnone : k msgid = none) : sentBy msgid ⟨n, r, x⟩ = [] ∧
      gotBy msgid ⟨n, r, x⟩ = [] ∧ ¬ Removes msgid ⟨n, r, x⟩ := by
  cases heffect with
  | failed => exact ⟨sent_failed msgid n r, got_failed msgid n r, not_removes_failed msgid n r⟩
  | @sent wait q m size fits _ ms hpos hshort hq =>
      have hne : q ≠ msgid := fun heq => by rw [heq, hnone] at hq; cases hq
      simp [sentBy, gotBy, Removes, hne]
  | @received wait q msgtype w size m _ ms hq hwanted hfind hle =>
      have hne : q ≠ msgid := fun heq => by rw [heq, hnone] at hq; cases hq
      simp [sentBy, gotBy, Removes, hne]
  | @removed q _ ms hq =>
      have hne : q ≠ msgid := fun heq => by rw [heq, hnone] at hq; cases hq
      simp [sentBy, gotBy, Removes, hne]

/-- What is in a queue and what is sent to it is got from it or stays there, in order, unless the
queue is removed. -/
theorem Effect.balance {r : Request} {x : Outcome} {k k' : Queues} (heffect : Effect r x k k')
    (n : Nat) {msgid : Int} (hstays : ¬ Removes msgid ⟨n, r, x⟩) (u : Int) :
    ofKind SmpMsg.type u (contents k msgid ++ sentBy msgid ⟨n, r, x⟩) =
      ofKind SmpMsg.type u (gotBy msgid ⟨n, r, x⟩ ++ contents k' msgid) := by
  cases heffect with
  | failed => rw [sent_failed, got_failed, List.append_nil, List.nil_append]
  | @sent wait q m size fits _ ms hpos hshort hq =>
      by_cases heq : q = msgid
      · subst heq
        rw [contents_some hq, contents_some (Function.update_self ..)]
        simp [sentBy, gotBy, Message.content]
      · simp [contents, sentBy, gotBy, heq, Function.update_of_ne (Ne.symm heq)]
  | @received wait q msgtype w size m _ ms hq hwanted hfind hle =>
      by_cases heq : q = msgid
      · subst heq
        have hgot : gotBy q ⟨n, .receive wait q true size msgtype, ⟨m.data.length, some m⟩⟩ =
            [m].map Message.content := by
          simp [gotBy]
        have hsingle : ofKind Message.type u [m] = if m.type = u then [m] else [] := by
          by_cases hu : m.type = u
          · rw [ofKind_cons_of_eq hu, if_pos hu, ofKind_nil]
          · rw [ofKind_cons_of_ne hu, if_neg hu, ofKind_nil]
        have hkind : ofKind Message.type u ms = ofKind Message.type u
            ([m] ++ ms.eraseP fun b => b.type = w) := by
          rw [ofKind_append, hsingle]
          exact ofKind_of_find hfind
        rw [hgot, contents_some hq, contents_some (Function.update_self ..), ← List.map_append,
          ofKind_map, ← hkind, ← ofKind_map]
        exact congrArg (ofKind SmpMsg.type u) (List.append_nil _)
      · simp [contents, sentBy, gotBy, heq, Function.update_of_ne (Ne.symm heq)]
  | @removed q _ ms hq =>
      have hne : q ≠ msgid := fun heq => hstays ⟨congrArg Request.remove heq, rfl⟩
      simp [contents, sentBy, gotBy, Function.update_of_ne (Ne.symm hne)]

/-- The account of the messages of a queue over a log: a queue is gone at the end if it was at
first or is removed in between; after its removal nothing is sent to it, got from it or removed;
and the messages of a type that were in it at first and that were sent to it, in order, are those
that were got from it, in order, then those that are still there, and then those that its removal
has destroyed. -/
structure Accounted (k k' : Queues) (log : List (Entry Request Outcome)) (msgid : Int) : Prop where
  gone : k' msgid = none ↔ k msgid = none ∨ ∃ e ∈ log, Removes msgid e
  silent : ∀ before e after, log = before ++ e :: after → Removes msgid e → ∀ e' ∈ after,
    sentBy msgid e' = [] ∧ gotBy msgid e' = [] ∧ ¬ Removes msgid e'
  balance : ∃ destroyed, ((∀ e ∈ log, ¬ Removes msgid e) → destroyed = []) ∧ ∀ u,
    ofKind SmpMsg.type u (contents k msgid ++ log.flatMap (sentBy msgid)) =
      ofKind SmpMsg.type u (log.flatMap (gotBy msgid) ++ contents k' msgid ++ destroyed)

theorem Accounted.nil (k : Queues) (msgid : Int) : Accounted k k [] msgid where
  gone := by simp
  silent := by
    intro before e after hlog
    simp at hlog
  balance := ⟨[], fun _ => rfl, fun u => by simp⟩

/-- One more request keeps the account. -/
theorem Accounted.snoc {k k' k'' : Queues} {log : List (Entry Request Outcome)} {msgid : Int}
    {r : Request} {x : Outcome} (h : Accounted k k' log msgid) (heffect : Effect r x k' k'')
    (n : Nat) : Accounted k k'' (log ++ [⟨n, r, x⟩]) msgid where
  gone := by
    rw [heffect.gone_iff n, h.gone, or_assoc]
    simp [or_and_right, exists_or]
  silent := by
    intro before e after hlog hremoves e' he'
    rcases List.eq_nil_or_concat after with rfl | ⟨front, last, rfl⟩
    · cases he'
    · rw [List.concat_eq_append, ← List.cons_append, ← List.append_assoc] at hlog
      obtain ⟨hfront, hlast⟩ := List.append_inj' hlog rfl
      rw [List.concat_eq_append, List.mem_append, List.mem_singleton] at he'
      rcases he' with he' | rfl
      · exact h.silent before e front hfront hremoves e' he'
      · -- the queue is gone when the last request is made
        have hnone : k' msgid = none := h.gone.mpr (.inr ⟨e, by simp [hfront], hremoves⟩)
        cases hlast
        exact heffect.dead n hnone
  balance := by
    obtain ⟨destroyed, hquiet, hbalance⟩ := h.balance
    simp only [List.flatMap_append, List.flatMap_singleton, List.forall_mem_append,
      List.forall_mem_singleton]
    cases hqueue : k' msgid with
    | none =>
        obtain ⟨hsent, hgot, hremoves⟩ := heffect.dead n hqueue
        have hnone : k'' msgid = none := (heffect.gone_iff n msgid).mpr (.inl hqueue)
        refine ⟨destroyed, fun hall => hquiet hall.1, fun u => ?_⟩
        rw [hsent, hgot, List.append_nil, List.append_nil, hbalance u, contents_none hqueue,
          contents_none hnone]
    | some q =>
        -- nothing has been destroyed while the queue exists
        have hall : ∀ e ∈ log, ¬ Removes msgid e := by
          intro e he hremoves
          rw [h.gone.mpr (.inr ⟨e, he, hremoves⟩)] at hqueue
          cases hqueue
        rw [hquiet hall] at hbalance
        by_cases hremoves : Removes msgid ⟨n, r, x⟩
        · have hnone : k'' msgid = none := (heffect.gone_iff n msgid).mpr (.inr hremoves)
          refine ⟨contents k' msgid, fun hno => absurd hremoves hno.2, fun u => ?_⟩
          rw [hremoves.sent, hremoves.got, List.append_nil, List.append_nil, hbalance u,
            contents_none hnone, List.append_nil, List.append_nil]
        · refine ⟨[], fun _ => rfl, fun u => ?_⟩
          have hlast := heffect.balance n hremoves u
          have hbefore := hbalance u
          simp only [List.append_nil, ofKind_append] at hlast hbefore ⊢
          rw [← List.append_assoc, hbefore, List.append_assoc, hlast, List.append_assoc]

theorem accounted_of_legal {k k' : Queues} {log : List (Entry Request Outcome)}
    (hlegal : Legal Effect k log k') (msgid : Int) : Accounted k k' log msgid := by
  induction hlegal with
  | nil => exact .nil _ msgid
  | snoc _ heffect ih => exact ih.snoc heffect _

/-- In every interleaving, on a kernel that does only what is documented, sending, receiving and
removing act on the queues one after another, and the messages of each queue are accounted for:
of each type those got, in the order in which they were got, and then those still in the queue, or
destroyed by its removal, are the messages of the start and then those sent, in the order in which
they were sent. -/
theorem messages_in_order (hK : Documented K)
    {s₀ s : System ι Queues Request Syscall Answer Outcome} {H : List (Event ι Request Outcome)}
    (hfresh : s₀.Fresh) (hrun : Run code K s₀ H s) :
    (H.filterMap Event.begun).Nodup ∧ ∃ log, Explains Effect s₀.env s.env H log ∧
      ∀ msgid, Accounted s₀.env s.env log msgid := by
  obtain ⟨log, hinv⟩ := (outline hK).explained hfresh trivial (fun _ => trivial) hrun
  exact ⟨hrun.begun_nodup hfresh, log, hinv.explains, accounted_of_legal hinv.explains.legal⟩

end Runs

/-! ## A sender and a receiver -/

/-- A message of type two. -/
def sampleMsg : SmpMsg := ⟨2, [7]⟩

/-- A message of type three. -/
def sampleOther : SmpMsg := ⟨3, [8]⟩

/-- Nobody has sent anything. -/
def sampleQueues : System Bool Queues Request Syscall Answer Outcome :=
  ⟨fun _ => some [], fun _ => none, 0⟩

/-- A message is sent by one process. -/
def sampleSend (m : SmpMsg) (fits : 1 ≤ m.msg.length) : Request :=
  .send true 5 (some m) 1 (by rintro _ ⟨⟩; exact fits)

/-- One is received by the other process, which asks for a type up to three. -/
def sampleReceive : Request := .receive false 5 true 1 (-3)

/-- Two messages are sent and one is received; the removal of the queue destroys the other. -/
def sampleHistory : List (Event Bool Request Outcome) :=
  [.begin true 0 (sampleSend sampleMsg (by decide)), .finish true 0 ⟨0, none⟩,
    .begin true 1 (sampleSend sampleOther (by decide)), .begin false 2 sampleReceive,
    .finish false 2 ⟨1, some ⟨2, [7], by decide, by decide⟩⟩, .finish true 1 ⟨0, none⟩,
    .begin true 3 (.remove 5), .finish true 3 ⟨0, none⟩]

/-- A process that is about to receive makes its call. -/
theorem sampleReceive_call {n : ℕ} :
    some (⟨n, sampleReceive, code sampleReceive⟩ : Busy Request Syscall Answer Outcome) =
      some ⟨n, sampleReceive, .call (.msgrcv 5 1 (-3) ipcNowait) fun a =>
        .ret (sampleReceive.outcome a)⟩ := by
  rw [code_eq]
  rfl

theorem sample_run : ∃ s, Run code (fun _ => Does) sampleQueues sampleHistory s ∧
    s.env 5 = none := by
  have hstart : Run code (fun _ => Does) sampleQueues [] sampleQueues := .start
  have hfirst := hstart
    |>.step (.begin (i := true) (sampleSend sampleMsg (by decide)) rfl)
    |>.step (.call (i := true) rfl (@Does.sent 5 2 0 [7] _ [] (by decide) (by decide) rfl))
    |>.step (.finish (i := true) rfl)
  have hsecond := hfirst
    |>.step (.begin (i := true) (sampleSend sampleOther (by decide)) rfl)
    |>.step (.begin (i := false) sampleReceive rfl)
    |>.step (.call (i := true) rfl (@Does.sent 5 3 0 [8] _ _ (by decide) (by decide) rfl))
  have hreceived := hsecond
    |>.step (.call (i := false) sampleReceive_call (@Does.received 5 (-3) ipcNowait 2 1
      ⟨2, [7], by decide, by decide⟩ _ _ rfl rfl rfl (by decide)))
    |>.step (.finish (i := false) rfl)
    |>.step (.finish (i := true) rfl)
  have hremoved := hreceived
    |>.step (.begin (i := true) (.remove 5) rfl)
    |>.step (.call (i := true) rfl (@Does.removed 5 _ _ rfl))
    |>.step (.finish (i := true) rfl)
  exact ⟨_, hremoved, rfl⟩

theorem messages_in_order_sample : ∃ s, Run code (fun _ => Does) sampleQueues sampleHistory s ∧
    ∃ log, Explains Effect sampleQueues.env s.env sampleHistory log ∧
      (∃ e ∈ log, Removes 5 e) ∧ ∃ destroyed, ∀ u,
        ofKind SmpMsg.type u (log.flatMap (sentBy 5)) =
          ofKind SmpMsg.type u (log.flatMap (gotBy 5) ++ destroyed) := by
  obtain ⟨s, hrun, hgone⟩ := sample_run
  obtain ⟨-, log, hex, haccounted⟩ :=
    messages_in_order (K := fun _ => Does) id ⟨fun _ => rfl, rfl⟩ hrun
  have hfive := haccounted 5
  have hremoves := (hfive.gone.mp hgone).resolve_left (Option.some_ne_none _)
  obtain ⟨destroyed, -, hbalance⟩ := hfive.balance
  rw [contents_none hgone, List.append_nil] at hbalance
  exact ⟨s, hrun, log, hex, hremoves, destroyed, hbalance⟩
end Messages
end Ipc
end Smpcil
