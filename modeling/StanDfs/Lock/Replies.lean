import StanDfs.Lock.Table
import StanDfs.Rpc.CallM
import StanDfs.Rpc.Reg

/-!
# Replies of the lock server

The handlers that `lock_smain` registers, the replies they make, and what `lock_client` returns. The variable
`r` of a handler holds something when it is declared; here that is given for each request.
-/

namespace StanDfs

/-- What `lock_smain` registers. -/
inductive LockProc
  | stat
  | acquire
  | release
  deriving DecidableEq

def LockProc.number : LockProc → UInt32
  | .stat => LockProtocol.stat
  | .acquire => LockProtocol.acquire
  | .release => LockProtocol.release

namespace LockServer

/-- What a method returns, and what it leaves in `r`. Only `stat` assigns to it. -/
def result (nacquire r : Int32) : LockProc → Int32 × Int32
  | .stat => (LockProtocol.ok, nacquire)
  | .acquire => (LockProtocol.ok, r)
  | .release => (LockProtocol.ok, r)

/-- The handler of a method, with what the method returns and leaves in `r`. -/
def handler (q : Request) (out : Int32 × Int32) : Outcome (Args [.int, .ulonglong]) :=
  Rpcs.reg2 .int .ulonglong .int (fun _ _ => out) (.ofBuf q.args) .new

/-- The arguments that the method is called with. -/
def args (q : Request) : Option (Args [.int, .ulonglong]) := (handler q (0, 0)).call

/-- The reply that `dispatch` makes of what the handler returns and marshals. -/
def reply (q : Request) (out : Int32 × Int32) : Reply :=
  let o := handler q out
  ⟨⟨q.hdr.xid, o.intret⟩, o.ret.cstr.drop rpcHeaderSz⟩

end LockServer

/-- `lock_client::acquire` and `lock_client::release` with a reply. They return what they find in their `r`;
there is no result if their assertion fails. -/
def LockClient.status (b : Bytes) (r : Int32) : Option Int32 :=
  match decodeReply b with
  | some (h, u) =>
    let (ret, r) := callM .int h.ret u r
    if ret = LockProtocol.ok then some r else none
  | none => none

/-- The frame of a handler: the number of its request, the request, and its `r`. -/
structure LockFrame where
  no : Nat
  req : Request
  r : Int32

/-- A reply that was sent, with its request. -/
structure LockSent where
  no : Nat
  proc : LockProc
  req : Request
  bytes : Bytes

/-- A lock server with its handlers. `count` is the number of requests, `frames` has the handlers that wait
in `acquire`, and `sent` is history: the replies, newest first. -/
structure LockReplies where
  nacquire : Int32
  table : LockTable
  count : Nat
  frames : Tid → Option LockFrame
  sent : List LockSent

namespace LockReplies

open LockServer (result handler args reply)

inductive Act
  /-- A thread runs the handler of a request; `signals` is as in `LockTable.Act`. -/
  | request (t : Tid) (p : LockProc) (q : Request) (signals : Option Tid)
  | resume (t : Tid)
  | spurious (t : Tid)

/-- What happens at the lock table. -/
def tableAct : Act → Option LockTable.Act
  | .request t .acquire q _ => (args q).map fun a => .acquire t a.1 a.2.1
  | .request t .release q signals => (args q).map fun a => .release t a.1 a.2.1 signals
  | .request _ .stat _ _ => none
  | .resume t => some (.resume t)
  | .spurious t => some (.spurious t)

def init : LockReplies := ⟨0, .init, 0, fun _ => none, []⟩

/-- The bytes of the reply of a method. -/
def replyBytes (nacquire r : Int32) (p : LockProc) (q : Request) : Bytes :=
  frame (reply q (result nacquire r p)).buf

/-- The handler sends its reply, unless its thread waits at the lock table. -/
def settle (s : LockReplies) (t : Tid) (p : LockProc) (f : LockFrame) : LockReplies :=
  if s.table.threads t = .out then
    { s with
      frames := Function.update s.frames t none
      sent := ⟨f.no, p, f.req, replyBytes s.nacquire f.r p f.req⟩ :: s.sent }
  else { s with frames := Function.update s.frames t (some f) }

def moveTable (s : LockReplies) (a : Act) : LockReplies :=
  { s with table := (tableAct a).elim s.table s.table.next }

/-- `c` gives what `r` holds at first in the handler of each request. -/
def next (c : Nat → Int32) (s : LockReplies) (a : Act) : LockReplies :=
  match a with
  | .request t p q _ => { s.moveTable a with count := s.count + 1 }.settle t p ⟨s.count, q, c s.count⟩
  | .resume t =>
    match s.frames t with
    | some f => (s.moveTable a).settle t .acquire f
    | none => s.moveTable a
  | .spurious _ => s.moveTable a

def guard (s : LockReplies) (a : Act) : Prop :=
  (∀ b, tableAct a = some b → s.table.guard b) ∧
    match a with
    | .request t p q _ => q.hdr.proc.toUInt32 = p.number ∧ s.table.threads t = .out
    | _ => True

/-- The runs of a lock server, over every sequence of requests and every interleaving of their handlers. -/
def lts (c : Nat → Int32) : Lts LockReplies Act where
  init s := s = init
  guard := guard
  next := next c

/-- The replies, with the numbers of their requests. -/
def replies (s : LockReplies) : List (Nat × Bytes) := s.sent.map fun e => (e.no, e.bytes)

/-- What `lock_client` returns for the calls of `acquire` and `release`; `d` gives what its `r` holds. -/
def statuses (d : Nat → Int32) (s : LockReplies) : List (Nat × Option Int32) :=
  (s.sent.filter (·.proc ≠ .stat)).map fun e => (e.no, LockClient.status e.bytes (d e.no))

/-- The reply has what `r` held at first: that of an `acquire` or a `release` that was called. -/
def Leaks (e : LockSent) : Prop := e.proc ≠ .stat ∧ (args e.req).isSome

/-! ## A reply and its status -/

theorem reply_called {q : Request} (out : Int32 × Int32) (h : (args q).isSome) :
    reply q out = ⟨⟨q.hdr.xid, out.1⟩, BigEndian.bytes out.2.toUInt32⟩ := by
  have hbody : (Marshall.put .int .new out.2).cstr.drop rpcHeaderSz = BigEndian.bytes out.2.toUInt32 := by
    rw [(Marshall.wrote_put .int out.2 Marshall.new_ok (by decide)).cstr]
    exact List.drop_left' rfl
  simp only [args, reply, handler, Rpcs.reg2, Rpcs.fn] at h ⊢
  split at h
  · cases h
  · rename_i hd
    rw [if_neg hd]
    exact congrArg (Reply.mk ⟨q.hdr.xid, out.1⟩) hbody

theorem reply_refused {q : Request} (out : Int32 × Int32) (h : (args q).isSome = false) :
    reply q out = ⟨⟨q.hdr.xid, RpcConst.unmarshalArgsFailure⟩, []⟩ := by
  simp only [args, reply, handler, Rpcs.reg2, Rpcs.fn] at h ⊢
  split at h
  · rename_i hd
    rw [if_pos hd]
    rfl
  · cases h

/-- The caller of a handler that was called gets what the method left in `r`. -/
theorem status_called {q : Request} {r : Int32} (d : Int32) (h : (args q).isSome) :
    LockClient.status (frame (reply q (LockProtocol.ok, r)).buf) d = some r := by
  obtain ⟨u, hu, hok, hsz, hdrop⟩ := decodeReply_buf (reply q (LockProtocol.ok, r))
  rw [reply_called _ h] at hu hdrop ⊢
  obtain ⟨hint, -⟩ := Unmarshall.unpack_bytes hsz (hdrop.trans (List.append_nil _).symm)
  have hend : u.ind + 4 = u.sz := by
    have hl := congrArg List.length hdrop
    rw [List.length_drop, BigEndian.length_bytes, ← hsz] at hl
    omega
  have hget : (Reading.getInt ⟨u, []⟩).1 = r ∧ (Reading.getInt ⟨u, []⟩).2.u.okdone = true := by
    have hu' := (Reading.getInt_u ⟨u, []⟩).symm.trans hint
    rw [Prod.mk.injEq] at hu'
    refine ⟨hu'.1.trans (Int32.toInt32_toUInt32 _), ?_⟩
    rw [hu'.2]
    simp [Unmarshall.okdone, hok, hend]
  have hm : callM .int LockProtocol.ok u d = (LockProtocol.ok, r) := by
    simp only [callM, Reading.get, hget, bne_self_eq_false]
    rfl
  simp only [LockClient.status, hu, hm, ↓reduceIte]

theorem status_refused {q : Request} (out : Int32 × Int32) (d : Int32) (h : (args q).isSome = false) :
    LockClient.status (frame (reply q out).buf) d = none := by
  obtain ⟨u, hu, -⟩ := decodeReply_buf (reply q out)
  rw [reply_refused _ h] at hu ⊢
  simp only [LockClient.status, hu]
  rfl

theorem result_of_ne_stat {p : LockProc} (hp : p ≠ .stat) (nacquire r : Int32) :
    result nacquire r p = (LockProtocol.ok, r) := by
  cases p with
  | stat => exact absurd rfl hp
  | acquire => rfl
  | release => rfl

/-- Other contents of `r` make another reply, if the method was called and does not assign to it. -/
theorem replyBytes_eq_iff {nacquire r r' : Int32} {p : LockProc} {q : Request} :
    replyBytes nacquire r p q = replyBytes nacquire r' p q ↔ (p ≠ .stat ∧ (args q).isSome → r = r') := by
  constructor
  · rintro h ⟨hp, hq⟩
    rw [replyBytes, replyBytes, result_of_ne_stat hp, result_of_ne_stat hp] at h
    exact Option.some.inj
      ((status_called 0 hq).symm.trans ((congrArg (LockClient.status · 0) h).trans (status_called 0 hq)))
  · intro h
    by_cases hp : p = .stat
    · rw [hp]
      rfl
    · cases hq : (args q).isSome with
      | false => rw [replyBytes, replyBytes, reply_refused _ hq, reply_refused _ hq]
      | true => rw [h ⟨hp, hq⟩]

/-- What `lock_client` makes of the reply. -/
theorem status_replyBytes {nacquire r : Int32} {p : LockProc} {q : Request} (d : Int32) (hp : p ≠ .stat) :
    LockClient.status (replyBytes nacquire r p q) d = if (args q).isSome then some r else none := by
  rw [replyBytes, result_of_ne_stat hp]
  split
  · rename_i hq
    exact status_called d hq
  · rename_i hq
    exact status_refused _ d (Bool.eq_false_iff.mpr hq)

/-! ## Two runs with the same requests -/

variable {c c' : Nat → Int32} {tr : List Act} {s s' : LockReplies}

theorem table_settle (s : LockReplies) (t : Tid) (p : LockProc) (f : LockFrame) :
    (s.settle t p f).table = s.table := by
  unfold settle
  split <;> rfl

theorem sent_settle {t : Tid} (p : LockProc) (f : LockFrame) (h : s.table.threads t = .out) :
    (s.settle t p f).sent = ⟨f.no, p, f.req, replyBytes s.nacquire f.r p f.req⟩ :: s.sent := by
  rw [settle, if_pos h]

theorem table_next (s : LockReplies) (a : Act) :
    (s.next c a).table = (tableAct a).elim s.table s.table.next := by
  cases a with
  | request t p q signals => exact table_settle _ _ _ _
  | resume t =>
      simp only [next]
      split
      · exact table_settle _ _ _ _
      · rfl
  | spurious t => rfl

/-- The steps at the lock table are steps of the table. -/
theorem table_component (c : Nat → Int32) : (lts c).Component LockTable.lts table tableAct where
  init := by
    rintro s rfl
    rfl
  moves s a b hg hb := by
    refine ⟨hg.1 b hb, (table_next s a).trans ?_⟩
    rw [hb]
    rfl
  stays s a _ hb := by
    apply (table_next s a).trans
    rw [hb]
    rfl

/-- The locks of a server with its handlers are kept as those of the table alone. -/
theorem locks_of_run (h : (lts c).Run tr s) (lid : UInt64) :
    LockTable.Alternating (s.table.log lid) (LockTable.holder s.table.locks lid) ∧ s.table.Attended lid :=
  have hrun := h.component (table_component c)
  ⟨LockTable.alternating_of_run hrun lid, LockTable.attended_of_run hrun lid⟩

/-- The state if `r` holds `c` at first in every handler. -/
def under (s : LockReplies) (c : Nat → Int32) : LockReplies :=
  { s with
    frames := fun t => (s.frames t).map fun f => { f with r := c f.no }
    sent := s.sent.map fun e => { e with bytes := replyBytes s.nacquire (c e.no) e.proc e.req } }

theorem settle_under (s : LockReplies) (t : Tid) (p : LockProc) (f : LockFrame) (c : Nat → Int32) :
    (s.settle t p f).under c = (s.under c).settle t p { f with r := c f.no } := by
  have hupd : ∀ o : Option LockFrame, (fun t' => (Function.update s.frames t o t').map
      fun f : LockFrame => { f with r := c f.no }) =
      Function.update (s.under c).frames t (o.map fun f => { f with r := c f.no }) := by
    intro o
    funext t'
    by_cases ht : t' = t
    · subst ht
      simp only [Function.update_self]
    · simp only [Function.update_of_ne ht, under]
  simp only [settle]
  by_cases ht : s.table.threads t = .out
  · rw [if_pos ht, if_pos (show (s.under c).table.threads t = .out from ht)]
    exact congrArg (fun g => ({ s.under c with
      frames := g
      sent := ⟨f.no, p, f.req, replyBytes s.nacquire (c f.no) p f.req⟩ :: (s.under c).sent } : LockReplies))
      (hupd none)
  · rw [if_neg ht, if_neg (show (s.under c).table.threads t ≠ .out from ht)]
    exact congrArg (fun g => ({ s.under c with frames := g } : LockReplies)) (hupd (some f))

theorem next_under (s : LockReplies) (a : Act) : (s.next c a).under c' = (s.under c').next c' a := by
  cases a with
  | request t p q signals =>
      simp only [next, settle_under]
      rfl
  | resume t =>
      cases hf : s.frames t with
      | some f =>
          have hf' : (s.under c').frames t = some { f with r := c' f.no } := congrArg (Option.map _) hf
          simp only [next, hf, hf', settle_under]
          rfl
      | none =>
          have hf' : (s.under c').frames t = none := congrArg (Option.map _) hf
          simp only [next, hf, hf']
          rfl
  | spurious t => rfl

theorem run_under (h : (lts c).Run tr s) (c' : Nat → Int32) : (lts c').Run tr (s.under c') := by
  induction h with
  | @init s h =>
      cases h
      exact .init rfl
  | @step tr s a _ hg ih =>
      have hnext : ((lts c).next s a).under c' = (lts c').next (s.under c') a := next_under s a
      rw [hnext]
      exact .step ih hg

theorem eq_under (h : (lts c).Run tr s) (h' : (lts c').Run tr s') : s' = s.under c' := by
  refine h'.unique ?_ (run_under h c')
  rintro s s' rfl rfl
  rfl

/-- The contents of `r` reach the replies, and what `lock_client` returns, just through the handlers of
`acquire` and `release` that were called. -/
theorem replies_iff (h : (lts c).Run tr s) (h' : (lts c').Run tr s') (d d' : Nat → Int32) :
    (s.replies = s'.replies ↔ ∀ e ∈ s.sent, Leaks e → c e.no = c' e.no) ∧
    (s.statuses d = s'.statuses d' ↔ ∀ e ∈ s.sent, Leaks e → c e.no = c' e.no) := by
  have hs : ∀ e ∈ s.sent, e.bytes = replyBytes s.nacquire (c e.no) e.proc e.req := by
    intro e he
    have hself : s.sent.map id = _ := (List.map_id _).trans (congrArg sent (eq_under h h))
    exact congrArg LockSent.bytes (List.map_inj_left.mp hself e he)
  obtain rfl := eq_under h h'
  constructor
  · rw [replies, replies, under, List.map_map, List.map_inj_left]
    refine forall₂_congr fun e he => ?_
    rw [Function.comp_apply, hs e he, Prod.mk.injEq, replyBytes_eq_iff]
    exact and_iff_right rfl
  · have hstatus : ∀ e ∈ s.sent, e.proc ≠ .stat →
        (LockClient.status e.bytes (d e.no) =
            LockClient.status (replyBytes s.nacquire (c' e.no) e.proc e.req) (d' e.no) ↔
          (Leaks e → c e.no = c' e.no)) := by
      intro e he hp
      rw [hs e he, status_replyBytes _ hp, status_replyBytes _ hp, Leaks]
      cases (args e.req).isSome <;> simp [hp]
    rw [statuses, statuses, under, List.filter_map, List.map_map]
    apply List.map_inj_left.trans
    constructor
    · intro hall e he hl
      have heq := hall e (List.mem_filter.mpr ⟨he, decide_eq_true hl.1⟩)
      rw [Function.comp_apply, Prod.mk.injEq] at heq
      exact (hstatus e he hl.1).mp heq.2 hl
    · intro hall e he
      obtain ⟨he, hp⟩ := List.mem_filter.mp he
      rw [Function.comp_apply, Prod.mk.injEq]
      exact ⟨rfl, (hstatus e he (of_decide_eq_true hp)).mpr (hall e he)⟩

/-- A request of client 7 to acquire lock 5. -/
def acquireRequest : Request :=
  ⟨⟨1, LockProtocol.acquire.toInt32, 7, 9, 0⟩, [0, 0, 0, 7, 0, 0, 0, 0, 0, 0, 0, 5]⟩

/-- It is the only request, and returns at once. -/
def acquireOnce : Act := .request 0 .acquire acquireRequest none

theorem run_acquireOnce (c : Nat → Int32) : (lts c).Run [acquireOnce] (init.next c acquireOnce) := by
  refine .step (.init rfl) ⟨?_, by decide, rfl⟩
  intro b hb
  obtain ⟨a, -, rfl⟩ := Option.map_eq_some_iff.mp hb
  rfl

theorem sent_acquireOnce (c : Nat → Int32) : (init.next c acquireOnce).sent =
    [⟨0, .acquire, acquireRequest, replyBytes 0 (c 0) .acquire acquireRequest⟩] := by
  have hout : (init.moveTable acquireOnce).table.threads 0 = .out := by decide +kernel
  exact sent_settle .acquire ⟨0, acquireRequest, c 0⟩ hout

/-- Its reply is the same if `r` holds 3 in it, whatever it holds later. -/
theorem replies_iff_acquire :
    (init.next (fun _ => 3) acquireOnce).replies = (init.next (fun n => .ofNat (n + 3)) acquireOnce).replies := by
  refine (replies_iff (run_acquireOnce _) (run_acquireOnce _) (fun _ => 0) (fun _ => 0)).1.mpr ?_
  intro e he _
  rw [sent_acquireOnce, List.mem_singleton] at he
  rw [he]
  rfl

/-- Its reply, and what `lock_client` returns, is not the same if `r` holds 0 and if it holds 1. -/
theorem reply_shows_contents : ¬ ∀ (c c' d : Nat → Int32) (tr : List Act) (s s' : LockReplies),
    (lts c).Run tr s → (lts c').Run tr s' → s.replies = s'.replies ∧ s.statuses d = s'.statuses d := by
  intro h
  have hr := (h (fun _ => 0) (fun _ => 1) (fun _ => 0) _ _ _ (run_acquireOnce _) (run_acquireOnce _)).1
  rw [replies, replies, sent_acquireOnce, sent_acquireOnce] at hr
  have hb := congrArg Prod.snd (List.cons.inj hr).1
  have hc := replyBytes_eq_iff.mp hb ⟨by decide, by decide +kernel⟩
  cases hc

end LockReplies
end StanDfs
