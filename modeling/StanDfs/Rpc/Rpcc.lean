import StanDfs.Lib.Lts
import StanDfs.Rpc.Message
import StanDfs.Rpc.ReplyWindow
import StanDfs.Rpc.Window

/-!
# The client

Any number of threads are in `call1`, the poll thread calls `got_pdu`, and `cancel` may be called. A step
is a critical section of `m_`, `chan_m_` or `ca.m`, or the end of a `send`. Deadlines are not modelled: a
wait may time out and a caller may give up at any time.
-/

namespace StanDfs

/-- `caller` -/
structure Caller where
  xid : UInt32
  un : Unmarshall
  intret : Int32
  done : Bool
  deriving DecidableEq, Repr

/-- An `unmarshall` that has no buffer. -/
def Unmarshall.empty : Unmarshall := ⟨[], 0, 0, false⟩

/-- What a thread in `call1` works with: the request, and the connection `ch`. -/
structure Call (χ : Type*) where
  req : Request
  ch : Option χ
  deriving DecidableEq

/-- Where a thread is in `call1`, or in `bind` after it; at `lost` a wait of it has timed out. -/
inductive Thread (χ : Type*)
  | idle
  | transmit (f : Call χ)
  | send (f : Call χ) (c : χ)
  | waiting (f : Call χ)
  | lost (f : Call χ)
  | leaving (f : Call χ)
  | returning (f : Call χ)
  | binding (r : Int32)
  deriving DecidableEq

/-- What a client is given: its `clt_nonce_` and `retrans_`. -/
structure Rpcc.Env where
  nonce : UInt32
  retrans : Bool

/-- An `rpcc`. The last fields are history: the calls made, the requests that went out on a connection,
the xids of the replies `got_pdu` processed, and those of the calls erased from `calls_`. -/
structure Rpcc (χ : Type*) where
  srvNonce : UInt32
  bindDone : Bool
  xid : UInt32
  destroyWait : Bool
  chan : Option χ
  calls : Map Tid
  xidRepWindow : XidWindow
  callers : Tid → Caller
  threads : Tid → Thread χ
  dead : List χ
  issued : List Request
  sent : List (χ × Request)
  replied : List UInt32
  left : List UInt32

namespace Rpcc

variable {χ : Type*}

inductive Act (χ : Type*)
  | call1 (t : Tid) (proc : UInt32) (args : Bytes)
  /-- `get_refconn`; `conn` is what `connect_to_dst` gives, if it is called. -/
  | getRefconn (t : Tid) (f : Call χ) (conn : Option χ)
  /-- `send` has put the request on the connection, or has not. -/
  | tx (t : Tid) (f : Call χ) (c : χ) (ok : Bool)
  /-- The final deadline has passed. -/
  | giveup (t : Tid) (f : Call χ)
  /-- The caller finds that it is done. -/
  | woken (t : Tid) (f : Call χ)
  /-- A wait timed out, and the caller is not done. -/
  | timedout (t : Tid) (f : Call χ)
  /-- The look at the connection after it. -/
  | isdead (t : Tid) (f : Call χ)
  /-- The critical section that erases the call. -/
  | leave (t : Tid) (f : Call χ)
  | ret (t : Tid) (f : Call χ) (r : Int32)
  /-- The critical section of `bind`. -/
  | bound (t : Tid) (r : Int32)
  | gotPdu (c : χ) (b : Bytes)
  | cancel
  /-- The client's end of the connection dies. -/
  | die (c : χ)
  deriving DecidableEq

def init : Rpcc χ :=
  ⟨0, false, 1, false, none, ∅, ⟨0, []⟩, fun _ => ⟨0, .empty, 0, false⟩, fun _ => .idle, [], [], [], [],
    []⟩

def setThread (s : Rpcc χ) (t : Tid) (p : Thread χ) : Rpcc χ :=
  { s with threads := Function.update s.threads t p }

/-- `call1` refuses a call before binding, a second binding, and any call during `cancel`. -/
def refuses (s : Rpcc χ) (proc : UInt32) : Bool :=
  (proc != RpcConst.bind && !s.bindDone) || (proc == RpcConst.bind && s.bindDone) || s.destroyWait

/-- The request of the next call. -/
def request (e : Env) (s : Rpcc χ) (proc : UInt32) (args : Bytes) : Request :=
  ⟨⟨s.xid.toInt32, proc.toInt32, e.nonce, s.srvNonce, s.xidRepWindow.front.toInt32⟩, args⟩

/-- The first critical section of `call1`. -/
def call1 (e : Env) (s : Rpcc χ) (t : Tid) (proc : UInt32) (args : Bytes) : Rpcc χ :=
  if s.refuses proc then s
  else
    { s.setThread t (.transmit ⟨s.request e proc args, none⟩) with
      callers := Function.update s.callers t ⟨s.xid, .empty, 0, false⟩
      calls := s.calls.insert s.xid t
      xid := s.xid + 1
      issued := s.issued ++ [s.request e proc args] }

variable [DecidableEq χ]

/-- `chan_` is there and not dead. -/
def chanAlive (s : Rpcc χ) : Bool :=
  match s.chan with
  | some c => decide (c ∉ s.dead)
  | none => false

def getRefconn (s : Rpcc χ) (t : Tid) (f : Call χ) (conn : Option χ) : Rpcc χ :=
  let s := { s with chan := if s.chanAlive then s.chan else conn }
  let ch := s.chan.or f.ch
  match ch with
  | some c => s.setThread t (.send { f with ch := ch } c)
  | none => s.setThread t (.waiting { f with ch := ch })

/-- `!ch || ch->isdead()` -/
def lost (s : Rpcc χ) (f : Call χ) : Bool :=
  match f.ch with
  | some c => decide (c ∈ s.dead)
  | none => true

/-- After a wait that timed out `isdead` of the connection decides about a retransmission. -/
def isdead (e : Env) (s : Rpcc χ) (t : Tid) (f : Call χ) : Rpcc χ :=
  s.setThread t (if e.retrans && s.lost f then .transmit f else .waiting f)

def leave (s : Rpcc χ) (t : Tid) (f : Call χ) : Rpcc χ :=
  let xid := (s.callers t).xid
  { s.setThread t (.returning f) with
    calls := s.calls.erase xid
    xidRepWindow := updateXidRep s.xidRepWindow xid
    left := s.left ++ [xid] }

/-- What `call1` returns. -/
def result (ca : Caller) : Int32 := if ca.done then ca.intret else RpcConst.timeoutFailure

/-- What `call_m` reads from the reply of a call that returns an `int`. -/
def readInt (u : Unmarshall) : Option Int32 :=
  let (r, u) := u.unpack
  if u.okdone then some r else none

/-- The caller of `call1` goes on: `bind` with its second critical section, if the call was good. -/
def ret (s : Rpcc χ) (t : Tid) (f : Call χ) (r : Int32) : Rpcc χ :=
  if f.req.hdr.proc = RpcConst.bind.toInt32 ∧ r = 0 then
    match readInt (s.callers t).un with
    | some v => s.setThread t (.binding v)
    | none => s.setThread t .idle
  else s.setThread t .idle

/-- What `got_pdu` leaves in the caller. -/
def take (s : Rpcc χ) (t : Tid) (h : ReplyHeader) (u : Unmarshall) : Rpcc χ :=
  if (s.callers t).done then s
  else
    { s with
      callers := Function.update s.callers t
        { s.callers t with un := u, intret := h.ret, done := true } }

def gotPdu (s : Rpcc χ) (b : Bytes) : Rpcc χ :=
  match decodeReply b with
  | none => s
  | some (h, u) =>
    let xid := h.xid.toUInt32
    let s := { s with
      xidRepWindow := updateXidRep s.xidRepWindow xid
      replied := s.replied ++ [xid] }
    match s.calls.lookup xid with
    | none => s
    | some t => s.take t h u

/-- `cancel`: every caller in `calls_` is done. -/
def cancel (s : Rpcc χ) : Rpcc χ :=
  { s with
    callers := fun t =>
      if s.calls.lookup (s.callers t).xid = some t then
        { s.callers t with done := true, intret := RpcConst.cancelFailure }
      else s.callers t
    destroyWait := s.destroyWait || !s.calls.entries.isEmpty }

def next (e : Env) (s : Rpcc χ) : Act χ → Rpcc χ
  | .call1 t proc args => s.call1 e t proc args
  | .getRefconn t f conn => s.getRefconn t f conn
  | .tx t f c ok =>
    { s.setThread t (.waiting f) with sent := if ok then s.sent ++ [(c, f.req)] else s.sent }
  | .giveup t f => s.setThread t (.leaving f)
  | .woken t f => s.setThread t (.leaving f)
  | .timedout t f => s.setThread t (.lost f)
  | .isdead t f => s.isdead e t f
  | .leave t f => s.leave t f
  | .ret t f r => s.ret t f r
  | .bound t r => { s.setThread t .idle with bindDone := true, srvNonce := r.toUInt32 }
  | .gotPdu _ b => s.gotPdu b
  | .cancel => s.cancel
  | .die c => { s with dead := c :: s.dead }

/-- What the step puts on connections. -/
def output : Act χ → List (χ × Bytes)
  | .tx _ f c true => [(c, f.req.pdu)]
  | _ => []

def guard (s : Rpcc χ) : Act χ → Prop
  | .call1 t _ _ => s.threads t = .idle
  | .getRefconn t f conn => s.threads t = .transmit f ∧ (s.chanAlive = true → conn = none)
  | .tx t f c ok => s.threads t = .send f c ∧ (ok = true → c ∉ s.dead)
  | .giveup t f => s.threads t = .waiting f
  | .woken t f => s.threads t = .waiting f ∧ (s.callers t).done = true
  | .timedout t f => s.threads t = .waiting f ∧ (s.callers t).done = false
  | .isdead t f => s.threads t = .lost f
  | .leave t f => s.threads t = .leaving f
  | .ret t f r => s.threads t = .returning f ∧ r = result (s.callers t)
  | .bound t r => s.threads t = .binding r
  | .gotPdu _ _ => True
  | .cancel => True
  | .die _ => True

/-- The runs of a client, over every order of its threads and every input. -/
def lts (e : Env) : Lts (Rpcc χ) (Act χ) where
  init s := s = init
  guard := guard
  next := next e

instance (s : Rpcc χ) (a : Act χ) : Decidable (guard s a) := by
  unfold guard
  cases a <;> infer_instance

instance (e : Env) (s : Rpcc χ) (a : Act χ) : Decidable ((lts e).guard s a) :=
  inferInstanceAs (Decidable (guard s a))

/-- The counter `xid_` has not come round to 0 when a call takes its xid from it. -/
def Unwrapped (s : Rpcc χ) : Act χ → Prop
  | .call1 _ proc _ => s.refuses proc = false → s.xid ≠ 0
  | _ => True

/-- The runs of a client in which `xid_` does not wrap around. -/
def unwrapped (e : Env) : Lts (Rpcc χ) (Act χ) := (lts e).restrict Unwrapped

end Rpcc
end StanDfs
