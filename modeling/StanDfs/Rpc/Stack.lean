import StanDfs.Connection.Framing
import StanDfs.Lib.Simulation
import StanDfs.Rpc.Net

/-!
# The system over its connections

The clients and the servers with what is below `send` and `got_pdu`. A connection has two ends, each with a
sending and a receiving half that share `dead_`. What one end writes, in parts, the other reads in parts. A
thread in `send` does nothing else until it returns. The calls of `getRefconn` and of the handlers, and all
that happens between two `send`s, are the steps of the parties.
-/

namespace StanDfs

/-- One end of a connection. `got` counts the bytes that its socket has got. -/
structure End where
  snd : Sender
  rcv : Reader
  got : Nat

namespace End

inductive Act
  | snd (a : Sender.Act)
  | rcv (a : Reader.Act)

def init : End := ⟨.init, .init, 0⟩

/-- What a step is to the sending half: `read_cb` may find the connection dead. -/
def sndActs (e : End) : Act → List Sender.Act
  | .snd a => [a]
  | .rcv a => if (e.rcv.next a).dead && !e.snd.dead then [.readFailed] else []

/-- What a step is to the receiving half: a `write` may fail, or the connection is closed. -/
def rcvActs (e : End) : Act → List Reader.Act
  | .snd a => if (e.snd.next a).dead && !e.rcv.dead then [.die] else []
  | .rcv a => [a]

/-- The bytes that a step brings to the socket. -/
def arrives : Act → Bytes
  | .snd _ => []
  | .rcv a => Reader.arrived [a]

def next (e : End) (a : Act) : End :=
  ⟨(e.sndActs a).foldl Sender.next e.snd, (e.rcvActs a).foldl Reader.next e.rcv,
    e.got + (arrives a).length⟩

/-- `out` is what the other end has written. -/
def guard (e : End) (out : Bytes) : Act → Prop
  | .snd a => e.rcv.fault = none ∧ e.snd.guard a
  | .rcv a => e.rcv.fault = none ∧ e.snd.aborted = false ∧ Reader.arrived [a] <+: out.drop e.got

/-- An assertion failed, or memory was used that was not allocated. -/
def broken (e : End) : Bool := e.snd.aborted || e.rcv.fault.isSome

instance (e : End) (out : Bytes) (a : Act) : Decidable (e.guard out a) := by
  unfold guard
  cases a <;> infer_instance

end End

/-- The ends of a connection. -/
inductive Side
  | clt
  | srv
  deriving DecidableEq

def Side.other : Side → Side
  | .clt => .srv
  | .srv => .clt

/-- A call of `send`: `call1` has put a request together, or `dispatch` a reply. -/
inductive Sending (κ ι : Type*)
  | call (k : κ) (t : Tid) (f : Call (Conn κ ι)) (c : Conn κ ι)
  | reply (i : ι) (w : Worker) (j : Job (Conn κ ι)) (c : Conn κ ι) (b : Addr) (sz : Int)
  | refusal (i : ι) (w : Worker) (j : Job (Conn κ ι)) (r : Reply)
  deriving DecidableEq

namespace Sending

variable {κ ι : Type*}

def side : Sending κ ι → Side
  | .call _ _ _ _ => .clt
  | .reply _ _ _ _ _ _ | .refusal _ _ _ _ => .srv

def conn : Sending κ ι → Conn κ ι
  | .call _ _ _ c => c
  | .reply _ _ _ c _ _ => c
  | .refusal _ _ j _ => j.conn

/-- The client or the server that sends. -/
def party : Sending κ ι → κ ⊕ ι
  | .call k _ _ _ => .inl k
  | .reply i _ _ _ _ _ | .refusal i _ _ _ => .inr i

def tid : Sending κ ι → Tid
  | .call _ t _ _ => t
  | .reply _ w _ _ _ _ | .refusal _ w _ _ => w

/-- The end of the call, as far as the other party is concerned: the bytes go out, or they do not. -/
def act (x : Sending κ ι) (ok : Bool) : RpcNet.Act κ ι :=
  match x with
  | .call k t f c => .clt k (.tx t f c ok)
  | .reply i w j c b sz => .srv i (.tx w j c b sz ok)
  | .refusal i w j r => .srv i (.txReply w j r ok)

/-- What is sent. -/
def buf (s : RpcNet κ ι) : Sending κ ι → Bytes
  | .call _ _ f _ => reqPdu f.req.hdr f.req.args
  | .reply i _ _ _ b sz => ((s.srv i).contents b).take sz.toNat
  | .refusal _ _ _ r => r.buf

/-- The thread is about to call `send`, or in it and not done with what the other party sees. -/
def Stands (s : RpcNet κ ι) : Sending κ ι → Prop
  | .call k t f c => (s.clt k).threads t = .send f c
  | .reply i w j c b sz => (s.srv i).workers w = .send j c b sz
  | .refusal i w j r => (s.srv i).workers w = .reply j r

end Sending

/-- The parties, the ends of the connections, the calls of `send` that have not returned, and the parties
whose process has ended. -/
structure Stack (κ ι : Type*) where
  clt : κ → Rpcc (Conn κ ι)
  srv : ι → Rpcs (Conn κ ι)
  made : κ → Nat
  ends : Side × Conn κ ι → End
  sending : κ ⊕ ι → Tid → Option (Sending κ ι)
  crashed : κ ⊕ ι → Bool

namespace Stack

variable {κ ι : Type*}

inductive Act (κ ι : Type*)
  /-- A step of a party that neither sends nor receives. -/
  | own (a : RpcNet.Act κ ι)
  /-- A thread calls `send`, and the first `write` gives `r`. -/
  | send (x : Sending κ ι) (b : Pdu) (r : WriteResult)
  /-- Any other step of the sending half of an end. -/
  | conn (σ : Side) (c : Conn κ ι) (a : Sender.Act)
  | arrive (σ : Side) (c : Conn κ ι) (item : SockItem)
  /-- `read_cb`; `got_pdu` answers `accept`, and `keep` says that it did not ignore the PDU. -/
  | read (σ : Side) (c : Conn κ ι) (errno : Errno) (accept keep : Bool)

def init : Stack κ ι :=
  ⟨fun _ => Rpcc.init, fun _ => Rpcs.init, fun _ => 0, fun _ => .init, fun _ _ => none, fun _ => false⟩

/-- The parties alone. -/
def net (s : Stack κ ι) : RpcNet κ ι := ⟨s.clt, s.srv, [], [], s.made⟩

/-- The party that has an end. -/
def owner (c : Conn κ ι) : Side → κ ⊕ ι
  | .clt => .inl c.clt
  | .srv => .inr c.srv

/-- The step of an end that a step is. -/
def touch : Act κ ι → Option ((Side × Conn κ ι) × End.Act)
  | .own _ => none
  | .send x b r => some ((x.side, x.conn), .snd (.send x.tid b r))
  | .conn σ c a => some ((σ, c), .snd a)
  | .arrive σ c item => some ((σ, c), .rcv (.arrive item))
  | .read σ c errno accept _ => some ((σ, c), .rcv (.readCb errno accept))

/-- The thread of `send` that takes a step. -/
def sender : Sender.Act → Option Tid
  | .send t _ _ | .resume t _ | .complete t | .removed t => some t
  | .writeCb _ | .closeconn | .readFailed | .spurious _ => none

/-- The call of `send` that may begin to write in a step. -/
def mover (s : Stack κ ι) : Act κ ι → Option (Sending κ ι)
  | .send x _ _ => some x
  | .conn σ c (.resume t _) => s.sending (owner c σ) t
  | _ => none

/-- A call of `send` begins to write, or it returns without. -/
def ended (x : Sending κ ι) (e e' : End) : Option (RpcNet.Act κ ι) :=
  if e.snd.started.length < e'.snd.started.length then some (x.act true)
  else if e'.snd.threads x.tid = .idle then some (x.act false)
  else none

def die (c : Conn κ ι) : Side → RpcNet.Act κ ι
  | .clt => .clt c.clt (.die c)
  | .srv => .srv c.srv (.die c)

def gotPdu (c : Conn κ ι) (p : Bytes) : Side → RpcNet.Act κ ι
  | .clt => .clt c.clt (.gotPdu c p)
  | .srv => .srv c.srv (.gotPdu c p true)

/-- The PDU that a step of an end gives to `got_pdu`. -/
def taken (a : Act κ ι) (e e' : End) : List (RpcNet.Act κ ι) :=
  match a with
  | .read σ c _ _ true => (e'.rcv.delivered.drop e.rcv.delivered.length).map fun p => gotPdu c p σ
  | _ => []

/-- The steps of the parties that a step is, newest first. -/
def events (s : Stack κ ι) (a : Act κ ι) : List (RpcNet.Act κ ι) :=
  match a, touch a with
  | .own a, _ => [a]
  | a, some ((σ, c), b) =>
    let e := s.ends (σ, c)
    let e' := e.next b
    (if e'.snd.dead && !e.snd.dead then [die c σ] else []) ++
      (((s.mover a).bind fun x => ended x e e').toList ++ taken a e e')
  | _, none => []

/-- The thread of a party that takes a step. -/
def thread : RpcNet.Act κ ι → Option ((κ ⊕ ι) × Tid)
  | .clt k (.call1 t _ _) | .clt k (.getRefconn t _ _) | .clt k (.tx t _ _ _) | .clt k (.giveup t _)
  | .clt k (.woken t _) | .clt k (.timedout t _) | .clt k (.isdead t _) | .clt k (.leave t _)
  | .clt k (.ret t _ _) | .clt k (.bound t _) => some (.inl k, t)
  | .clt _ (.gotPdu _ _) | .clt _ .cancel | .clt _ (.die _) => none
  | .srv i (.begin w _ _) | .srv i (.seen w _) | .srv i (.save w _) | .srv i (.check w _)
  | .srv i (.handled w _ _ _) | .srv i (.record w _ _) | .srv i (.choose w _ _)
  | .srv i (.tx w _ _ _ _ _) | .srv i (.sent w _ _ _ _) | .srv i (.txReply w _ _ _) => some (.inr i, w)
  | .srv _ (.gotPdu _ _ _) | .srv _ (.die _) => none

/-- The steps that are neither of a `send` nor of the poll thread. -/
def quiet : RpcNet.Act κ ι → Bool
  | .clt _ (.tx _ _ _ _) | .clt _ (.gotPdu _ _) | .clt _ (.die _) => false
  | .srv _ (.tx _ _ _ _ _ _) | .srv _ (.txReply _ _ _ _) | .srv _ (.gotPdu _ _ _) | .srv _ (.die _) => false
  | _ => true

/-- The party of a step. -/
def partyOf : RpcNet.Act κ ι → κ ⊕ ι
  | .clt k _ => .inl k
  | .srv i _ => .inr i

/-- The process of the party has not ended. -/
def alive (s : Stack κ ι) : κ ⊕ ι → Bool
  | .inl k => !s.crashed (.inl k)
  | .inr i => !s.crashed (.inr i) && !(s.srv i).aborted

variable [DecidableEq κ] [DecidableEq ι]

/-- A thread is in `send` until its call returns. -/
def sendingNext (s : Stack κ ι) (a : Act κ ι) : κ ⊕ ι → Tid → Option (Sending κ ι) :=
  match touch a with
  | some ((σ, c), .snd b) =>
    match sender b with
    | some t =>
      let x := match a with
        | .send x _ _ => some x
        | _ => s.sending (owner c σ) t
      let x := if ((s.ends (σ, c)).next (.snd b)).snd.threads t = .idle then none else x
      Function.update s.sending (owner c σ) (Function.update (s.sending (owner c σ)) t x)
    | none => s.sending
  | _ => s.sending

def next (g : Config κ ι) (s : Stack κ ι) (a : Act κ ι) : Stack κ ι :=
  let net := (s.events a).foldr (fun b n => RpcNet.next g n b) s.net
  let s' : Stack κ ι :=
    { s with clt := net.clt, srv := net.srv, made := net.made, sending := s.sendingNext a }
  match touch a with
  | none => s'
  | some ((σ, c), b) =>
    let e' := (s.ends (σ, c)).next b
    { s' with
      ends := Function.update s.ends (σ, c) e'
      crashed := Function.update s.crashed (owner c σ) (s.crashed (owner c σ) || e'.broken) }

/-- A connection is used by its client and its server only. A client's `got_pdu` consumes every PDU. -/
def guard (g : Config κ ι) (s : Stack κ ι) (a : Act κ ι) : Prop :=
  (match touch a with
  | none => True
  | some ((σ, c), b) => s.alive (owner c σ) = true ∧
      (s.ends (σ, c)).guard (s.ends (σ.other, c)).snd.out b) ∧
  match a with
  | .own a => quiet a = true ∧ s.alive (partyOf a) = true ∧ RpcNet.guard g s.net a ∧
      ∀ p ∈ thread a, s.sending p.1 p.2 = none
  | .send x b _ => x.Stands s.net ∧ s.sending x.party x.tid = none ∧ x.party = owner x.conn x.side ∧
      b.1 = x.buf s.net
  | .conn _ _ a => (∀ t b r, a ≠ .send t b r) ∧ a ≠ .readFailed
  | .arrive _ _ _ => True
  | .read σ _ _ accept keep => σ = .clt → accept = true ∧ keep = true

instance (n : RpcNet κ ι) (x : Sending κ ι) : Decidable (x.Stands n) := by
  unfold Sending.Stands
  cases x <;> infer_instance

instance (a : Sender.Act) : Decidable (∀ t b r, a ≠ .send t b r) :=
  match a with
  | .send t b r => isFalse fun h => h t b r rfl
  | .resume _ _ | .complete _ | .removed _ | .writeCb _ | .closeconn | .readFailed | .spurious _ =>
    isTrue (by simp)

instance (g : Config κ ι) (s : Stack κ ι) (a : Act κ ι) : Decidable (guard g s a) := by
  unfold guard
  have : Decidable (match touch a with
    | none => True
    | some ((σ, c), b) => s.alive (owner c σ) = true ∧
        (s.ends (σ, c)).guard (s.ends (σ.other, c)).snd.out b) := by
    cases touch a <;> infer_instance
  cases a <;> infer_instance

/-- The runs of the system over its connections. -/
def lts (g : Config κ ι) : Lts (Stack κ ι) (Act κ ι) where
  init s := s = init
  guard := guard g
  next := next g

instance (g : Config κ ι) (s : Stack κ ι) (a : Act κ ι) : Decidable ((lts g).guard s a) :=
  inferInstanceAs (Decidable (guard g s a))

end Stack

namespace Solo

open Stack (Act)

/-- A call on the connection 0. Its request `up` is written in two parts and read in two others. -/
def callOver (t : Tid) (w : Worker) (q : Request) (b : Addr) (body : Bytes) (up down : Pdu) :
    List (Act Unit Unit) :=
  let c := conn 0
  let f : Call (Conn Unit Unit) := ⟨q, some c⟩
  let j : Job (Conn Unit Unit) := ⟨c, q⟩
  let sz : Int := 24 + body.length
  let own (l : List (RpcNet.Act Unit Unit)) : List (Act Unit Unit) := l.map .own
  own [.clt () (.call1 t q.hdr.proc.toUInt32 q.args),
    .clt () (.getRefconn t ⟨q, none⟩ (if q = bindReq then some c else none))] ++
  [.send (.call () t f c) up (.wrote 10),
    .arrive .srv c (.data ((frame up.1).take 7)), .read .srv c .other true true,
    .conn .clt c (.writeCb (.wrote 100)), .conn .clt c (.complete t),
    .arrive .srv c (.data ((frame up.1).drop 7)), .read .srv c .other true true] ++
  own [.srv () (.begin w c q.pdu), .srv () (.seen w j), .srv () (.save w j), .srv () (.check w j),
    .srv () (.handled w j 0 body), .srv () (.record w j b), .srv () (.choose w j b)] ++
  [.send (.reply () w j c b sz) down (.wrote 100)] ++
  own [.srv () (.sent w j c b sz)] ++
  [.arrive .clt c (.data (frame down.1)), .read .clt c .other true true] ++
  own [.clt () (.woken t f), .clt () (.leave t f), .clt () (.ret t f 0)]

/-- The client binds, and calls procedure 2, which returns the byte 3. -/
def bindCallOver : List (Act Unit Unit) :=
  callOver 0 0 bindReq 0 (BigEndian.bytes 7) ⟨reqPdu bindReq.hdr bindReq.args, by decide +kernel⟩
      ⟨(Result.mk ⟨conn 0, bindReq⟩ 0 (BigEndian.bytes 7)).buf, by decide +kernel⟩ ++
    .own (.clt () (.bound 0 7)) ::
  callOver 0 0 (req 2 1) 1 [3] ⟨reqPdu (req 2 1).hdr [], by decide +kernel⟩
      ⟨(Result.mk ⟨conn 0, req 2 1⟩ 0 [3]).buf, by decide +kernel⟩

end Solo
end StanDfs
