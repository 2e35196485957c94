import StanDfs.Lib.Lts
import StanDfs.Rpc.Message
import StanDfs.Rpc.ReplyWindow

/-!
# The server

`got_pdu` queues a job, and the workers of the pool run `dispatch`. A step is a critical section of
`dispatch`, with the local work up to the next one: the look at the header, the critical section of
`reply_window_m_` that makes the client known, that of `conss_m_`, `checkduplicate_and_update`, the return
of the handler, `add_reply`, the choice of the connection, and the two ends of `send`. Connections are
opaque here.
-/

namespace StanDfs

/-- A request that `dispatch` works on. -/
structure Job (χ : Type*) where
  conn : χ
  req : Request
  deriving DecidableEq

namespace Job

variable {χ : Type*}

def xid (j : Job χ) : UInt32 := j.req.xid

def nonce (j : Job χ) : UInt32 := j.req.hdr.cltNonce

def xidRep (j : Job χ) : UInt32 := j.req.hdr.xidRep.toUInt32

/-- The client and the call of a request. -/
def key (j : Job χ) : UInt32 × UInt32 := (j.nonce, j.xid)

/-- The reply to a job. -/
def reply (j : Job χ) (ret : Int32) (body : Bytes) : Reply := ⟨⟨j.req.hdr.xid, ret⟩, body⟩

end Job

/-- What a handler returned and marshalled for a job. -/
structure Result (χ : Type*) where
  job : Job χ
  ret : Int32
  body : Bytes
  deriving DecidableEq

/-- The buffer in which a result is sent. -/
def Result.buf {χ : Type*} (r : Result χ) : Bytes := (r.job.reply r.ret r.body).buf

/-- A thread of `dispatchpool_`. The pool has ten, `new ThrPool(10, false)`; no step depends on how many
there are. -/
abbrev Worker := Nat

/-- Where a worker is in `dispatch`. -/
inductive Pc (χ : Type*)
  | idle
  | seen (j : Job χ)
  | save (j : Job χ)
  | check (j : Job χ)
  | running (j : Job χ)
  | record (j : Job χ) (b : Addr)
  | choose (j : Job χ) (b : Addr)
  /-- About to pass the buffer to `send`. -/
  | send (j : Job χ) (c : χ) (b : Addr) (sz : Int)
  /-- In `send`. -/
  | sending (j : Job χ) (c : χ) (b : Addr) (sz : Int)
  /-- About to send a reply of its own, which is not in the window. -/
  | reply (j : Job χ) (r : Reply)
  deriving DecidableEq

/-- What a server is given: its `nonce_`, the registered procedures, and when its connections were
accepted. -/
structure Rpcs.Env (χ : Type*) where
  nonce : UInt32
  procs : Int32 → Bool
  created : χ → Timeval

/-- An `rpcs`. `heap` has the contents of the reply buffers by address and `freed` what `free` was called
with; `aborted` says that an assertion failed or a null pointer was used. The last fields are history:
what came in, which handlers ran, what they returned, which calls were dispatched before their reply was
recorded, and on which connection a reply was passed to `send`. -/
structure Rpcs (χ : Type*) where
  table : ReplyTable
  conns : Map χ
  heap : List Bytes
  freed : List Addr
  dead : List χ
  jobs : List (χ × Bytes)
  workers : Worker → Pc χ
  aborted : Bool
  received : List (χ × Bytes)
  execs : List (Job χ)
  results : List (Result χ)
  recorded : List ((UInt32 × UInt32) × Addr)
  copies : List (Job χ)
  answered : List ((UInt32 × UInt32) × χ)

namespace Rpcs

variable {χ : Type*}

inductive Act (χ : Type*)
  /-- `got_pdu`; the pool accepts the job or not. -/
  | gotPdu (c : χ) (b : Bytes) (accept : Bool)
  | begin (w : Worker) (c : χ) (b : Bytes)
  | seen (w : Worker) (j : Job χ)
  | save (w : Worker) (j : Job χ)
  | check (w : Worker) (j : Job χ)
  /-- The handler returns. -/
  | handled (w : Worker) (j : Job χ) (ret : Int32) (body : Bytes)
  | record (w : Worker) (j : Job χ) (b : Addr)
  | choose (w : Worker) (j : Job χ) (b : Addr)
  /-- `send` has put the bytes on the connection, or has not. -/
  | tx (w : Worker) (j : Job χ) (c : χ) (b : Addr) (sz : Int) (ok : Bool)
  /-- `send` returns. -/
  | sent (w : Worker) (j : Job χ) (c : χ) (b : Addr) (sz : Int)
  | txReply (w : Worker) (j : Job χ) (r : Reply) (ok : Bool)
  /-- The server's end of the connection dies. -/
  | die (c : χ)
  deriving DecidableEq

def init : Rpcs χ :=
  ⟨.empty, ∅, [], [], [], [], fun _ => .idle, false, [], [], [], [], [], []⟩

def setWorker (s : Rpcs χ) (w : Worker) (p : Pc χ) : Rpcs χ :=
  { s with workers := Function.update s.workers w p }

theorem forall_setWorker {P : Pc χ → Prop} {s : Rpcs χ} {w : Worker} {p : Pc χ}
    (h : ∀ w, P (s.workers w)) (hp : P p) (w' : Worker) : P ((s.setWorker w p).workers w') :=
  (Function.forall_update_iff s.workers fun _ => P).mpr ⟨hp, fun w _ => h w⟩ w'

/-- The contents of a buffer. -/
def contents (s : Rpcs χ) (b : Addr) : Bytes := s.heap.getD b []

/-- `rpcbind`, called by the handler that `reg` makes for it. -/
def rpcbind (nonce : UInt32) (args : Bytes) : Int32 × Bytes :=
  let (_, u) := (Unmarshall.ofBuf args).unpack
  if u.okdone then (0, BigEndian.bytes nonce) else (RpcConst.unmarshalArgsFailure, [])

/-- The handler is called. -/
def invoke (s : Rpcs χ) (w : Worker) (j : Job χ) : Rpcs χ :=
  { s.setWorker w (.running j) with execs := s.execs ++ [j] }

/-- The request is of a client with at-most-once logic. -/
def enter (s : Rpcs χ) (w : Worker) (j : Job χ) : Rpcs χ :=
  { s.setWorker w (.seen j) with
    copies := if j.key ∈ s.recorded.map Prod.fst then s.copies else s.copies ++ [j] }

variable [DecidableEq χ]

/-- `dispatch` up to its first critical section. -/
def begin (e : Env χ) (s : Rpcs χ) (w : Worker) (c : χ) (b : Bytes) : Rpcs χ :=
  let s := { s with jobs := s.jobs.erase (c, b) }
  match decodeReq b with
  | none => s
  | some q =>
    let j : Job χ := ⟨c, q⟩
    if q.hdr.srvNonce ≠ 0 ∧ q.hdr.srvNonce ≠ e.nonce then
      s.setWorker w (.reply j (j.reply RpcConst.oldsrvFailure []))
    else if e.procs q.hdr.proc = false then s
    else if j.nonce ≠ 0 then s.enter w j
    else s.invoke w j

/-- The critical section that saves the latest connection to the client. -/
def saveConn (e : Env χ) (s : Rpcs χ) (j : Job χ) : Map χ :=
  match s.conns.lookup j.nonce with
  | none => s.conns.insert j.nonce j.conn
  | some c =>
    if compare (e.created c) (e.created j.conn) < 0 then s.conns.insert j.nonce j.conn
    else s.conns

/-- What `dispatch` does with the answer of `checkduplicate_and_update`. -/
def answer (s : Rpcs χ) (w : Worker) (j : Job χ) : Rpcstate → Rpcs χ
  | .new => s.invoke w j
  | .inprogress => s.setWorker w .idle
  | .done (some b) sz => s.setWorker w (.send j j.conn b sz)
  | .done none _ => { s with aborted := true }
  | .forgotten => s.setWorker w (.reply j (j.reply RpcConst.atmostonceFailure []))

def check (s : Rpcs χ) (w : Worker) (j : Job χ) : Rpcs χ :=
  match s.table.checkduplicateAndUpdate j.nonce j.xid j.xidRep with
  | none => { s with aborted := true }
  | some (st, t, freed) => { s with table := t, freed := s.freed ++ freed }.answer w j st

/-- The handler returned: `take_buf` gives a new buffer. -/
def handled (s : Rpcs χ) (w : Worker) (j : Job χ) (ret : Int32) (body : Bytes) : Rpcs χ :=
  let b := s.heap.length
  let s := { s with
    heap := s.heap ++ [(Result.mk j ret body).buf]
    results := s.results ++ [Result.mk j ret body] }
  if j.nonce ≠ 0 then s.setWorker w (.record j b) else s.setWorker w (.choose j b)

def record (s : Rpcs χ) (w : Worker) (j : Job χ) (b : Addr) : Rpcs χ :=
  match s.table.addReply j.nonce j.xid (some b) (s.contents b).length with
  | none => { s with aborted := true }
  | some t =>
    { s.setWorker w (.choose j b) with table := t, recorded := s.recorded ++ [(j.key, b)] }

/-- The connection for the reply: its own, or the latest one if its own is dead. -/
def target (s : Rpcs χ) (j : Job χ) : Option χ :=
  if j.conn ∈ s.dead then s.conns.lookup j.nonce else some j.conn

def choose (s : Rpcs χ) (w : Worker) (j : Job χ) (b : Addr) : Rpcs χ :=
  match s.target j with
  | none => { s with aborted := true }
  | some c => s.setWorker w (.send j c b (s.contents b).length)

def next (e : Env χ) (s : Rpcs χ) : Act χ → Rpcs χ
  | .gotPdu c b accept =>
    if accept then { s with jobs := s.jobs ++ [(c, b)], received := s.received ++ [(c, b)] } else s
  | .begin w c b => s.begin e w c b
  | .seen w j => { s.setWorker w (.save j) with table := s.table.create j.nonce }
  | .save w j => { s.setWorker w (.check j) with conns := s.saveConn e j }
  | .check w j => s.check w j
  | .handled w j ret body => s.handled w j ret body
  | .record w j b => s.record w j b
  | .choose w j b => s.choose w j b
  | .tx w j c b sz _ =>
    { s.setWorker w (.sending j c b sz) with answered := s.answered ++ [(j.key, c)] }
  | .sent w j _ b _ =>
    { s.setWorker w .idle with freed := if j.nonce = 0 then s.freed ++ [b] else s.freed }
  | .txReply w _ _ _ => s.setWorker w .idle
  | .die c => { s with dead := c :: s.dead }

/-- What the step puts on connections. -/
def output (s : Rpcs χ) : Act χ → List (χ × Bytes)
  | .tx _ _ c b sz true => [(c, frame ((s.contents b).take sz.toNat))]
  | .txReply _ j r true => [(j.conn, frame r.buf)]
  | _ => []

/-- A handler returns a value `dispatch` accepts, and for `bind` what `rpcbind` does. -/
def HandlerOk (e : Env χ) (j : Job χ) (ret : Int32) (body : Bytes) : Prop :=
  (0 ≤ ret ∨ ret = RpcConst.unmarshalArgsFailure) ∧
    (j.req.hdr.proc = RpcConst.bind.toInt32 → (ret, body) = rpcbind e.nonce j.req.args)

def guard (e : Env χ) (s : Rpcs χ) (a : Act χ) : Prop :=
  s.aborted = false ∧
  match a with
  | .gotPdu _ _ _ => True
  | .begin w c b => s.workers w = .idle ∧ (c, b) ∈ s.jobs
  | .seen w j => s.workers w = .seen j
  | .save w j => s.workers w = .save j
  | .check w j => s.workers w = .check j
  | .handled w j ret body => s.workers w = .running j ∧ HandlerOk e j ret body
  | .record w j b => s.workers w = .record j b
  | .choose w j b => s.workers w = .choose j b
  | .tx w j c b sz ok => s.workers w = .send j c b sz ∧ (ok = true → c ∉ s.dead)
  | .sent w j c b sz => s.workers w = .sending j c b sz
  | .txReply w j r ok => s.workers w = .reply j r ∧ (ok = true → j.conn ∉ s.dead)
  | .die _ => True

/-- The runs of a server, over every order of its workers and every input. -/
def lts (e : Env χ) : Lts (Rpcs χ) (Act χ) where
  init s := s = init
  guard := guard e
  next := next e

instance (e : Env χ) (s : Rpcs χ) (a : Act χ) : Decidable (guard e s a) := by
  unfold guard HandlerOk
  cases a <;> infer_instance

end Rpcs
end StanDfs
