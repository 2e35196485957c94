import StanDfs.Lib.Lts

/-!
# The mutexes of a process

The other models take a critical section as one step. Here a step locks or unlocks one mutex, and every
function is what it locks and calls, down to the mutexes. The process has its poll thread, the threads of the
application with any number of `rpcc`s, and an `rpcs` with its workers and its listener. What the branches
depend on is kept where it is about connections, their references and `calls_`; elsewhere both ways are
possible. A system call is taken to return, but for the `write` to the pipe of `SelectAIO`, which waits for room.
-/

namespace StanDfs

namespace Process

/-- The threads: that of `wait_loop`, those of the application, those of `dispatchpool_`, and that of
`accept_conn` with the one that joins it. -/
inductive Thr
  | loop
  | app (n : Nat)
  | worker (n : Nat)
  | listener
  deriving DecidableEq, Repr

/-- `PollMgr::m_`, that of `SelectAIO`, `m_` and `ref_m_` of a connection, `m_` and `chan_m_` of an `rpcc`, the
`m` of a thread's `caller`, the four of the `rpcs`, that of the queue of jobs, and that of `lock_server`. -/
inductive Mutex (χ κ : Type*)
  | mgr
  | aio
  | conn (c : χ)
  | ref (c : χ)
  | rpcc (k : κ)
  | chan (k : κ)
  | caller (t : Thr)
  | procs
  | count
  | window
  | conss
  | queue
  | server
  deriving DecidableEq

/-- Who has a reference: a thread, `chan_`, `conns_` of the `rpcs`, `conns_` of the `tcpsconn`, or a job in
the queue. -/
inductive Owner (κ : Type*)
  | thread (t : Thr)
  | chan (k : κ)
  | latest (n : UInt32)
  | listed
  | job
  deriving DecidableEq

/-- What a thread is to do: a function to call, or where it is in one. -/
inductive Op (χ κ : Type*)
  | lock (m : Mutex χ κ)
  | unlock (m : Mutex χ κ)
  /-- `pthread_cond_wait` -/
  | sleep (m : Mutex χ κ)
  | asleep (m : Mutex χ κ)
  -- `PollMgr`
  | addCallback
  | delCallback (rdwr : Bool)
  | blockRemoveFd
  /-- `write` of a byte to the pipe -/
  | pipeWrite
  | waitLoop
  | callbacks
  -- `connection`
  | isdead (c : χ)
  | closeconn (c : χ)
  | closing (c : χ)
  | incref (c : χ) (o : Owner κ)
  | refInc (c : χ) (o : Owner κ)
  | decref (c : χ) (o : Owner κ)
  | refDec (c : χ) (o : Owner κ)
  /-- `decref` has come to zero. -/
  | lockLast (c : χ)
  | lastLook (c : χ)
  | send (c : χ)
  | sendWait (c : χ)
  | completeWait (c : χ)
  | readCb (c : χ)
  | readBody (c : χ)
  | writeCb (c : χ)
  | writeBody (c : χ)
  | setDead (c : χ)
  | gotPdu (c : χ)
  | readDone (c : χ)
  -- `rpcc`
  | call1 (k : κ)
  /-- `bind` has its answer. -/
  | bound (k : κ)
  | register (k : κ)
  | round (k : κ) (transmit : Bool)
  | sendCh
  | await (k : κ)
  | awaiting (k : κ)
  | lost (k : κ)
  | again (k : κ)
  | leave (k : κ)
  | erase (k : κ)
  | getRefconn (k : κ)
  | lookChan (k : κ)
  | chanDead (k : κ) (c : χ)
  | dropChan (k : κ)
  | connect (k : κ)
  | adopt (k : κ)
  | adoptRef (k : κ)
  | find (k : κ)
  | signal (k : κ) (t : Thr)
  | cancel (k : κ)
  | cancelEach (k : κ)
  | cancelWait (k : κ)
  /-- The thread gives its reference back. -/
  | dropOwn
  /-- The thread's connection is sent on. -/
  | sendOwn
  -- `rpcs`
  | enq (c : χ)
  | giveBack (c : χ)
  | takeJob
  | deq
  | dispatch
  /-- A `return` without `decref`. -/
  | forget
  | saveConn (n : UInt32)
  | dropLatest (n : UInt32)
  | saveLatest (n : UInt32)
  | checkduplicate (n : UInt32)
  | new (n : UInt32)
  | updatestat
  | handler
  | serving
  | addReply (n : UInt32)
  | choose (n : UInt32)
  | choosing (n : UInt32) (c : χ)
  | adoptLatest (n : UInt32)
  -- `tcpsconn`
  | accept
  | collect (cs : List χ)
  | seeDead (c : χ)
  | seeRef (c : χ)
  | lookRef (c : χ)
  | readRef (c : χ)
  | unlist (c : χ)
  /-- `i++` on the iterator of an entry that `erase` took away. -/
  | nextErased
  | closeAll
  | closeListed (c : χ)
  | closingListed (c : χ)
  deriving DecidableEq

/-- Which way a branch goes that depends on what is not kept here. -/
inductive Choice (χ : Type*)
  | go
  | wait
  | fail
  | other
  /-- `connect` or `accept` made this connection. -/
  | conn (c : χ)
  | caller (t : Thr)
  /-- The client nonce of a request. -/
  | request (n : UInt32)
  /-- What is ready: connections, and whether to read them. -/
  | callbacks (cs : List (χ × Bool))
  deriving DecidableEq

/-- `owners` has who has a reference to a connection, which the program does not record. `own` is the
connection that the thread itself has a reference to: `ch` of `call1`, `c` of `got_pdu` and `dispatch`. `pdu` is
the connection whose PDU the thread is giving to `got_pdu`. A thread is in `calls` with the `rpcc` whose `calls_`
has its `caller`. -/
structure Data (χ κ : Type*) where
  refno : χ → Int
  owners : χ → List (Owner κ)
  dead : χ → Bool
  deleted : List χ
  known : List χ
  own : Thr → Option χ
  pdu : Thr → Option χ
  calls : Thr → Option κ
  chan : κ → Option χ
  conns : UInt32 → Option χ
  jobs : List χ
  listed : List χ
  aborted : Bool

end Process

/-- A process: who has each mutex, what each thread is still to do, and how many bytes are in the pipe. -/
structure Process (χ κ : Type*) where
  locked : Process.Mutex χ κ → Option Process.Thr
  ops : Process.Thr → List (Process.Op χ κ)
  data : Process.Data χ κ
  pipe : Nat

namespace Process

open Function (update)

variable {χ κ : Type*}

namespace Op

/-- The mutex that the operation locks. -/
def wants : Op χ κ → Option (Mutex χ κ)
  | .lock m => some m
  | .incref c _ | .decref c _ | .lookRef c => some (.ref c)
  | .lockLast c => some (.conn c)
  | .signal _ t => some (.caller t)
  | _ => none

/-- The mutex that the operation unlocks. -/
def frees : Op χ κ → Option (Mutex χ κ)
  | .unlock m | .sleep m => some m
  | _ => none

end Op

variable [DecidableEq χ] [DecidableEq κ]

namespace Data

/-- A reference more, with the pointer that it is for. -/
def refInc (d : Data χ κ) (c : χ) (o : Owner κ) : Data χ κ :=
  { d with
    refno := update d.refno c (d.refno c + 1)
    owners := update d.owners c (o :: d.owners c)
    own := match o with
      | .thread t => update d.own t (some c)
      | _ => d.own
    conns := match o with
      | .latest n => update d.conns n (some c)
      | _ => d.conns }

def refDec (d : Data χ κ) (c : χ) (o : Owner κ) : Data χ κ :=
  { d with
    refno := update d.refno c (d.refno c - 1)
    owners := update d.owners c ((d.owners c).erase o) }

/-- A new connection, whose first reference is `o`'s. -/
def make (d : Data χ κ) (c : χ) (o : Owner κ) : Data χ κ :=
  { d with
    refno := update d.refno c 1
    owners := update d.owners c [o]
    known := c :: d.known }

/-- A reference passes from one to another. -/
def pass (d : Data χ κ) (c : χ) (o o' : Owner κ) : Data χ κ :=
  { d with owners := update d.owners c (o' :: (d.owners c).erase o) }

def setDead (d : Data χ κ) (c : χ) : Data χ κ := { d with dead := update d.dead c true }

def setOwn (d : Data χ κ) (t : Thr) (c : Option χ) : Data χ κ := { d with own := update d.own t c }

end Data

/-- One operation of a thread: the data after it, and what the thread does before it goes on. The connections
are those of the `rpcc` that `mgr_` names, or of the `rpcs`. -/
def exec (mgr : χ → Option κ) (d : Data χ κ) (t : Thr) (x : Choice χ) : Op χ κ → Data χ κ × List (Op χ κ)
  | .lock _ => (d, [])
  | .unlock _ => (d, [])
  | .sleep m => (d, [.asleep m])
  | .asleep m => (d, [.lock m])
  | .addCallback => (d, [.lock .mgr, .lock .aio, .pipeWrite, .unlock .aio, .unlock .mgr])
  | .delCallback rdwr =>
    (d, if rdwr then [.lock .mgr, .lock .aio, .pipeWrite, .unlock .aio, .unlock .mgr]
      else [.lock .mgr, .lock .aio, .unlock .aio, .unlock .mgr])
  | .blockRemoveFd => (d, [.lock .mgr, .lock .aio, .pipeWrite, .unlock .aio, .sleep .mgr, .unlock .mgr])
  | .pipeWrite => (d, [])
  | .waitLoop => (d, [.lock .mgr, .unlock .mgr, .lock .aio, .unlock .aio, .callbacks])
  | .callbacks =>
    match x with
    | .callbacks cs =>
      (d, (cs.filter (·.1 ∈ d.known)).map (fun c => if c.2 then .readCb c.1 else .writeCb c.1) ++ [.waitLoop])
    | _ => (d, [.waitLoop])
  | .isdead c => (d, [.lock (.conn c), .unlock (.conn c)])
  | .closeconn c => (d, [.lock (.conn c), .closing c])
  | .closing c =>
    if d.dead c then (d, [.unlock (.conn c)]) else (d.setDead c, [.unlock (.conn c), .blockRemoveFd])
  | .incref c o => (d, [.refInc c o])
  | .refInc c o => (d.refInc c o, [.unlock (.ref c)])
  | .decref c o => (d, [.refDec c o])
  | .refDec c o => (d.refDec c o, if d.refno c - 1 = 0 then [.lockLast c] else [.unlock (.ref c)])
  | .lockLast c => (d, [.lastLook c])
  | .lastLook c =>
    if d.dead c then ({ d with deleted := c :: d.deleted }, [.unlock (.ref c), .unlock (.conn c)])
    else (d, [.unlock (.conn c), .unlock (.ref c)])
  | .send c => (d, [.lock (.conn c), .sendWait c])
  | .sendWait c =>
    if d.dead c then (d, [.unlock (.conn c)])
    else
      match x with
      | .wait => (d, [.sleep (.conn c), .sendWait c])
      | .fail => (d.setDead c, [.unlock (.conn c), .blockRemoveFd, .lock (.conn c), .unlock (.conn c)])
      | .other => (d, [.addCallback, .completeWait c])
      | _ => (d, [.unlock (.conn c)])
  | .completeWait c =>
    match x with
    | .wait => (d, [.sleep (.conn c), .completeWait c])
    | _ => (d, [.unlock (.conn c)])
  | .readCb c => (d, [.lock (.conn c), .readBody c])
  | .readBody c =>
    if d.dead c then (d, [.unlock (.conn c)])
    else
      match x with
      | .fail => (d, [.delCallback true, .setDead c])
      | .go => ({ d with pdu := update d.pdu t (some c) }, [.gotPdu c, .readDone c])
      | _ => (d, [.unlock (.conn c)])
  | .writeCb c => (d, [.lock (.conn c), .writeBody c])
  | .writeBody c =>
    if d.dead c then ({ d with aborted := true }, [.unlock (.conn c)])
    else
      match x with
      | .fail => (d, [.delCallback true, .setDead c])
      | .other => (d, [.delCallback false, .unlock (.conn c)])
      | _ => (d, [.unlock (.conn c)])
  | .setDead c => (d.setDead c, [.unlock (.conn c)])
  | .gotPdu c =>
    match x, mgr c with
    -- a bad header, or an `rpcs` that is not reachable
    | .fail, _ => (d, [])
    | _, some k => (d, [.lock (.rpcc k), .find k])
    | _, none => (d, [.incref c (.thread t), .lock .queue, .enq c])
  | .readDone c => ({ d with pdu := update d.pdu t none }, [.unlock (.conn c)])
  | .call1 k => (d, [.lock (.rpcc k), .register k])
  | .bound k =>
    match x with
    | .go => (d, [.lock (.rpcc k), .unlock (.rpcc k)])
    | _ => (d, [])
  | .register k =>
    match x with
    | .fail => (d, [.unlock (.rpcc k)])
    | _ => ({ d with calls := update d.calls t (some k) }, [.unlock (.rpcc k), .round k true])
  | .round k transmit => (d, if transmit then [.getRefconn k, .sendCh, .await k] else [.await k])
  | .sendCh =>
    match x with
    | .fail => (d, [])
    | _ => (d, [.sendOwn])
  | .await k =>
    match x with
    | .fail => (d, [.leave k])
    | _ => (d, [.lock (.caller t), .awaiting k])
  | .awaiting k =>
    match x with
    | .wait => (d, [.sleep (.caller t), .awaiting k])
    | .go => (d, [.unlock (.caller t), .leave k])
    | _ => (d, [.unlock (.caller t), .lost k])
  | .lost k =>
    match d.own t, x with
    | some c, .go => (d, [.isdead c, .again k])
    | _, _ => (d, [.again k])
  | .again k =>
    match x with
    | .go => (d, [.round k true])
    | _ => (d, [.round k false])
  | .leave k => (d, [.lock (.rpcc k), .erase k])
  | .erase k =>
    ({ d with calls := update d.calls t none },
      [.unlock (.rpcc k), .lock (.caller t), .dropOwn, .unlock (.caller t)])
  | .getRefconn k => (d, [.lock (.chan k), .lookChan k])
  | .lookChan k =>
    match d.chan k with
    | none => (d, [.connect k, .adopt k, .unlock (.chan k)])
    | some c => (d, [.lock (.conn c), .chanDead k c])
  | .chanDead k c =>
    if d.dead c then (d, [.unlock (.conn c), .dropChan k, .connect k, .adopt k, .unlock (.chan k)])
    else (d, [.unlock (.conn c), .adopt k, .unlock (.chan k)])
  | .dropChan k =>
    match d.chan k with
    | some c => ({ d with chan := update d.chan k none }, [.decref c (.chan k)])
    | none => (d, [])
  | .connect k =>
    match x with
    | .conn c =>
      if c ∉ d.known ∧ mgr c = some k then
        ({ d.make c (.chan k) with chan := update d.chan k (some c) }, [.addCallback])
      else (d, [])
    | _ => (d, [])
  | .adopt k =>
    match d.chan k with
    | some _ => (d, [.dropOwn, .adoptRef k])
    | none => (d, [])
  | .adoptRef k =>
    match d.chan k with
    | some c => (d, [.incref c (.thread t)])
    | none => (d, [])
  | .find k =>
    match x with
    | .caller t' =>
      if d.calls t' = some k then (d, [.signal k t', .unlock (.rpcc k)]) else (d, [.unlock (.rpcc k)])
    | _ => (d, [.unlock (.rpcc k)])
  | .signal _ t' => (d, [.unlock (.caller t')])
  | .cancel k => (d, [.lock (.rpcc k), .cancelEach k])
  | .cancelEach k =>
    match x with
    | .caller t' =>
      if d.calls t' = some k then (d, [.signal k t', .cancelEach k]) else (d, [.cancelWait k])
    | _ => (d, [.cancelWait k])
  | .cancelWait k =>
    match x with
    | .wait => (d, [.sleep (.rpcc k), .cancelWait k])
    | _ => (d, [.unlock (.rpcc k)])
  | .dropOwn =>
    match d.own t with
    | some c => (d.setOwn t none, [.decref c (.thread t)])
    | none => (d, [])
  | .sendOwn =>
    match d.own t with
    | some c => (d, [.send c])
    | none => (d, [])
  | .enq c =>
    match x with
    | .fail => (d, [.unlock .queue, .giveBack c])
    | _ =>
      if d.own t = some c then
        ({ (d.pass c (.thread t) .job).setOwn t none with jobs := d.jobs ++ [c] }, [.unlock .queue])
      else (d, [.unlock .queue])
  | .giveBack c => if d.own t = some c then (d.setOwn t none, [.decref c (.thread t)]) else (d, [])
  | .takeJob => (d, [.lock .queue, .deq])
  | .deq =>
    match d.jobs with
    | [] => (d, [.sleep .queue, .deq])
    | c :: js =>
      ({ (d.pass c .job (.thread t)).setOwn t (some c) with jobs := js }, [.unlock .queue, .dispatch])
  | .dispatch =>
    match x with
    | .fail => (d, [.dropOwn, .takeJob])
    | .other => (d, [.sendOwn, .forget, .takeJob])
    | .request n =>
      if n = 0 then (d, [.lock .procs, .unlock .procs, .new 0, .takeJob])
      else (d, [.lock .procs, .unlock .procs, .lock .window, .unlock .window, .lock .conss, .saveConn n,
        .checkduplicate n, .takeJob])
    | _ => (d, [.lock .procs, .unlock .procs, .dropOwn, .takeJob])
  | .forget => (d.setOwn t none, [])
  | .saveConn n =>
    match d.conns n, x with
    | none, _ => (d, [.saveLatest n, .unlock .conss])
    | some _, .go => (d, [.dropLatest n, .saveLatest n, .unlock .conss])
    | some _, _ => (d, [.unlock .conss])
  | .dropLatest n =>
    match d.conns n with
    | some c => ({ d with conns := update d.conns n none }, [.decref c (.latest n)])
    | none => (d, [])
  | .saveLatest n =>
    match d.own t with
    | some c => (d, [.incref c (.latest n)])
    | none => (d, [])
  | .checkduplicate n =>
    match x with
    | .go => (d, [.lock .window, .unlock .window, .new n])
    | .wait => (d, [.lock .window, .unlock .window, .dropOwn])
    | _ => (d, [.lock .window, .unlock .window, .sendOwn, .dropOwn])
  | .new n => (d, [.updatestat, .handler, .addReply n, .lock .conss, .choose n, .sendOwn, .dropOwn])
  | .updatestat =>
    match x with
    | .go => (d, [.lock .count, .unlock .count])
    | .other => (d, [.lock .count, .lock .window, .unlock .window, .unlock .count])
    | _ => (d, [])
  | .handler =>
    match x with
    | .go => (d, [.lock .server, .serving])
    | _ => (d, [])
  | .serving =>
    match x with
    | .wait => (d, [.sleep .server, .serving])
    | _ => (d, [.unlock .server])
  | .addReply n => (d, if n = 0 then [] else [.lock .window, .unlock .window])
  | .choose n =>
    match d.own t with
    | some c => (d, [.lock (.conn c), .choosing n c])
    | none => (d, [.unlock .conss])
  | .choosing n c =>
    if d.dead c ∧ d.conns n ≠ some c then (d, [.unlock (.conn c), .dropOwn, .adoptLatest n, .unlock .conss])
    else (d, [.unlock (.conn c), .unlock .conss])
  | .adoptLatest n =>
    match d.conns n with
    | some c => (d, [.incref c (.thread t)])
    | none => ({ d with aborted := true }, [])
  | .accept =>
    match x with
    | .conn c =>
      if c ∉ d.known ∧ mgr c = none then
        -- nobody else reads `conns_`, so the new connection may be there before the loop over the older ones
        ({ d.make c .listed with listed := c :: d.listed }, [.addCallback, .collect d.listed, .accept])
      else (d, [.accept])
    -- `~rpcs`, with its `free_reply_window`
    | .fail => (d, [.closeAll, .lock .window, .unlock .window])
    | _ => (d, [.accept])
  | .collect cs =>
    match cs with
    | [] => (d, [])
    | c :: cs => (d, [.lock (.conn c), .seeDead c, .collect cs])
  | .seeDead c => (d, if d.dead c then [.unlock (.conn c), .seeRef c] else [.unlock (.conn c)])
  | .seeRef c => (d, if c ∈ d.listed then [.lookRef c] else [])
  | .lookRef c => (d, [.readRef c])
  | .readRef c => (d, if d.refno c = 1 then [.unlock (.ref c), .unlist c, .nextErased] else [.unlock (.ref c)])
  | .nextErased => ({ d with aborted := true }, [])
  | .unlist c =>
    if c ∈ d.listed then ({ d with listed := d.listed.erase c }, [.decref c .listed]) else (d, [])
  | .closeAll =>
    match d.listed with
    | [] => (d, [])
    | c :: _ => (d, [.closeListed c, .closeAll])
  | .closeListed c => (d, [.lock (.conn c), .closingListed c])
  | .closingListed c =>
    if d.dead c then (d, [.unlock (.conn c), .unlist c])
    else (d.setDead c, [.unlock (.conn c), .blockRemoveFd, .unlist c])

inductive Act (χ κ : Type*)
  /-- The thread goes on with what it is to do. -/
  | step (t : Thr) (x : Choice χ)
  | call1 (n : Nat) (k : κ)
  | bind (n : Nat) (k : κ)
  | cancel (n : Nat) (k : κ)
  /-- `rpcs::reg1` -/
  | reg (n : Nat)
  /-- `~rpcc`, while no thread is in `get_refconn`. -/
  | destroy (n : Nat) (k : κ)
  deriving DecidableEq

/-- What the threads start with. -/
def Thr.start : Thr → List (Op χ κ)
  | .loop => [.waitLoop]
  | .app _ => []
  | .worker _ => [.takeJob]
  | .listener => [.accept]

def init : Process χ κ :=
  ⟨fun _ => none, Thr.start, ⟨fun _ => 0, fun _ => [], fun _ => false, [], [], fun _ => none, fun _ => none,
    fun _ => none, fun _ => none, fun _ => none, [], [], false⟩, 0⟩

/-- The mutexes after an operation of the thread. -/
def relock (l : Mutex χ κ → Option Thr) (t : Thr) (op : Op χ κ) : Mutex χ κ → Option Thr :=
  match op.wants, op.frees with
  | some m, _ => update l m (some t)
  | none, some m => update l m none
  | none, none => l

def setOps (s : Process χ κ) (t : Thr) (l : List (Op χ κ)) : Process χ κ := { s with ops := update s.ops t l }

/-- The bytes in the pipe after an operation: `wait_ready` reads one, but for an `EINTR`. -/
def piped (n : Nat) (x : Choice χ) : Op χ κ → Nat
  | .pipeWrite => n + 1
  | .callbacks =>
    match x with
    | .callbacks _ => n - 1
    | _ => n
  | _ => n

/-- The thread's next operation is `op`, and `rest` is what follows. -/
def run (mgr : χ → Option κ) (s : Process χ κ) (t : Thr) (x : Choice χ) (op : Op χ κ) (rest : List (Op χ κ)) :
    Process χ κ where
  locked := relock s.locked t op
  ops := update s.ops t ((exec mgr s.data t x op).2 ++ rest)
  data := (exec mgr s.data t x op).1
  pipe := piped s.pipe x op

def next (mgr : χ → Option κ) (s : Process χ κ) : Act χ κ → Process χ κ
  | .step t x =>
    match s.ops t with
    | [] => s
    | op :: rest => s.run mgr t x op rest
  | .call1 n k => s.setOps (.app n) [.call1 k]
  | .bind n k => s.setOps (.app n) [.call1 k, .bound k]
  | .cancel n k => s.setOps (.app n) [.cancel k]
  | .reg n => s.setOps (.app n) [.lock .procs, .unlock .procs]
  | .destroy n k =>
    match s.data.chan k with
    | some c =>
      { s.setOps (.app n) [.closeconn c, .dropOwn] with
        data := { (s.data.pass c (.chan k) (.thread (.app n))).setOwn (.app n) (some c) with
          chan := update s.data.chan k none } }
    | none => s

/-- What the thread is about to lock. -/
def wants (s : Process χ κ) (t : Thr) : Option (Mutex χ κ) := (s.ops t).head?.bind Op.wants

/-- The thread is about to write to the pipe. -/
def Writes (s : Process χ κ) (t : Thr) : Prop := (s.ops t).head? = some .pipeWrite

instance (s : Process χ κ) (t : Thr) : Decidable (s.Writes t) := inferInstanceAs (Decidable (_ = _))

/-- What may happen, with room for `cap` bytes in the pipe. -/
def guard (cap : Nat) (s : Process χ κ) (a : Act χ κ) : Prop :=
  s.data.aborted = false ∧
  match a with
  | .step t _ => s.ops t ≠ [] ∧ (∀ m ∈ s.wants t, s.locked m = none) ∧ (s.Writes t → s.pipe < cap)
  | .call1 n _ | .bind n _ | .cancel n _ | .reg n => s.ops (.app n) = []
  | .destroy n k => s.ops (.app n) = [] ∧ s.locked (.chan k) = none

def lts (mgr : χ → Option κ) (cap : Nat) : Lts (Process χ κ) (Act χ κ) where
  init s := s = init
  guard := guard cap
  next := next mgr

instance (cap : Nat) (s : Process χ κ) (a : Act χ κ) : Decidable (guard cap s a) := by
  unfold guard
  apply @Act.casesOn _ _ _ a <;> intros <;> infer_instance

instance (mgr : χ → Option κ) (cap : Nat) (s : Process χ κ) (a : Act χ κ) : Decidable ((lts mgr cap).guard s a) :=
  inferInstanceAs (Decidable (guard cap s a))

end Process
end StanDfs
