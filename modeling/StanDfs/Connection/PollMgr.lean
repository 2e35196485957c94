import StanDfs.Connection.Sender

/-!
# A connection and the poll manager

The poll loop serves one descriptor among others: it looks at `pending_change_`, takes a copy of the
watched sets, calls `select`, and then goes through the readable and the writable descriptors, looking
up `callbacks_[fd]` without a lock. Meanwhile any number of threads send and close. A step is a
critical section of the connection's `m_` or of the poll manager's.
-/

namespace StanDfs

/-- Where a thread is on its way through `block_remove_fd`. -/
inductive RemovePc
  | out
  /-- `dead_` is set and `m_` released; `block_remove_fd` is called next. -/
  | entering
  /-- In the wait on `changedone_c_`. -/
  | blocked (woken : Bool)
  deriving DecidableEq

/-- Where the poll loop is. The flags say whether the descriptor is still to be handled as readable
and as writable in the round. -/
inductive PollPc
  | top
  | clearing
  | selecting (r w : Bool)
  | reading (r w : Bool)
  /-- `callbacks_[fd]` was there; `read_cb` is called next. -/
  | inRead (w : Bool)
  | writing (w : Bool)
  /-- `callbacks_[fd]` was there; `write_cb` is called next. -/
  | inWrite
  deriving DecidableEq

/-- The round may still come to `write_cb`. -/
def PollPc.toWrite : PollPc → Bool
  | .top | .clearing => false
  | .selecting _ w | .reading _ w | .inRead w | .writing w => w
  | .inWrite => true

/-- The round may still come to `read_cb`. -/
def PollPc.toRead : PollPc → Bool
  | .selecting r _ | .reading r _ => r
  | .inRead _ => true
  | _ => false

/-- A connection and what the poll manager has on it: the bits of `rfds_` and `wfds_`, and whether
`callbacks_[fd]` is set. -/
structure Polled where
  conn : Sender
  rfd : Bool
  wfd : Bool
  callback : Bool
  pendingChange : Bool
  removals : Tid → RemovePc
  poll : PollPc

namespace Polled

inductive Act
  | send (t : Tid) (b : Pdu) (r : WriteResult)
  | resume (t : Tid) (r : WriteResult)
  | complete (t : Tid)
  | removed (t : Tid)
  | closeconn (t : Tid)
  /-- A thread enters `block_remove_fd` and waits. -/
  | blockRemove (t : Tid)
  /-- A thread woken in `block_remove_fd` leaves it. -/
  | unblock (t : Tid)
  /-- Another connection's descriptor is removed. -/
  | removeOther
  | checkPending
  | snapshot
  /-- `select` returns; the flags say whether it found the descriptor readable and writable. -/
  | select (r w : Bool)
  | checkRead
  /-- `succ` is what `readpdu` gives, where it comes to that. -/
  | readCb (succ : Bool)
  | checkWrite
  | writeCb (r : WriteResult)
  /-- A wait in `send`, and one in `block_remove_fd`, ends for no reason. -/
  | spurious (t : Tid)
  | spuriousRemove (t : Tid)
  deriving DecidableEq

def setRemoval (s : Polled) (t : Tid) (p : RemovePc) : Polled :=
  { s with removals := Function.update s.removals t p }

/-- `add_callback(fd_, CB_WRONLY, this)` -/
def addWrite (s : Polled) : Polled := { s with wfd := true, callback := true }

/-- `del_callback(fd_, CB_WRONLY)` -/
def delWrite (s : Polled) : Polled := { s with wfd := false, callback := s.callback && s.rfd }

/-- `del_callback(fd_, CB_RDWR)` -/
def delReadWrite (s : Polled) : Polled := { s with rfd := false, wfd := false, callback := false }

/-- `pthread_cond_broadcast(&changedone_c_)` -/
def broadcastChange (s : Polled) : Polled :=
  { s with removals := fun t =>
      match s.removals t with
      | .blocked _ => .blocked true
      | p => p }

/-- The connection `c` after a critical section of `send` in thread `t`: a buffer written only in part
has asked for `CB_WRONLY`, and a failed `writepdu` goes on to `block_remove_fd`. -/
def sent (s : Polled) (t : Tid) (c : Sender) : Polled :=
  match c.threads t with
  | .completing _ _ => { s with conn := c }.addWrite
  | .removing _ => { s with conn := c }.setRemoval t .entering
  | _ => { s with conn := c }

def next (s : Polled) : Act → Polled
  | .send t b r => s.sent t (s.conn.next (.send t b r))
  | .resume t r => s.sent t (s.conn.next (.resume t r))
  | .complete t => { s with conn := s.conn.next (.complete t) }
  | .removed t => { s with conn := s.conn.next (.removed t) }
  | .closeconn t =>
    if s.conn.dead then s
    else { s with conn := s.conn.next .closeconn }.setRemoval t .entering
  | .blockRemove t =>
    { s with rfd := false, wfd := false, pendingChange := true }.setRemoval t (.blocked false)
  | .unblock t => { s with callback := false }.setRemoval t .out
  | .removeOther => { s with pendingChange := true }
  | .checkPending =>
    let s := { s with poll := .clearing }
    if s.pendingChange then { s with pendingChange := false }.broadcastChange else s
  | .snapshot => { s with poll := .selecting s.rfd s.wfd }
  | .select r w => { s with poll := .reading r w }
  | .checkRead =>
    match s.poll with
    | .reading r w => { s with poll := if r && s.callback then .inRead w else .writing w }
    | _ => s
  | .readCb succ =>
    match s.poll with
    | .inRead w =>
      let s := { s with poll := .writing w }
      if s.conn.dead || succ then s
      else { s with conn := s.conn.next .readFailed }.delReadWrite
    | _ => s
  | .checkWrite =>
    match s.poll with
    | .writing w => { s with poll := if w && s.callback then .inWrite else .top }
    | _ => s
  | .writeCb r =>
    let c := s.conn.next (.writeCb r)
    let s' := { s with conn := c, poll := .top }
    if s.conn.dead then s'
    else if s.conn.wpdu.sz = 0 then s'.delWrite
    else if c.dead then s'.delReadWrite
    else s'
  | .spurious t => { s with conn := s.conn.next (.spurious t) }
  | .spuriousRemove t => s.setRemoval t (.blocked true)

def guard (s : Polled) (a : Act) : Prop :=
  s.conn.aborted = false ∧
  match a with
  | .send t b r => s.conn.guard (.send t b r) ∧ s.removals t = .out
  | .resume t r => s.conn.guard (.resume t r)
  | .complete t => s.conn.guard (.complete t)
  | .removed t => s.conn.guard (.removed t) ∧ s.removals t = .out
  | .closeconn t => s.conn.threads t = .idle ∧ s.removals t = .out
  | .blockRemove t => s.removals t = .entering
  | .unblock t => s.removals t = .blocked true
  | .removeOther => True
  | .checkPending => s.poll = .top
  | .snapshot => s.poll = .clearing
  | .select r w => ∃ r' w', s.poll = .selecting r' w' ∧ (r → r') ∧ (w → w')
  | .checkRead => ∃ r w, s.poll = .reading r w
  | .readCb succ => (∃ w, s.poll = .inRead w) ∧ (s.conn.dead → succ)
  | .checkWrite => ∃ w, s.poll = .writing w
  | .writeCb _ => s.poll = .inWrite
  | .spurious _ => True
  | .spuriousRemove t => ∃ w, s.removals t = .blocked w

instance (s : Polled) (a : Act) : Decidable (guard s a) := by
  unfold guard
  cases a <;> infer_instance

/-- A new connection: its descriptor is watched for reading, and is not part of the round the poll
loop is in. -/
structure Init (s : Polled) : Prop where
  conn : s.conn = .init
  rfd : s.rfd = true
  wfd : s.wfd = false
  callback : s.callback = true
  removals : ∀ t, s.removals t = .out
  toRead : s.poll.toRead = false
  toWrite : s.poll.toWrite = false

/-- The runs of a connection under the poll manager. -/
def lts : Lts Polled Act where
  init := Init
  guard := guard
  next := next

instance (s : Polled) (a : Act) : Decidable (lts.guard s a) := inferInstanceAs (Decidable (s.guard a))

/-- A new connection, with the poll loop between two rounds. -/
def fresh : Polled := ⟨.init, true, false, true, false, fun _ => .out, .top⟩

theorem init_fresh : lts.init fresh := ⟨rfl, rfl, rfl, rfl, fun _ => rfl, rfl, rfl⟩

/-- A buffer with a header and nothing else. -/
def header : Pdu := ⟨List.replicate 24 0, by decide⟩

/-! ## The sending end in it -/

/-- What the sending end sees of an action. -/
def sending : Act → Option Sender.Act
  | .send t b r => some (.send t b r)
  | .resume t r => some (.resume t r)
  | .complete t => some (.complete t)
  | .removed t => some (.removed t)
  | .closeconn _ => some .closeconn
  | .readCb false => some .readFailed
  | .writeCb r => some (.writeCb r)
  | .spurious t => some (.spurious t)
  | _ => none

@[simp] theorem conn_sent (s : Polled) (t : Tid) (c : Sender) : (s.sent t c).conn = c := by
  simp only [sent]
  split <;> rfl

theorem conn_closeconn (s : Polled) (t : Tid) :
    (s.next (.closeconn t)).conn = s.conn.next .closeconn := by
  simp only [next]
  split
  · rename_i hd
    simp only [Sender.next, ← hd]
  · rfl

theorem conn_writeCb (s : Polled) (r : WriteResult) :
    (s.next (.writeCb r)).conn = s.conn.next (.writeCb r) := by
  simp only [next]
  repeat' split
  all_goals rfl

/-- The sending end moves by its own rules. -/
theorem sender_component : Lts.Component lts Sender.lts Polled.conn sending where
  init s h := h.conn
  moves s a b hg hp := by
    obtain ⟨hab, hg⟩ := hg
    cases a with
    | send t b r =>
        cases hp
        exact ⟨hg.1, conn_sent _ _ _⟩
    | resume t r =>
        cases hp
        exact ⟨hg, conn_sent _ _ _⟩
    | complete t =>
        cases hp
        exact ⟨hg, rfl⟩
    | removed t =>
        cases hp
        exact ⟨hg.1, rfl⟩
    | closeconn t =>
        cases hp
        exact ⟨⟨hab, trivial⟩, conn_closeconn s t⟩
    | readCb succ =>
        cases succ with
        | true => cases hp
        | false =>
            cases hp
            obtain ⟨⟨w, hw⟩, hdead⟩ := hg
            have hd : s.conn.dead = false := by
              cases h : s.conn.dead with
              | false => rfl
              | true => exact absurd (hdead h) (by simp)
            refine ⟨⟨hab, hd⟩, ?_⟩
            simp only [lts, next, hw, hd, Bool.or_self, Bool.false_eq_true, ↓reduceIte]
            rfl
    | writeCb r =>
        cases hp
        exact ⟨⟨hab, trivial⟩, conn_writeCb s r⟩
    | spurious t =>
        cases hp
        exact ⟨⟨hab, trivial⟩, rfl⟩
    | blockRemove | unblock | removeOther | checkPending | snapshot | select | checkRead | checkWrite
      | spuriousRemove => cases hp
  stays s a hg hp := by
    cases a with
    | send | resume | complete | removed | closeconn | writeCb | spurious => cases hp
    | readCb succ =>
        cases succ with
        | false => cases hp
        | true =>
            simp only [lts, next, Bool.or_true, ↓reduceIte]
            split <;> rfl
    | checkPending =>
        simp only [lts, next]
        split <;> rfl
    | checkRead | checkWrite =>
        simp only [lts, next]
        split <;> rfl
    | blockRemove | unblock | removeOther | snapshot | select | spuriousRemove => rfl

end Polled
end StanDfs
