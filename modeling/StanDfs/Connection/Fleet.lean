import StanDfs.Connection.Sender
import StanDfs.PollMgr.Basic

/-!
# All connections of a process

The poll manager with every connection that the process makes, closes and deletes, and the descriptors that
the kernel gives to one connection after the other. A step is a critical section of a connection's `m_` or
of the poll manager's, with what is called inside it.
-/

namespace StanDfs

/-- `removing` has the connection that a thread is to take from the poll manager, or is in `block_remove_fd`
for; `current` the object whose callback the poll loop has called; and `round` what `callbacks_` was when the
loop took its copy of the watched sets. -/
structure Fleet (χ : Type*) where
  mgr : PollMgr χ
  conns : χ → Sender
  fd : χ → Nat
  known : List χ
  deleted : List χ
  removing : Tid → Option χ
  current : Option χ
  round : Nat → Option χ

namespace Fleet

variable {χ : Type*}

inductive Act (χ : Type*)
  /-- The constructor, on a socket that the kernel has just made. -/
  | opens (c : χ) (fd : Nat)
  /-- A thread calls `send`, or goes on with it. -/
  | send (c : χ) (a : Sender.Act)
  | closeconn (t : Tid) (c : χ)
  | blockRemove (t : Tid)
  /-- A thread returns from `block_remove_fd`. -/
  | removed (t : Tid)
  | poll (a : PollMgr.Act χ)
  /-- `succ` is what `readpdu` gives, where it comes to that. -/
  | readCb (succ : Bool)
  | writeCb (r : WriteResult)
  /-- `decref` deletes the connection. -/
  | delete (c : χ)
  deriving DecidableEq

def init (pipefd : Nat) : Fleet χ :=
  ⟨.init pipefd, fun _ => .init, fun _ => 0, [], [], fun _ => none, none, fun _ => none⟩

/-- The object exists. -/
def Open (s : Fleet χ) (c : χ) : Prop := c ∈ s.known ∧ c ∉ s.deleted

/-- The steps of a thread in `send`. -/
def sends : Sender.Act → Bool
  | .send _ _ _ | .resume _ _ | .complete _ | .removed _ | .spurious _ => true
  | .writeCb _ | .closeconn | .readFailed => false

/-- The steps of the poll loop between callbacks. -/
def loops : PollMgr.Act χ → Bool
  | .checkPending | .snapshot | .select _ _ | .interrupted | .selectFailed | .checkRead | .callRead
  | .checkWrite | .callWrite => true
  | .addCallback _ _ _ | .delCallback _ _ | .blockRemove _ _ | .removed _ | .readReturns | .writeReturns => false

variable [DecidableEq χ]

def setConn (s : Fleet χ) (c : χ) (n : Sender) : Fleet χ := { s with conns := Function.update s.conns c n }

def setRemoving (s : Fleet χ) (t : Tid) (o : Option χ) : Fleet χ :=
  { s with removing := Function.update s.removing t o }

/-- The connection after a critical section of `send`: a buffer written only in part has asked for
`CB_WRONLY`, and a failed `writepdu` goes on to `block_remove_fd`. -/
def sent (pipefd : Nat) (s : Fleet χ) (c : χ) (t : Tid) (n : Sender) : Fleet χ :=
  match n.threads t with
  | .completing _ _ =>
    { s.setConn c n with mgr := s.mgr.next pipefd (.addCallback (s.fd c) .wronly c) }
  | .removing _ => (s.setConn c n).setRemoving t (some c)
  | _ => s.setConn c n

/-- `callbacks_[fd]` as the poll loop reads it to call it. -/
def called (m : PollMgr χ) : PollMgr.Act χ → Option χ
  | .callRead =>
    match m.loop with
    | .toRead fd _ _ => m.callbacks fd
    | _ => none
  | .callWrite =>
    match m.loop with
    | .toWrite fd _ => m.callbacks fd
    | _ => none
  | _ => none

/-- `read_cb` of the object -/
def readCb (pipefd : Nat) (s : Fleet χ) (c : χ) (succ : Bool) : Fleet χ :=
  if (s.conns c).dead || succ then s
  else
    { s.setConn c ((s.conns c).next .readFailed) with
      mgr := s.mgr.next pipefd (.delCallback (s.fd c) .rdwr) }

/-- `write_cb` of the object -/
def writeCb (pipefd : Nat) (s : Fleet χ) (c : χ) (r : WriteResult) : Fleet χ :=
  let n := (s.conns c).next (.writeCb r)
  let s' := s.setConn c n
  if (s.conns c).dead then s'
  else if (s.conns c).wpdu.sz = 0 then { s' with mgr := s.mgr.next pipefd (.delCallback (s.fd c) .wronly) }
  else if n.dead then { s' with mgr := s.mgr.next pipefd (.delCallback (s.fd c) .rdwr) }
  else s'

def next (pipefd : Nat) (s : Fleet χ) : Act χ → Fleet χ
  | .opens c fd =>
    { s.setConn c .init with
      mgr := s.mgr.next pipefd (.addCallback fd .rdonly c)
      fd := Function.update s.fd c fd
      known := c :: s.known }
  | .send c a =>
    let n := (s.conns c).next a
    match a with
    | .send t _ _ | .resume t _ => s.sent pipefd c t n
    | _ => s.setConn c n
  | .closeconn t c =>
    if (s.conns c).dead then s else (s.setConn c ((s.conns c).next .closeconn)).setRemoving t (some c)
  | .blockRemove t =>
    match s.removing t with
    | some c => { s with mgr := s.mgr.next pipefd (.blockRemove t (s.fd c)) }
    | none => s
  | .removed t => { s with mgr := s.mgr.next pipefd (.removed t) }.setRemoving t none
  | .poll a =>
    { s with
      mgr := s.mgr.next pipefd a
      current := called s.mgr a
      round := if a = .snapshot then s.mgr.callbacks else s.round }
  | .readCb succ =>
    match s.current with
    | some c =>
      let s := s.readCb pipefd c succ
      { s with mgr := s.mgr.next pipefd .readReturns, current := none }
    | none => s
  | .writeCb r =>
    match s.current with
    | some c =>
      let s := s.writeCb pipefd c r
      { s with mgr := s.mgr.next pipefd .writeReturns, current := none }
    | none => s
  | .delete c => { s with deleted := c :: s.deleted }

/-- A thread in `block_remove_fd`, or on its way there, does nothing else. Whoever uses a connection has a
reference to it, so it is deleted when nobody does. The kernel gives no descriptor twice. -/
def guard (pipefd : Nat) (s : Fleet χ) (a : Act χ) : Prop :=
  (s.mgr.aborted = false ∧ ∀ c ∈ s.known, (s.conns c).aborted = false) ∧
  match a with
  | .opens c fd => c ∉ s.known ∧ fd ≠ pipefd ∧ ∀ c' ∈ s.known, c' ∉ s.deleted → s.fd c' ≠ fd
  | .send c a => s.Open c ∧ sends a = true ∧ (s.conns c).guard a ∧
    match a with
    | .send t _ _ | .resume t _ | .removed t => s.removing t = none
    | _ => True
  | .closeconn t c => s.Open c ∧ (s.conns c).threads t = .idle ∧ s.removing t = none
  | .blockRemove t => (∃ c, s.removing t = some c) ∧ s.mgr.guard (.blockRemove t 0)
  | .removed t => s.mgr.guard (.removed t)
  | .poll a => loops a = true ∧ s.mgr.guard a
  | .readCb _ => s.mgr.guard .readReturns
  | .writeCb _ => s.mgr.guard .writeReturns
  | .delete c => s.Open c ∧ (s.conns c).dead = true ∧ (∀ t, (s.conns c).threads t = .idle) ∧
    ∀ t, s.removing t ≠ some c

/-- The runs of a process with its connections, over every interleaving of its threads. -/
def lts (pipefd : Nat) : Lts (Fleet χ) (Act χ) where
  init s := s = init pipefd
  guard := guard pipefd
  next := next pipefd

end Fleet
end StanDfs
