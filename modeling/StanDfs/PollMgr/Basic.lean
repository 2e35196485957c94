import Mathlib.Data.Finset.Basic
import StanDfs.Connection.Basic
import StanDfs.Lib.Lts

/-!
# The poll manager with all its descriptors

Any number of threads, the poll thread in a callback among them, call `add_callback` and `del_callback`;
any other threads call `block_remove_fd`. The poll loop takes a copy of the watched sets and then reads
`callbacks_` without a lock. A step is a critical section of `m_`, or one look at `callbacks_`.
-/

namespace StanDfs

/-- `poll_flag` -/
inductive PollFlag
  | none
  | rdonly
  | wronly
  | rdwr
  | mask
  deriving DecidableEq

/-- `SelectAIO` -/
structure SelectAIO where
  rfds : Finset Nat
  wfds : Finset Nat
  highfds : Nat
  deriving DecidableEq

namespace SelectAIO

def init (pipefd : Nat) : SelectAIO := ⟨{pipefd}, ∅, pipefd⟩

def watchFd (a : SelectAIO) (fd : Nat) (flag : PollFlag) : SelectAIO :=
  let a := { a with highfds := if a.highfds ≤ fd then fd else a.highfds }
  match flag with
  | .rdonly => { a with rfds := insert fd a.rfds }
  | .wronly => { a with wfds := insert fd a.wfds }
  | _ => { a with rfds := insert fd a.rfds, wfds := insert fd a.wfds }

/-- The descriptors of a flag are cleared; the `assert` fails on another flag. -/
def clear (a : SelectAIO) (fd : Nat) : PollFlag → Option SelectAIO
  | .rdonly => some { a with rfds := a.rfds.erase fd }
  | .wronly => some { a with wfds := a.wfds.erase fd }
  | .rdwr => some { a with rfds := a.rfds.erase fd, wfds := a.wfds.erase fd }
  | .none => none
  | .mask => none

def isUnwatched (a : SelectAIO) (fd : Nat) : Bool := fd ∉ a.rfds ∧ fd ∉ a.wfds

/-- `highfds_` once it is no longer watched. -/
def newHigh (pipefd : Nat) (a : SelectAIO) : Nat :=
  (List.range (a.highfds + 1)).foldl
    (fun newh i => if i ∈ a.rfds then i else if i ∈ a.wfds then i else newh) pipefd

def unwatchFd (pipefd : Nat) (a : SelectAIO) (fd : Nat) (flag : PollFlag) : Option (Bool × SelectAIO) :=
  (a.clear fd flag).map fun a =>
    let high := if a.isUnwatched fd ∧ fd = a.highfds then newHigh pipefd a else a.highfds
    (a.isUnwatched fd, { a with highfds := high })

/-- What `wait_ready` makes of the sets that `select` leaves: the readable and the writable ones. -/
def ready (pipefd high : Nat) (trfds twfds : Finset Nat) : List Nat × List Nat :=
  let fds := (List.range (high + 1)).filter fun fd => ¬ (fd = pipefd ∧ fd ∈ trfds)
  (fds.filter fun fd => fd ∈ trfds, fds.filter fun fd => fd ∈ twfds)

end SelectAIO

/-- Where a thread is in `block_remove_fd`. -/
inductive Removal
  | out
  /-- In the wait on `changedone_c_`. -/
  | waiting (fd : Nat) (woken : Bool)
  deriving DecidableEq

/-- Where the poll loop is; the lists are the descriptors that are still to be handled in the round. -/
inductive LoopPc
  | top
  | clearing
  | selecting (trfds twfds : Finset Nat) (high : Nat)
  | reading (rs ws : List Nat)
  /-- `callbacks_[fd]` was there; it is read again next. -/
  | toRead (fd : Nat) (rs ws : List Nat)
  | inRead (fd : Nat) (rs ws : List Nat)
  | writing (ws : List Nat)
  | toWrite (fd : Nat) (ws : List Nat)
  | inWrite (fd : Nat) (ws : List Nat)
  deriving DecidableEq

/-- A `PollMgr`, with callbacks in `κ`. `aborted` says that an `assert` failed or a null pointer was
called. -/
structure PollMgr (κ : Type*) where
  aio : SelectAIO
  callbacks : Nat → Option κ
  pendingChange : Bool
  removals : Tid → Removal
  loop : LoopPc
  aborted : Bool

namespace PollMgr

def maxPollFds : Nat := 128

inductive Act (κ : Type*)
  | addCallback (fd : Nat) (flag : PollFlag) (ch : κ)
  | delCallback (fd : Nat) (flag : PollFlag)
  /-- A thread calls `block_remove_fd` and waits. -/
  | blockRemove (t : Tid) (fd : Nat)
  /-- A woken thread has `m_` again, and returns from `block_remove_fd`. -/
  | removed (t : Tid)
  | checkPending
  | snapshot
  /-- `select` returns, with these of the descriptors it was given. -/
  | select (trfds twfds : Finset Nat)
  | interrupted
  | selectFailed
  | checkRead
  | callRead
  | readReturns
  | checkWrite
  | callWrite
  | writeReturns
  deriving DecidableEq

variable {κ : Type*}

def init (pipefd : Nat) : PollMgr κ := ⟨.init pipefd, fun _ => none, false, fun _ => .out, .top, false⟩

/-- A woken thread is to take `m_` again. -/
def wake : Removal → Removal
  | .waiting fd _ => .waiting fd true
  | .out => .out

def addCallback [DecidableEq κ] (s : PollMgr κ) (fd : Nat) (flag : PollFlag) (ch : κ) : PollMgr κ :=
  if fd < maxPollFds then
    let s := { s with aio := s.aio.watchFd fd flag }
    if s.callbacks fd = none ∨ s.callbacks fd = some ch then
      { s with callbacks := Function.update s.callbacks fd (some ch) }
    else { s with aborted := true }
  else { s with aborted := true }

def delCallback (pipefd : Nat) (s : PollMgr κ) (fd : Nat) (flag : PollFlag) : PollMgr κ :=
  match s.aio.unwatchFd pipefd fd flag with
  | some (unwatched, a) =>
    { s with aio := a, callbacks := if unwatched then Function.update s.callbacks fd none else s.callbacks }
  | none => { s with aborted := true }

/-- `block_remove_fd` up to the wait -/
def blockRemove (pipefd : Nat) (s : PollMgr κ) (t : Tid) (fd : Nat) : PollMgr κ :=
  match s.aio.unwatchFd pipefd fd .rdwr with
  | some (_, a) =>
    { s with aio := a, pendingChange := true,
             removals := Function.update s.removals t (.waiting fd false) }
  | none => { s with aborted := true }

/-- `block_remove_fd` from the wait on -/
def removed (s : PollMgr κ) (t : Tid) : PollMgr κ :=
  match s.removals t with
  | .waiting fd _ =>
    { s with callbacks := Function.update s.callbacks fd none, removals := Function.update s.removals t .out }
  | .out => s

def checkPending (s : PollMgr κ) : PollMgr κ :=
  let s := { s with loop := .clearing }
  if s.pendingChange then { s with pendingChange := false, removals := fun t => wake (s.removals t) } else s

/-- `wait_ready` from the return of `select` on -/
def select (pipefd : Nat) (s : PollMgr κ) (trfds twfds : Finset Nat) : PollMgr κ :=
  match s.loop with
  | .selecting _ _ high =>
    let (rs, ws) := SelectAIO.ready pipefd high trfds twfds
    { s with loop := if rs = [] ∧ ws = [] then .top else .reading rs ws }
  | _ => s

def checkRead (s : PollMgr κ) : PollMgr κ :=
  match s.loop with
  | .reading (fd :: rs) ws => { s with loop := if (s.callbacks fd).isSome then .toRead fd rs ws else .reading rs ws }
  | .reading [] ws => { s with loop := .writing ws }
  | _ => s

def callRead (s : PollMgr κ) : PollMgr κ :=
  match s.loop with
  | .toRead fd rs ws =>
    if (s.callbacks fd).isSome then { s with loop := .inRead fd rs ws } else { s with aborted := true }
  | _ => s

def readReturns (s : PollMgr κ) : PollMgr κ :=
  match s.loop with
  | .inRead _ rs ws => { s with loop := .reading rs ws }
  | _ => s

def checkWrite (s : PollMgr κ) : PollMgr κ :=
  match s.loop with
  | .writing (fd :: ws) => { s with loop := if (s.callbacks fd).isSome then .toWrite fd ws else .writing ws }
  | .writing [] => { s with loop := .top }
  | _ => s

def callWrite (s : PollMgr κ) : PollMgr κ :=
  match s.loop with
  | .toWrite fd ws =>
    if (s.callbacks fd).isSome then { s with loop := .inWrite fd ws } else { s with aborted := true }
  | _ => s

def writeReturns (s : PollMgr κ) : PollMgr κ :=
  match s.loop with
  | .inWrite _ ws => { s with loop := .writing ws }
  | _ => s

def next [DecidableEq κ] (pipefd : Nat) (s : PollMgr κ) : Act κ → PollMgr κ
  | .addCallback fd flag ch => s.addCallback fd flag ch
  | .delCallback fd flag => s.delCallback pipefd fd flag
  | .blockRemove t fd => s.blockRemove pipefd t fd
  | .removed t => s.removed t
  | .checkPending => s.checkPending
  | .snapshot => { s with loop := .selecting s.aio.rfds s.aio.wfds s.aio.highfds }
  | .select trfds twfds => s.select pipefd trfds twfds
  | .interrupted => { s with loop := .top }
  | .selectFailed => { s with aborted := true }
  | .checkRead => s.checkRead
  | .callRead => s.callRead
  | .readReturns => s.readReturns
  | .checkWrite => s.checkWrite
  | .callWrite => s.callWrite
  | .writeReturns => s.writeReturns

/-- A wait in `block_remove_fd` is ended by the broadcast only. -/
def guard (s : PollMgr κ) (a : Act κ) : Prop :=
  s.aborted = false ∧
  match a with
  | .addCallback _ _ _ => True
  | .delCallback _ _ => True
  | .blockRemove t _ => s.removals t = .out
  | .removed t => ∃ fd, s.removals t = .waiting fd true
  | .checkPending => s.loop = .top
  | .snapshot => s.loop = .clearing
  | .select trfds twfds => ∃ r w high, s.loop = .selecting r w high ∧ trfds ⊆ r ∧ twfds ⊆ w
  | .interrupted => ∃ r w high, s.loop = .selecting r w high
  | .selectFailed => ∃ r w high, s.loop = .selecting r w high
  | .checkRead => ∃ rs ws, s.loop = .reading rs ws
  | .callRead => ∃ fd rs ws, s.loop = .toRead fd rs ws
  | .readReturns => ∃ fd rs ws, s.loop = .inRead fd rs ws
  | .checkWrite => ∃ ws, s.loop = .writing ws
  | .callWrite => ∃ fd ws, s.loop = .toWrite fd ws
  | .writeReturns => ∃ fd ws, s.loop = .inWrite fd ws

/-- The runs of the poll manager with a wakeup pipe, over every interleaving of its threads. -/
def lts [DecidableEq κ] (pipefd : Nat) : Lts (PollMgr κ) (Act κ) where
  init s := s = init pipefd
  guard := guard
  next := next pipefd

end PollMgr
end StanDfs
