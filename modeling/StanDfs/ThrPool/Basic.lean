import StanDfs.Lib.Lts

/-!
# The thread pool

Workers take jobs from a bounded queue. Other threads call `addJob`, and at last one calls the destructor,
which enqueues a poison pill for each worker and joins them all. A step is what a thread does with the
queue's mutex from the moment it has it: up to the return, or up to `pthread_cond_wait`.
-/

namespace StanDfs

/-- A `job_t` that the queue holds: a pill is one without a function. -/
abbrev JobT (J : Type*) := Option J

/-- Where a worker is. -/
inductive WorkerPc (J : Type*)
  /-- About to call `takeJob`. -/
  | ready
  /-- In the wait on `non_empty_c_`. -/
  | blocked (woken : Bool)
  | running (j : J)
  | stopped
  deriving DecidableEq

/-- Where a thread is in `addJob`. -/
inductive AdderPc (J : Type*)
  | out
  /-- In the wait on `has_space_c_`. -/
  | blocked (j : J) (woken : Bool)
  deriving DecidableEq

/-- Where the destructor is. -/
inductive DtorPc
  | out
  /-- `i` pills are in the queue, and there are more to come; `wait` is the wait on `has_space_c_`. -/
  | enqueuing (i : Nat) (wait : Option Bool)
  /-- `i` workers are joined, and there are more. -/
  | joining (i : Nat)
  | done
  deriving DecidableEq

/-- A thread in the wait on `has_space_c_`. -/
inductive SpaceWaiter
  | adder (t : Nat)
  | dtor
  deriving DecidableEq

/-- A `ThrPool`. The last fields are history: the jobs that `addJob` accepted, those that have been run, and
the pills that each worker took. -/
structure ThrPool (J : Type*) where
  q : List (JobT J)
  workers : Nat → WorkerPc J
  adders : Nat → AdderPc J
  dtor : DtorPc
  accepted : List J
  ran : List J
  pills : Nat → Nat

/-- What a pool is made with. -/
structure ThrPool.Env where
  sz : Nat
  blocking : Bool

namespace ThrPool

/-- `max_` of the queue -/
def Env.max (e : Env) : Nat := 100 * e.sz

variable {J : Type*}

inductive Act (J : Type*)
  /-- `addJob`; `signals` is the worker that the signal on `non_empty_c_` wakes. -/
  | addJob (t : Nat) (j : J) (signals : Option Nat)
  /-- A woken thread goes on in `addJob`. -/
  | resume (t : Nat) (j : J) (signals : Option Nat)
  | destroy
  /-- The destructor enqueues a pill. -/
  | enqPill (signals : Option Nat)
  /-- `takeJob`; `signals` is the thread that the signal on `has_space_c_` wakes. -/
  | takeJob (w : Nat) (signals : Option SpaceWaiter)
  /-- The job's function returns. -/
  | finish (w : Nat)
  | join
  /-- A wait ends for no reason. -/
  | spurious (w : Nat)
  | spuriousSpace (x : SpaceWaiter)
  deriving DecidableEq

def init : ThrPool J := ⟨[], fun _ => .ready, fun _ => .out, .out, [], [], fun _ => 0⟩

def setWorker (s : ThrPool J) (w : Nat) (p : WorkerPc J) : ThrPool J :=
  { s with workers := Function.update s.workers w p }

def setAdder (s : ThrPool J) (t : Nat) (p : AdderPc J) : ThrPool J :=
  { s with adders := Function.update s.adders t p }

/-- The signal on `non_empty_c_` -/
def signalNonEmpty (s : ThrPool J) : Option Nat → ThrPool J
  | some w => s.setWorker w (.blocked true)
  | none => s

def wakeSpace (s : ThrPool J) : SpaceWaiter → ThrPool J
  | .adder t =>
    match s.adders t with
    | .blocked j _ => s.setAdder t (.blocked j true)
    | .out => s
  | .dtor =>
    match s.dtor with
    | .enqueuing i (some _) => { s with dtor := .enqueuing i (some true) }
    | _ => s

/-- The signal on `has_space_c_` -/
def signalHasSpace (s : ThrPool J) : Option SpaceWaiter → ThrPool J
  | some x => s.wakeSpace x
  | none => s

/-- The queue takes one more. -/
def hasSpace (e : Env) (s : ThrPool J) : Bool := e.max = 0 || s.q.length < e.max

/-- `addJob` with the mutex -/
def tryAdd (e : Env) (s : ThrPool J) (t : Nat) (j : J) (signals : Option Nat) : ThrPool J :=
  if s.hasSpace e then
    { s.setAdder t .out with q := s.q ++ [some j], accepted := s.accepted ++ [j] }.signalNonEmpty signals
  else if e.blocking then s.setAdder t (.blocked j false)
  else s.setAdder t .out

/-- After pill `i`, or at once if there is none to enqueue. -/
def afterPill (e : Env) (i : Nat) : DtorPc := if i < e.sz then .enqueuing i none else .joining 0

def afterJoin (e : Env) (i : Nat) : DtorPc := if i < e.sz then .joining i else .done

/-- `enq` of a pill, which blocks if the queue is full -/
def tryPill (e : Env) (s : ThrPool J) (i : Nat) (signals : Option Nat) : ThrPool J :=
  if s.hasSpace e then { s with q := s.q ++ [none], dtor := afterPill e (i + 1) }.signalNonEmpty signals
  else { s with dtor := .enqueuing i (some false) }

/-- `takeJob` with the mutex -/
def tryTake (e : Env) (s : ThrPool J) (w : Nat) (signals : Option SpaceWaiter) : ThrPool J :=
  match s.q with
  | [] => s.setWorker w (.blocked false)
  | j :: q =>
    let s := { s with q := q }
    let s := if e.max ≠ 0 ∧ q.length < e.max then s.signalHasSpace signals else s
    match j with
    | some j => s.setWorker w (.running j)
    | none => { s.setWorker w .stopped with pills := Function.update s.pills w (s.pills w + 1) }

def next (e : Env) (s : ThrPool J) : Act J → ThrPool J
  | .addJob t j signals => s.tryAdd e t j signals
  | .resume t j signals => s.tryAdd e t j signals
  | .destroy => { s with dtor := if 0 < e.sz then .enqueuing 0 none else .done }
  | .enqPill signals =>
    match s.dtor with
    | .enqueuing i _ => s.tryPill e i signals
    | _ => s
  | .takeJob w signals => s.tryTake e w signals
  | .finish w =>
    match s.workers w with
    | .running j => { s.setWorker w .ready with ran := s.ran ++ [j] }
    | _ => s
  | .join =>
    match s.dtor with
    | .joining i => { s with dtor := afterJoin e (i + 1) }
    | _ => s
  | .spurious w => s.setWorker w (.blocked true)
  | .spuriousSpace x => s.wakeSpace x

/-- The worker is blocked and has not been woken. -/
def Sleeps (e : Env) (s : ThrPool J) (w : Nat) : Prop := w < e.sz ∧ s.workers w = .blocked false

def SpaceWaits (s : ThrPool J) : SpaceWaiter → Prop
  | .adder t => ∃ j, s.adders t = .blocked j false
  | .dtor => ∃ i, s.dtor = .enqueuing i (some false)

/-- A signal on `non_empty_c_` wakes one blocked worker, if there is one. -/
def WakesWorker (e : Env) (s : ThrPool J) : Option Nat → Prop
  | some w => s.Sleeps e w
  | none => ∀ w, ¬ s.Sleeps e w

/-- A signal on `has_space_c_` wakes one blocked thread, if there is one. -/
def WakesSpace (s : ThrPool J) : Option SpaceWaiter → Prop
  | some x => s.SpaceWaits x
  | none => ∀ x, ¬ s.SpaceWaits x

/-- No thread calls `addJob` once the destructor has started, and none is in it then. -/
def guard (e : Env) (s : ThrPool J) : Act J → Prop
  | .addJob t _ signals => s.dtor = .out ∧ s.adders t = .out ∧ s.WakesWorker e signals
  | .resume t j signals => s.adders t = .blocked j true ∧ s.WakesWorker e signals
  | .destroy => s.dtor = .out ∧ ∀ t, s.adders t = .out
  | .enqPill signals =>
    (∃ i, s.dtor = .enqueuing i none ∨ s.dtor = .enqueuing i (some true)) ∧ s.WakesWorker e signals
  | .takeJob w signals =>
    w < e.sz ∧ (s.workers w = .ready ∨ s.workers w = .blocked true) ∧ s.WakesSpace signals
  | .finish w => w < e.sz ∧ ∃ j, s.workers w = .running j
  | .join => ∃ i, s.dtor = .joining i ∧ s.workers i = .stopped
  | .spurious w => s.Sleeps e w
  | .spuriousSpace x => s.SpaceWaits x

/-- The runs of a pool, over every interleaving of its threads. -/
def lts (e : Env) : Lts (ThrPool J) (Act J) where
  init s := s = init
  guard := guard e
  next := next e

end ThrPool
end StanDfs
