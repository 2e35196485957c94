import StanDfs.Rpc.Lemmas.Traffic

/-!
# A cancel among the calls of a client

`cancel` has `m_` while it goes through `calls_`, and takes the mutex of each caller in turn. Then it
waits on `destroy_wait_c_` until the calls are gone. Meanwhile the callers take their own mutexes, and `m_`
when `cancel` has it not.
-/

namespace StanDfs

/-- Where the thread is that calls `cancel`. -/
inductive CancelPc
  | out
  /-- It has `m_`, and these callers are still to be made to fail. -/
  | marking (l : List Tid)
  /-- In the wait on `destroy_wait_c_`. -/
  | waiting (woken : Bool)
  | returned
  deriving DecidableEq

def CancelPc.holds : CancelPc → Bool
  | .marking _ => true
  | _ => false

/-- A client and the thread that cancels its calls. -/
structure Cancelling (χ : Type*) where
  rpcc : Rpcc χ
  pc : CancelPc

namespace Rpcc

variable {χ : Type*}

/-- What `call1` returns at once, if it does not register the call. -/
def refusal (s : Rpcc χ) (proc : UInt32) : Option Int32 :=
  if (proc ≠ RpcConst.bind ∧ s.bindDone = false) ∨ (proc = RpcConst.bind ∧ s.bindDone = true) then
    some RpcConst.bindFailure
  else if s.destroyWait then some RpcConst.cancelFailure
  else none

/-- The step is a critical section of `m_`. -/
def Act.locks : Act χ → Bool
  | .call1 _ _ _ => true
  | .leave _ _ => true
  | .bound _ _ => true
  | .gotPdu _ _ => true
  | _ => false

/-- The thread that takes the step in `call1`. -/
def Act.caller : Act χ → Option Tid
  | .getRefconn t _ _ => some t
  | .tx t _ _ _ => some t
  | .giveup t _ => some t
  | .woken t _ => some t
  | .timedout t _ => some t
  | .isdead t _ => some t
  | .leave t _ => some t
  | .ret t _ _ => some t
  | _ => none

end Rpcc

namespace Cancelling

variable {χ : Type*}

inductive Act (χ : Type*)
  | client (a : Rpcc.Act χ)
  /-- `cancel` takes `m_`. -/
  | cancel
  /-- The next caller is made to fail. -/
  | mark
  /-- `cancel` looks at the size of `calls_`, at first or when it has been woken. -/
  | check
  /-- The wait ends for no reason. -/
  | spurious
  deriving DecidableEq

def init : Cancelling χ := ⟨Rpcc.init, .out⟩

/-- `pthread_cond_signal(&destroy_wait_c_)` -/
def wake : CancelPc → CancelPc
  | .waiting _ => .waiting true
  | p => p

def mark (s : Cancelling χ) : Cancelling χ :=
  match s.pc with
  | .marking (t :: l) =>
    { s with
      rpcc := { s.rpcc with
        callers := Function.update s.rpcc.callers t
          { s.rpcc.callers t with done := true, intret := RpcConst.cancelFailure } }
      pc := .marking l }
  | _ => s

def check (s : Cancelling χ) : Cancelling χ :=
  if s.rpcc.calls.entries.length > 0 then
    { s with rpcc := { s.rpcc with destroyWait := true }, pc := .waiting false }
  else { s with pc := .returned }

/-- The signal that a leaving caller gives. -/
def signal (s : Cancelling χ) : Rpcc.Act χ → Cancelling χ
  | .leave _ _ => if s.rpcc.destroyWait then { s with pc := wake s.pc } else s
  | _ => s

def next [DecidableEq χ] (e : Rpcc.Env) (s : Cancelling χ) : Act χ → Cancelling χ
  | .client a => { s with rpcc := s.rpcc.next e a }.signal a
  | .cancel => { s with pc := .marking (s.rpcc.calls.entries.map Sigma.snd) }
  | .mark => s.mark
  | .check => s.check
  | .spurious => { s with pc := .waiting true }

/-- What a client does apart from `cancel`. -/
def clientGuard [DecidableEq χ] (s : Rpcc χ) : Rpcc.Act χ → Prop
  | .cancel => False
  | a => Rpcc.guard s a

/-- `cancel` is called once. -/
def guard [DecidableEq χ] (s : Cancelling χ) : Act χ → Prop
  | .client a => clientGuard s.rpcc a ∧ (a.locks = true → s.pc.holds = false)
  | .cancel => s.pc = .out
  | .mark => ∃ t l, s.pc = .marking (t :: l)
  | .check => s.pc = .marking [] ∨ s.pc = .waiting true
  | .spurious => ∃ w, s.pc = .waiting w

/-- The runs of a client with one `cancel`, over every interleaving. -/
def lts [DecidableEq χ] (e : Rpcc.Env) : Lts (Cancelling χ) (Act χ) where
  init s := s = init
  guard := guard
  next := next e

end Cancelling
end StanDfs
