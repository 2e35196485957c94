import StanDfs.Lock.Server
import StanDfs.Rpc.Net

/-!
# Lock clients and a lock server

Any number of `lock_client`s, with any number of threads each, share one server. A thread releases a lock
only while it holds it from an `acquire` of its own, and no call of `acquire` or `release` fails, as
`lock_client` asserts.
-/

namespace StanDfs

inductive LockOp
  | acquire
  | release
  deriving DecidableEq

def LockOp.proc : LockOp → UInt32
  | .acquire => LockProtocol.acquire
  | .release => LockProtocol.release

/-- The operation that a procedure is registered for. -/
def lockOp (proc : Int32) : Option LockOp :=
  if proc = LockProtocol.acquire.toInt32 then some .acquire
  else if proc = LockProtocol.release.toInt32 then some .release
  else none

/-- What a request asks of the lock server: the operation, the client and the lock. -/
def lockCall (q : Request) : Option (LockOp × Int32 × UInt64) :=
  match lockOp q.hdr.proc, lockArgsOf q.args with
  | some op, some (clt, lid) => some (op, clt, lid)
  | _, _ => none

/-- Where a worker is in a handler of the lock server. -/
inductive Stage
  | entered
  | waiting
  | finished
  deriving DecidableEq

/-- `held` has the threads between the return of `acquire` and the call of `release`; `served` is history:
the calls whose operation is done. -/
structure LockNet (κ : Type*) where
  net : RpcNet κ Unit
  locks : LockMap
  stages : Worker → Stage
  held : List (κ × Tid × UInt64)
  served : List (UInt32 × UInt32)

namespace LockNet

variable {κ : Type*}

inductive Act (κ : Type*)
  /-- `lock_client::acquire` or `lock_client::release` is called. -/
  | call (k : κ) (t : Tid) (op : LockOp) (lid : UInt64)
  /-- What a handler does with the mutex. -/
  | serve (w : Worker) (j : Job (Conn κ Unit))
  | net (a : RpcNet.Act κ Unit)
  deriving DecidableEq

def init : LockNet κ := ⟨RpcNet.init, ∅, fun _ => .entered, [], []⟩

def finish (s : LockNet κ) (w : Worker) (j : Job (Conn κ Unit)) (m : LockMap) : LockNet κ :=
  { s with
    locks := m
    stages := Function.update s.stages w .finished
    served := s.served ++ [j.key] }

def serve (s : LockNet κ) (w : Worker) (j : Job (Conn κ Unit)) : LockNet κ :=
  match lockCall j.req with
  | some (.acquire, clt, lid) =>
    match LockServer.acquire s.locks clt lid with
    | some m => s.finish w j m
    | none => { s with stages := Function.update s.stages w .waiting }
  | some (.release, clt, lid) => s.finish w j (LockServer.release s.locks clt lid)
  | none => s

theorem net_serve (s : LockNet κ) (w : Worker) (j : Job (Conn κ Unit)) : (s.serve w j).net = s.net := by
  unfold serve
  split
  · split <;> rfl
  · rfl
  · rfl

/-- The call is one of the RPC layer. -/
def rpc (g : Config κ Unit) (k : κ) (t : Tid) (op : LockOp) (lid : UInt64) : RpcNet.Act κ Unit :=
  .clt k (.call1 t op.proc (lockArgs (g.cltNonce k) lid))

/-- A worker that leaves a handler will enter the next one. -/
def entered : RpcNet.Act κ Unit → (Worker → Stage) → Worker → Stage
  | .srv _ (.handled w _ _ _), stages => Function.update stages w .entered
  | _, stages => stages

/-- A thread whose `acquire` returns holds the lock. -/
def acquired : RpcNet.Act κ Unit → List (κ × Tid × UInt64) → List (κ × Tid × UInt64)
  | .clt k (.ret t f _), held =>
    match lockCall f.req with
    | some (.acquire, _, lid) => (k, t, lid) :: held
    | _ => held
  | _, held => held

variable [DecidableEq κ]

def next (g : Config κ Unit) (s : LockNet κ) : Act κ → LockNet κ
  | .call k t op lid =>
    { s with
      net := s.net.next g (rpc g k t op lid)
      held := if op = .release then s.held.filter (· ≠ (k, t, lid)) else s.held }
  | .serve w j => s.serve w j
  | .net a =>
    { s with
      net := s.net.next g a
      stages := entered a s.stages
      held := acquired a s.held }

/-- The handler that `reg` makes for an operation returns. -/
def Returns (s : LockNet κ) (w : Worker) (j : Job (Conn κ Unit)) (ret : Int32) (body : Bytes) : Prop :=
  match lockArgsOf j.req.args with
  | none => ret = RpcConst.unmarshalArgsFailure ∧ body = []
  | some _ => s.stages w = .finished ∧ ret = LockProtocol.ok ∧ body.length = 4

def guard (g : Config κ Unit) (s : LockNet κ) : Act κ → Prop
  | .call k t op lid => RpcNet.guard g s.net (rpc g k t op lid) ∧
    (s.net.clt k).refuses op.proc = false ∧ (op = .release → (k, t, lid) ∈ s.held)
  | .serve w j => (s.net.srv ()).aborted = false ∧ (s.net.srv ()).workers w = .running j ∧
    s.stages w ≠ .finished ∧ (lockCall j.req).isSome = true
  | .net a => RpcNet.guard g s.net a ∧
    match a with
    | .clt _ (.call1 _ proc _) => lockOp proc.toInt32 = none
    | .clt _ (.ret _ f r) => (lockOp f.req.hdr.proc).isSome = true → r = LockProtocol.ok
    | .srv _ (.handled w j ret body) =>
      (lockOp j.req.hdr.proc).isSome = true → s.Returns w j ret body
    | _ => True

/-- The runs of lock clients and their server, over every interleaving. -/
def lts (g : Config κ Unit) : Lts (LockNet κ) (Act κ) where
  init s := s = init
  guard := guard g
  next := next g

instance (s : LockNet κ) (w : Worker) (j : Job (Conn κ Unit)) (ret : Int32) (body : Bytes) :
    Decidable (s.Returns w j ret body) := by
  unfold Returns
  split <;> infer_instance

instance (g : Config κ Unit) (s : LockNet κ) (a : Act κ) : Decidable ((lts g).guard s a) := by
  unfold lts guard
  cases a with
  | call k t op lid => infer_instance
  | serve w j => infer_instance
  | net a =>
      cases a with
      | clt k a => cases a <;> infer_instance
      | srv i a => cases a <;> infer_instance

/-- What a step is to the RPC layer. -/
def netAct (g : Config κ Unit) : Act κ → Option (RpcNet.Act κ Unit)
  | .call k t op lid => some (rpc g k t op lid)
  | .serve _ _ => none
  | .net a => some a

theorem net_component (g : Config κ Unit) :
    Lts.Component (lts g) (RpcNet.lts g) (fun s => s.net) (netAct g) where
  init s h := by cases h; rfl
  moves s a b hg hp := by
    cases a with
    | call k t op lid =>
        cases hp
        exact ⟨hg.1, rfl⟩
    | serve w j => cases hp
    | net a =>
        cases hp
        exact ⟨hg.1, rfl⟩
  stays s a _ hp := by
    cases a with
    | call k t op lid => cases hp
    | serve w j => exact net_serve s w j
    | net a => cases hp

end LockNet
end StanDfs
