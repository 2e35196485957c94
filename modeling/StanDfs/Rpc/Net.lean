import StanDfs.Rpc.Rpcc
import StanDfs.Rpc.Rpcs

/-!
# Clients, servers and the network between them

Any number of clients call any number of server instances that live at their destination, one after the
other or at once. A connection belongs to one client and one server instance. Messages are in flight from
the `send` that writes them to the `got_pdu` that accepts them; they may be late or lost, but are
delivered unchanged and at most once.
-/

namespace StanDfs

/-- A connection: the `no`-th that the client made, to a server instance. -/
structure Conn (κ ι : Type*) where
  clt : κ
  srv : ι
  no : Nat
  deriving DecidableEq

/-- What the run of a system is given. Nonces that are not 0 are distinct, and a client that does not
retransmit has nonce 0. -/
structure Config (κ ι : Type*) where
  cltNonce : κ → UInt32
  retrans : κ → Bool
  srvNonce : ι → UInt32
  procs : ι → Int32 → Bool
  created : Conn κ ι → Timeval
  retrans_iff : ∀ k, retrans k = true ↔ cltNonce k ≠ 0
  clt_inj : ∀ k k', cltNonce k ≠ 0 → cltNonce k = cltNonce k' → k = k'
  srv_ne_zero : ∀ i, srvNonce i ≠ 0
  srv_inj : ∀ i i', srvNonce i = srvNonce i' → i = i'

namespace Config

variable {κ ι : Type*} (g : Config κ ι)

def clt (k : κ) : Rpcc.Env := ⟨g.cltNonce k, g.retrans k⟩

def srv (i : ι) : Rpcs.Env (Conn κ ι) := ⟨g.srvNonce i, g.procs i, g.created⟩

end Config

/-- `up` and `down` are the messages in flight; `made` counts a client's connections. -/
structure RpcNet (κ ι : Type*) where
  clt : κ → Rpcc (Conn κ ι)
  srv : ι → Rpcs (Conn κ ι)
  up : List (Conn κ ι × Bytes)
  down : List (Conn κ ι × Bytes)
  made : κ → Nat

namespace RpcNet

variable {κ ι : Type*}

inductive Act (κ ι : Type*)
  | clt (k : κ) (a : Rpcc.Act (Conn κ ι))
  | srv (i : ι) (a : Rpcs.Act (Conn κ ι))
  deriving DecidableEq

def init : RpcNet κ ι := ⟨fun _ => Rpcc.init, fun _ => Rpcs.init, [], [], fun _ => 0⟩

/-- The reply that a step of a client takes from the network. -/
def cltInput : Rpcc.Act (Conn κ ι) → Option (Conn κ ι × Bytes)
  | .gotPdu c b => some (c, b)
  | _ => none

/-- The request that a step of a server takes from the network. -/
def srvInput : Rpcs.Act (Conn κ ι) → Option (Conn κ ι × Bytes)
  | .gotPdu c b true => some (c, b)
  | _ => none

/-- A step of a client opens a connection. -/
def opens : Rpcc.Act (Conn κ ι) → Option (Conn κ ι)
  | .getRefconn _ _ conn => conn
  | _ => none

/-- What a step is to the client `k`. -/
def cltAct [DecidableEq κ] (k : κ) : Act κ ι → Option (Rpcc.Act (Conn κ ι))
  | .clt k' a => if k' = k then some a else none
  | .srv _ _ => none

/-- What a step is to the server instance `i`. -/
def srvAct [DecidableEq ι] (i : ι) : Act κ ι → Option (Rpcs.Act (Conn κ ι))
  | .clt _ _ => none
  | .srv i' a => if i' = i then some a else none

theorem eq_of_srvAct [DecidableEq ι] {i : ι} {a : Act κ ι} {b : Rpcs.Act (Conn κ ι)}
    (h : srvAct i a = some b) : a = .srv i b := by
  cases a with
  | clt k a => cases h
  | srv i' a =>
      rw [srvAct] at h
      split at h
      · rename_i hi
        rw [hi, Option.some.inj h]
      · cases h

variable [DecidableEq κ] [DecidableEq ι]

def take (net : List (Conn κ ι × Bytes)) : Option (Conn κ ι × Bytes) → List (Conn κ ι × Bytes)
  | some m => net.erase m
  | none => net

theorem mem_of_mem_take {net : List (Conn κ ι × Bytes)} {o : Option (Conn κ ι × Bytes)} {m : Conn κ ι × Bytes}
    (h : m ∈ take net o) : m ∈ net := by
  cases o with
  | none => exact h
  | some m' => exact List.mem_of_mem_erase h

def next (g : Config κ ι) (s : RpcNet κ ι) : Act κ ι → RpcNet κ ι
  | .clt k a =>
    { s with
      clt := Function.update s.clt k ((s.clt k).next (g.clt k) a)
      up := s.up ++ Rpcc.output a
      down := take s.down (cltInput a)
      made := if (opens a).isSome then Function.update s.made k (s.made k + 1) else s.made }
  | .srv i a =>
    { s with
      srv := Function.update s.srv i ((s.srv i).next (g.srv i) a)
      up := take s.up (srvInput a)
      down := s.down ++ (s.srv i).output a }

/-- Connections are new, replies come to the client of their connection, and requests, accepted or not, to
its server. -/
def guard (g : Config κ ι) (s : RpcNet κ ι) : Act κ ι → Prop
  | .clt k a => (s.clt k).guard a ∧ (∀ c ∈ opens a, c.clt = k ∧ c.no = s.made k) ∧
    ∀ m ∈ cltInput a, m ∈ s.down ∧ m.1.clt = k
  | .srv i a => (s.srv i).guard (g.srv i) a ∧
    match a with
    | .gotPdu c b _ => (c, b) ∈ s.up ∧ c.srv = i
    | _ => True

/-- The runs of the whole system, over every interleaving. -/
def lts (g : Config κ ι) : Lts (RpcNet κ ι) (Act κ ι) where
  init s := s = init
  guard := guard g
  next := next g

instance (g : Config κ ι) (s : RpcNet κ ι) (a : Act κ ι) : Decidable (guard g s a) := by
  unfold guard
  cases a with
  | clt k a => infer_instance
  | srv i a => cases a <;> infer_instance

instance (g : Config κ ι) (s : RpcNet κ ι) (a : Act κ ι) : Decidable ((lts g).guard s a) :=
  inferInstanceAs (Decidable (guard g s a))

/-! ## The parties of a system -/

theorem clt_component (g : Config κ ι) (k : κ) :
    Lts.Component (lts g) (Rpcc.lts (g.clt k)) (fun s => s.clt k) (cltAct k) where
  init s h := by cases h; rfl
  moves s a b hg hp := by
    cases a with
    | srv i a => cases hp
    | clt k' a =>
        rw [cltAct] at hp
        split at hp
        · rename_i hk
          subst hk
          cases hp
          exact ⟨hg.1, by simp [lts, next, Rpcc.lts]⟩
        · cases hp
  stays s a _ hp := by
    cases a with
    | srv i a => rfl
    | clt k' a =>
        rw [cltAct] at hp
        split at hp
        · cases hp
        · rename_i hk
          simp [lts, next, Function.update_of_ne (Ne.symm hk)]

theorem srv_component (g : Config κ ι) (i : ι) :
    Lts.Component (lts g) (Rpcs.lts (g.srv i)) (fun s => s.srv i) (srvAct i) where
  init s h := by cases h; rfl
  moves s a b hg hp := by
    cases a with
    | clt k a => cases hp
    | srv i' a =>
        rw [srvAct] at hp
        split at hp
        · rename_i hi
          subst hi
          cases hp
          exact ⟨hg.1, by simp [lts, next, Rpcs.lts]⟩
        · cases hp
  stays s a _ hp := by
    cases a with
    | clt k a => rfl
    | srv i' a =>
        rw [srvAct] at hp
        split at hp
        · cases hp
        · rename_i hi
          simp [lts, next, Function.update_of_ne (Ne.symm hi)]

end RpcNet

/-! ## One client and one server instance -/

namespace Solo

open RpcNet (Act)

/-- The client's nonce is 5 and that of the server 7. -/
def config : Config Unit Unit where
  cltNonce _ := 5
  retrans _ := true
  srvNonce _ := 7
  procs _ _ := true
  created c := ⟨c.no, 0⟩
  retrans_iff _ := by simp
  clt_inj _ _ _ _ := rfl
  srv_ne_zero _ := by decide
  srv_inj _ _ _ := rfl

def conn (no : Nat) : Conn Unit Unit := ⟨(), (), no⟩

/-- A bound client's call of procedure 2 that has no arguments. -/
def req (xid xidRep : UInt32) : Request := ⟨⟨xid.toInt32, 2, 5, 7, xidRep.toInt32⟩, []⟩

def bindReq : Request := ⟨⟨1, 1, 5, 0, 0⟩, [0, 0, 0, 0]⟩

/-- A thread calls, and its request goes out on a connection that is there or that it makes. -/
def transmit (t : Tid) (q : Request) (c : Conn Unit Unit) (new : Bool) : List (Act Unit Unit) :=
  [.clt () (.getRefconn t ⟨q, none⟩ (if new then some c else none)),
    .clt () (.tx t ⟨q, some c⟩ c true)]

/-- A worker takes a request and comes to the check. -/
def dispatch (w : Worker) (j : Job (Conn Unit Unit)) : List (Act Unit Unit) :=
  [.srv () (.gotPdu j.conn j.req.pdu true), .srv () (.begin w j.conn j.req.pdu), .srv () (.seen w j),
    .srv () (.save w j), .srv () (.check w j)]

/-- The handler returns and its reply is recorded and passed to `send`. -/
def reply (w : Worker) (j : Job (Conn Unit Unit)) (b : Addr) (body : Bytes) : List (Act Unit Unit) :=
  [.srv () (.handled w j 0 body), .srv () (.record w j b), .srv () (.choose w j b),
    .srv () (.tx w j j.conn b (24 + body.length) true)]

/-- The reply comes in, and the call returns. -/
def finish (t : Tid) (j : Job (Conn Unit Unit)) (body : Bytes) : List (Act Unit Unit) :=
  [.clt () (.gotPdu j.conn (frame (Result.mk j 0 body).buf)), .clt () (.woken t ⟨j.req, some j.conn⟩),
    .clt () (.leave t ⟨j.req, some j.conn⟩), .clt () (.ret t ⟨j.req, some j.conn⟩ 0)]

/-- A call on the connection 0 that returns. -/
def call (t : Tid) (w : Worker) (q : Request) (b : Addr) (body : Bytes) : List (Act Unit Unit) :=
  let j : Job (Conn Unit Unit) := ⟨conn 0, q⟩
  .clt () (.call1 t q.hdr.proc.toUInt32 q.args) :: transmit t q (conn 0) (q = bindReq) ++ dispatch w j ++
    reply w j b body ++ .srv () (.sent w j (conn 0) b (24 + body.length)) :: finish t j body

/-- The client binds. -/
def bind : List (Act Unit Unit) := call 0 0 bindReq 0 (BigEndian.bytes 7) ++ [.clt () (.bound 0 7)]

end Solo
end StanDfs
