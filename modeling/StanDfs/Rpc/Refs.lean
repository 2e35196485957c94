import StanDfs.Lib.Holders
import StanDfs.Rpc.Rpcs

/-!
# Connections and their references

The server with its `tcpsconn`: what `got_pdu`, `dispatch` and `process_accept` do to `refno_` and to the
`djob_t` of each PDU. `read_cb` holds the connection's mutex through `got_pdu`, so the connection does not
die meanwhile, and the collector, which asks `isdead`, waits for it.
-/

namespace StanDfs

/-- `MAX_POLL_FDS` -/
def maxPollFds : Nat := 128

/-- A `djob_t`; `id` tells the allocations apart. -/
structure DJob (χ : Type*) where
  id : Nat
  conn : χ
  buf : Bytes
  deriving DecidableEq

/-- `got_pdu` at work on a job; `succ` is what `addObjJob` returned. -/
structure Offer (χ : Type*) where
  job : DJob χ
  succ : Option Bool
  deriving DecidableEq

/-- `process_accept` at work: the new connection, and the entries of `conns_` it has not come to yet. -/
structure Sweep (χ : Type*) where
  ch : χ
  rest : List χ
  deriving DecidableEq

namespace Rpcs

variable {χ : Type*}

/-- The client is sending to another instance of the server. -/
def OldInstance (e : Env χ) (q : Request) : Prop := q.hdr.srvNonce ≠ 0 ∧ q.hdr.srvNonce ≠ e.nonce

instance (e : Env χ) (q : Request) : Decidable (OldInstance e q) := inferInstanceAs (Decidable (_ ∧ _))

/-- The entries of `conns_` that point to `c`. -/
def pointers [DecidableEq χ] (s : Rpcs χ) (c : χ) : Nat :=
  Holders.count s.conns.keys.toFinset s.conns.lookup c

end Rpcs

/-- The reference that a worker will give back: the branch of `dispatch` that answers `oldsrv_failure`
gives none back. -/
def Pc.held {χ : Type*} : Pc χ → Option χ
  | .idle => none
  | .seen j | .save j | .check j | .running j | .record j _ | .choose j _ => some j.conn
  | .send _ c _ _ | .sending _ c _ _ => some c
  | .reply j r => if r.hdr.ret = RpcConst.oldsrvFailure then none else some j.conn

/-- An `rpcs` with its listener. `listed` has the connections of `tcpsconn::conns_`, whose keys are their
descriptors `fd`. `made` counts the `djob_t`s, `known` has the connections that were accepted, and
`aborted` says that the assertion of `add_callback` failed or an iterator of an erased entry was used. -/
structure Refs (χ : Type*) where
  srv : Rpcs χ
  reachable : Bool
  made : Nat
  offer : Option (Offer χ)
  jobs : List (DJob χ)
  deletes : List Nat
  refno : χ → Int
  deleted : List χ
  listed : List χ
  sweep : Option (Sweep χ)
  known : List χ
  fd : χ → Nat
  aborted : Bool

namespace Refs

open Rpcs (Env OldInstance)

variable {χ : Type*}

inductive Act (χ : Type*)
  | setReachable (r : Bool)
  /-- `got_pdu` up to `incref`. -/
  | gotPdu (c : χ) (b : Bytes)
  | addObjJob (j : DJob χ) (succ : Bool)
  /-- `got_pdu` looks at `reachable_` again and returns. -/
  | look (j : DJob χ) (succ reach : Bool)
  | begin (w : Worker) (j : DJob χ)
  /-- Another step of the server. -/
  | other (a : Rpcs.Act χ)
  /-- `process_accept` up to its loop; `others` are the descriptors the process has open besides those of
  the connections. -/
  | accept (c : χ) (fd : Nat) (others : Finset Nat)
  /-- One round of the loop. A dead connection with no reference but that of `conns_` gets no other, so
  `isdead`, `ref` and `decref` may be taken together. -/
  | collect (ch c : χ) (rest : List χ)
  /-- The new connection is put in `conns_`. -/
  | enlist (ch : χ)
  deriving DecidableEq

def init : Refs χ :=
  ⟨Rpcs.init, true, 0, none, [], [], fun _ => 0, [], [], none, [], fun _ => 0, false⟩

variable [DecidableEq χ]

def incref (s : Refs χ) (c : χ) : Refs χ :=
  { s with refno := Function.update s.refno c (s.refno c + 1) }

def decref (s : Refs χ) (c : χ) : Refs χ :=
  let n := s.refno c - 1
  { s with
    refno := Function.update s.refno c n
    deleted := if n = 0 ∧ c ∈ s.srv.dead then c :: s.deleted else s.deleted }

/-- `dispatch` up to its first critical section. -/
def begin (e : Env χ) (s : Refs χ) (w : Worker) (j : DJob χ) : Refs χ :=
  let s := { s with
    srv := s.srv.next e (.begin w j.conn j.buf)
    jobs := s.jobs.erase j
    deletes := s.deletes ++ [j.id] }
  match decodeReq j.buf with
  | none => s.decref j.conn
  | some q =>
    if OldInstance e q then s
    else if e.procs q.hdr.proc = false then s.decref j.conn
    else s

/-- What the other steps of `dispatch` do to references. -/
def refs (e : Env χ) (s : Refs χ) : Rpcs.Act χ → Refs χ
  | .save _ j =>
    match s.srv.conns.lookup j.nonce with
    | none => s.incref j.conn
    | some c =>
      if compare (e.created c) (e.created j.conn) < 0 then (s.decref c).incref j.conn else s
  | .check _ j =>
    match s.srv.table.checkduplicateAndUpdate j.nonce j.xid j.xidRep with
    | some (.inprogress, _, _) => s.decref j.conn
    | _ => s
  | .choose _ j _ =>
    if j.conn ∈ s.srv.dead ∧ s.srv.conns.lookup j.nonce ≠ some j.conn then
      match s.srv.conns.lookup j.nonce with
      | none => s.decref j.conn
      | some c => (s.decref j.conn).incref c
    else s
  | .sent _ _ c _ _ => s.decref c
  | .txReply _ j r _ => if r.hdr.ret = RpcConst.oldsrvFailure then s else s.decref j.conn
  | _ => s

def next (e : Env χ) (s : Refs χ) : Act χ → Refs χ
  | .setReachable r => { s with reachable := r }
  | .gotPdu c b =>
    if s.reachable then
      { s.incref c with made := s.made + 1, offer := some ⟨⟨s.made, c, b⟩, none⟩ }
    else s
  | .addObjJob j succ =>
    { s with
      srv := s.srv.next e (.gotPdu j.conn j.buf succ)
      jobs := if succ then s.jobs ++ [j] else s.jobs
      offer := some ⟨j, some succ⟩ }
  | .look j succ reach =>
    let s := { s with offer := none }
    if !succ || !reach then { s.decref j.conn with deletes := s.deletes ++ [j.id] } else s
  | .begin w j => s.begin e w j
  | .other a => { s.refs e a with srv := s.srv.next e a }
  | .accept c fd _ =>
    if fd < maxPollFds then
      { s with
        refno := Function.update s.refno c 1
        sweep := some ⟨c, s.listed⟩
        known := c :: s.known
        fd := Function.update s.fd c fd }
    else { s with aborted := true }
  | .collect ch c rest =>
    let s := { s with sweep := some ⟨ch, rest⟩ }
    if c ∈ s.srv.dead ∧ s.refno c = 1 then
      -- the loop goes on with `i++` on the entry it has erased
      { s.decref c with
        listed := s.listed.erase c
        aborted := true }
    else s
  | .enlist ch => { s with listed := ch :: s.listed, sweep := none }

/-- No PDU of the connection is with `got_pdu`. -/
def Free (s : Refs χ) (c : χ) : Prop := ∀ o ∈ s.offer, o.job.conn ≠ c

/-- The descriptors that connections have open. -/
def fds (s : Refs χ) : List Nat := (s.known.filter fun c => c ∉ s.deleted).map s.fd

def guard (e : Env χ) (s : Refs χ) (a : Act χ) : Prop :=
  (s.srv.aborted = false ∧ s.aborted = false) ∧
  match a with
  | .setReachable _ => True
  | .gotPdu c _ => s.offer = none ∧ c ∈ s.known ∧ c ∉ s.srv.dead
  | .addObjJob j _ => s.offer = some ⟨j, none⟩
  | .look j succ reach => s.offer = some ⟨j, some succ⟩ ∧ s.reachable = reach
  | .begin w j => j ∈ s.jobs ∧ s.srv.guard e (.begin w j.conn j.buf)
  | .other a =>
    s.srv.guard e a ∧
      match a with
      | .gotPdu _ _ _ | .begin _ _ _ => False
      | .die c => c ∈ s.known ∧ s.Free c
      | _ => True
  | .accept c fd others =>
    s.sweep = none ∧ c ∉ s.known ∧ c ∉ s.srv.dead ∧
      -- the kernel gives the lowest descriptor that is free
      fd ∉ others ∧ fd ∉ s.fds ∧ ∀ n < fd, n ∈ others ∨ n ∈ s.fds
  | .collect ch c rest => s.sweep = some ⟨ch, c :: rest⟩ ∧ s.Free c
  | .enlist ch => s.sweep = some ⟨ch, []⟩

/-- The runs of a server with its connections. -/
def lts (e : Env χ) : Lts (Refs χ) (Act χ) where
  init s := s = init
  guard := guard e
  next := next e

/-- The step as the server sees it. -/
def srvAct : Act χ → Option (Rpcs.Act χ)
  | .addObjJob j succ => some (.gotPdu j.conn j.buf succ)
  | .begin w j => some (.begin w j.conn j.buf)
  | .other a => some a
  | _ => none

instance (s : Refs χ) (c : χ) : Decidable (s.Free c) := inferInstanceAs (Decidable (∀ _ ∈ _, _))

instance (e : Env χ) (s : Refs χ) (a : Act χ) : Decidable (guard e s a) := by
  unfold guard
  apply @Act.casesOn _ _ a
  case other =>
      intro a
      apply @Rpcs.Act.casesOn _ _ a <;> intros <;> infer_instance
  all_goals
    intros
    infer_instance

instance (e : Env χ) (s : Refs χ) (a : Act χ) : Decidable ((lts e).guard s a) :=
  inferInstanceAs (Decidable (guard e s a))

theorem srv_begin (e : Env χ) (s : Refs χ) (w : Worker) (j : DJob χ) :
    (s.begin e w j).srv = s.srv.next e (.begin w j.conn j.buf) := by
  simp only [begin]
  split
  · rfl
  · split
    · rfl
    · split <;> rfl

theorem srv_component (e : Env χ) : Lts.Component (lts e) (Rpcs.lts e) srv srvAct where
  init := by
    rintro s rfl
    rfl
  moves s a b hg hb := by
    cases a with
    | addObjJob j succ =>
        cases hb
        exact ⟨⟨hg.1.1, trivial⟩, rfl⟩
    | begin w j =>
        cases hb
        exact ⟨hg.2.2, srv_begin e s w j⟩
    | other a =>
        cases hb
        exact ⟨hg.2.1, rfl⟩
    | _ => cases hb
  stays s a hg hb := by
    cases a with
    | gotPdu c b =>
        simp only [lts, next]
        split <;> rfl
    | look j succ reach =>
        simp only [lts, next]
        split <;> rfl
    | accept c fd others =>
        simp only [lts, next]
        split <;> rfl
    | collect ch c rest =>
        simp only [lts, next]
        split <;> rfl
    | setReachable r => rfl
    | enlist ch => rfl
    | _ => cases hb

end Refs

/-! ## Clients on their own connections -/

namespace Refs.Lone

/-- The server's nonce is 7. -/
def env : Rpcs.Env Nat := ⟨7, fun _ => true, fun c => ⟨c, 0⟩⟩

/-- A call of procedure 2 by a client with the nonce 5. -/
def req (srvNonce : UInt32) : Request := ⟨⟨2, 2, 5, srvNonce, 0⟩, []⟩

def job (n c : Nat) (q : Request) : DJob Nat := ⟨n, c, q.pdu⟩

/-- A connection is accepted while there is none. -/
def arrive (c fd : Nat) : List (Act Nat) := [.accept c fd ∅, .enlist c]

/-- A PDU comes in and the pool takes it. -/
def queue (n c : Nat) (q : Request) : List (Act Nat) :=
  [.gotPdu c q.pdu, .addObjJob (job n c q) true, .look (job n c q) true true]

/-- A new call is dispatched. -/
def dispatch (w : Worker) (n c : Nat) (q : Request) (b : Addr) : List (Act Nat) :=
  let j : Job Nat := ⟨c, q⟩
  .begin w (job n c q) ::
    [.seen w j, .save w j, .check w j, .handled w j 0 [], .record w j b, .choose w j b, .tx w j c b 24 true,
      .sent w j c b 24].map .other

end Refs.Lone
end StanDfs
