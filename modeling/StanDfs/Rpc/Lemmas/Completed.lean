import StanDfs.Rpc.Lemmas.Beside

/-!
# A call that completes

A thread of a bound client makes a call on a connection that is alive, a worker of the server handles it,
and the reply comes back. To the other threads and workers nothing has changed but the counter of calls.
-/

namespace StanDfs

/-- A message that comes and is taken. -/
theorem perm_erase_append {α : Type*} [BEq α] [LawfulBEq α] (l : List α) (a : α) :
    ((l ++ [a]).erase a).Perm l := by
  have h := (List.perm_append_singleton a l).erase a
  rwa [List.erase_cons_head] at h

namespace ReplyTable

variable {m : Nat} {t t' t₀ : ReplyTable} {n x : UInt32}

/-- The check of a call that completes changes nothing for the others, if it does not raise the floor. -/
theorem Extends.new (h : Extends m t t₀) (hx : ¬ Small m x) {r f : UInt32} {freed : List Addr}
    (hc : t.checkduplicateAndUpdate n x r = some (.new, t', freed)) (hf : t₀.rereplyWindow.lookup n = some f)
    (hr : t.newFloor n r = f) (hkeep : ∀ e ∈ t₀.replies n, ¬ e.xid < f) : Extends m t' t₀ := by
  cases ReplyTable.checked hc with
  | @new l kept removed _ _ hl hsw _ =>
      rw [hr] at hsw
      have hlist := h.lists n
      rw [hl, Option.map_some] at hlist
      obtain ⟨l₀, hl₀, hsm⟩ := Option.map_eq_some_iff.mp hlist.symm
      -- What the scan erased is of completed calls.
      have hnone : ∀ e ∈ removed, ¬ Small m e.xid := by
        intro e he hs
        have hmem : e ∈ smalls m l₀ := by
          rw [hsm]
          exact List.mem_filter.mpr ⟨hsw.perm.mem_iff.mpr (List.mem_append_right _ he), by simpa using hs⟩
        refine hkeep e ?_ (hsw.below e he)
        rw [replies, hl₀]
        exact (List.mem_filter.mp hmem).1
      have hremoved : smalls m removed = [] :=
        List.filter_eq_nil_iff.mpr fun e he => by simpa using hnone e he
      have hkept : smalls m kept = smalls m l := by
        refine (hsw.sub.filter _).eq_of_length ?_
        have hperm : (smalls m l).Perm (smalls m kept) := by
          have hp := hsw.perm.filter fun e => Small m e.xid
          rwa [List.filter_append, show removed.filter (fun e => Small m e.xid) = [] from hremoved,
            List.append_nil] at hp
        exact hperm.length_eq.symm
      refine ⟨fun n' => ?_, fun n' => ?_⟩
      · by_cases hn : n' = n
        · subst hn
          simp [withReplies, hr, hf]
        · simpa [withReplies, AList.lookup_insert_ne hn] using h.floors n'
      · by_cases hn : n' = n
        · subst hn
          have happ : smalls m (kept ++ [⟨x, none, -1⟩]) = smalls m kept := by simp [smalls, hx]
          simp [withReplies, happ, hkept, hl₀, hsm]
        · simpa [withReplies, AList.lookup_insert_ne hn] using h.lists n'

theorem Extends.record (h : Extends m t t₀) (hx : ¬ Small m x) {b : Option Addr} {sz : Int}
    (hr : Recorded t n x b sz t') : Extends m t' t₀ := by
  refine ⟨fun n' => hr.floor ▸ h.floors n', fun n' => ?_⟩
  rw [hr.insert]
  by_cases hn : n' = n
  · subst hn
    obtain ⟨l, hl⟩ := hr.known
    obtain ⟨pre, e, post, heq, rfl, heq'⟩ := hr.split
    have hlist := h.lists n'
    rw [hl, Option.map_some] at hlist
    rw [AList.lookup_insert, ← hlist, heq', Option.map_some, Option.some.injEq]
    rw [replies, hl, Option.getD_some] at heq
    rw [heq]
    simp [smalls, hx]
  · rw [AList.lookup_insert_ne hn]
    exact h.lists n'

end ReplyTable

namespace Rpcc

variable {χ : Type*} {e : Env} {s : Rpcc χ}

/-- The request `q` of the thread has gone out on `c`. -/
def requested (s : Rpcc χ) (t : Tid) (c : χ) (q : Request) : Rpcc χ :=
  { s.setThread t (.waiting ⟨q, some c⟩) with
    callers := Function.update s.callers t ⟨s.xid, .empty, 0, false⟩
    calls := s.calls.insert s.xid t
    xid := s.xid + 1
    issued := s.issued ++ [q]
    sent := s.sent ++ [(c, q)] }

/-- The thread has returned with the reply. -/
def answered (s : Rpcc χ) (t : Tid) (h : ReplyHeader) (un : Unmarshall) : Rpcc χ :=
  { s.setThread t .idle with
    callers := Function.update s.callers t ⟨h.xid.toUInt32, un, h.ret, true⟩
    calls := s.calls.erase h.xid.toUInt32
    xidRepWindow := updateXidRep (updateXidRep s.xidRepWindow h.xid.toUInt32) h.xid.toUInt32
    replied := s.replied ++ [h.xid.toUInt32]
    left := s.left ++ [h.xid.toUInt32] }

theorem Beside.completed {m : Nat} {u : Tid} {s₀ : Rpcc χ} (h : Beside m u s s₀) (hm : m ≤ 2 ^ 32)
    (hu : s₀.threads u = .idle)
    (hw : XidWindow.compress ⟨s₀.xidRepWindow.front, []⟩ s₀.xidRepWindow.rest = s₀.xidRepWindow)
    (hdr : ReplyHeader) (hx : hdr.xid.toUInt32 = s.xid) (hlarge : m ≤ s.xid.toNat) (c : χ) (q : Request)
    (un : Unmarshall) :
    Beside m u ((s.requested u c q).answered u hdr un) { s₀ with xid := s₀.xid + 1 } where
  srvNonce := h.srvNonce
  bindDone := h.bindDone
  xid := by rw [← h.xid]; rfl
  destroyWait := h.destroyWait
  chan := h.chan
  dead := h.dead
  window := by
    rw [← hx] at hlarge
    exact (h.window.update_large hm hw hlarge).update_large hm hw hlarge
  calls x hs := by
    have hne : x ≠ s.xid := by
      rintro rfl
      unfold Small at hs
      omega
    simp only [answered, requested, hx, AList.lookup_erase_ne hne, AList.lookup_insert_ne hne]
    exact h.calls x hs
  callers t ht := by simp [answered, requested, Function.update_of_ne ht, h.callers t ht]
  threads := by simp [answered, requested, Rpcc.setThread, h.threads, ← hu]

variable [DecidableEq χ]

theorem exec_requested {t : Tid} {c : χ} {proc : UInt32} {args : Bytes} {q : Request}
    (hq : s.request e proc args = q) (ht : s.threads t = .idle) (hr : s.refuses proc = false)
    (hc : s.chan = some c) (hd : c ∉ s.dead) :
    (lts e).exec s [.call1 t proc args, .getRefconn t ⟨q, none⟩ none, .tx t ⟨q, some c⟩ c true] =
      some (s.requested t c q) := by
  subst hq
  simp [Lts.exec, lts, guard, next, call1, getRefconn, chanAlive, requested, setThread, ht, hr, hc, hd]

theorem exec_answered {t : Tid} {c : χ} {f : Call χ} {b : Bytes} {h : ReplyHeader} {un : Unmarshall}
    (ht : s.threads t = .waiting f) (hd : (s.callers t).done = false)
    (hx : (s.callers t).xid = h.xid.toUInt32) (hl : s.calls.lookup h.xid.toUInt32 = some t)
    (hb : decodeReply b = some (h, un)) (hp : f.req.hdr.proc ≠ RpcConst.bind.toInt32) :
    (lts e).exec s [.gotPdu c b, .woken t f, .leave t f, .ret t f h.ret] = some (s.answered t h un) := by
  simp [Lts.exec, lts, guard, next, gotPdu, take, leave, ret, result, answered, setThread, ht, hd, hx, hl, hb, hp]

end Rpcc

namespace Rpcs

variable {χ : Type*} {e : Env χ} {s : Rpcs χ}

/-- A job has come in. -/
def queued (s : Rpcs χ) (j : Job χ) : Rpcs χ :=
  { s with
    jobs := s.jobs ++ [(j.conn, j.req.pdu)]
    received := s.received ++ [(j.conn, j.req.pdu)] }

variable [DecidableEq χ]

/-- The worker has handled the new job, and sends the reply; `t` is the table with it. -/
def served (s : Rpcs χ) (v : Worker) (r : Result χ) (t : ReplyTable) (freed : List Addr) : Rpcs χ :=
  { s.setWorker v (.send r.job r.job.conn s.heap.length r.buf.length) with
    table := t
    jobs := s.jobs.erase (r.job.conn, r.job.req.pdu)
    heap := s.heap ++ [r.buf]
    freed := s.freed ++ freed
    execs := s.execs ++ [r.job]
    copies := (s.enter v r.job).copies
    results := s.results ++ [r]
    recorded := s.recorded ++ [(r.job.key, s.heap.length)] }

/-- The worker has sent the reply. -/
def replied (e : Env χ) (s : Rpcs χ) (v : Worker) (r : Result χ) (b : Addr) : Rpcs χ :=
  (s.next e (.tx v r.job r.job.conn b r.buf.length true)).next e (.sent v r.job r.job.conn b r.buf.length)

theorem Beside.completed {m : Nat} {v : Worker} {s₀ : Rpcs χ} (h : Beside m v s s₀)
    (hv : s₀.workers v = .idle) {r : Result χ}
    {t : ReplyTable} (ht : t.Extends m s₀.table) (freed : List Addr) (b : Addr) :
    Beside m v (((s.queued r.job).served v r t freed).replied e v r b) s₀ where
  table := ht
  conns := h.conns
  heap := h.heap.trans (List.prefix_append _ _)
  dead := h.dead
  jobs := (perm_erase_append s.jobs _).trans h.jobs
  workers := by simp [replied, served, queued, next, Rpcs.setWorker, h.workers, ← hv]
  aborted := h.aborted

instance (e : Env χ) (s : Rpcs χ) (a : Act χ) : Decidable ((lts e).guard s a) :=
  inferInstanceAs (Decidable (guard e s a))

/-- What a worker does with a job up to the reply. -/
def working (v : Worker) (r : Result χ) (b : Addr) : List (Act χ) :=
  [.begin v r.job.conn r.job.req.pdu, .seen v r.job, .save v r.job, .check v r.job, .handled v r.job r.ret r.body,
    .record v r.job b, .choose v r.job b]

theorem exec_working {v : Worker} {r : Result χ} {l : List ReplyT} {t t' : ReplyTable} {freed : List Addr}
    (ha : s.aborted = false) (hw : s.workers v = .idle) (hj : (r.job.conn, r.job.req.pdu) ∈ s.jobs)
    (hn : r.job.nonce ≠ 0) (hsrv : r.job.req.hdr.srvNonce = e.nonce) (hp : e.procs r.job.req.hdr.proc = true)
    (hl : s.table.replyWindow.lookup r.job.nonce = some l)
    (hchk : s.table.checkduplicateAndUpdate r.job.nonce r.job.xid r.job.xidRep = some (.new, t, freed))
    (hadd : t.addReply r.job.nonce r.job.xid (some s.heap.length) r.buf.length = some t')
    (hc : s.conns.lookup r.job.nonce = some r.job.conn) (hd : r.job.conn ∉ s.dead)
    (hok : HandlerOk e r.job r.ret r.body) :
    (lts e).exec s (working v r s.heap.length) = some (s.served v r t' freed) := by
  obtain ⟨j, ret, body⟩ := r
  have heta : (⟨j.conn, j.req⟩ : Job χ) = j := rfl
  have hcreate : s.table.create j.nonce = s.table := by rw [ReplyTable.create, hl]
  have hself : ¬ compare (e.created j.conn) (e.created j.conn) < 0 := Int.not_lt.mpr (compare_self _)
  simp at hw hj hn hsrv hp hchk hadd hc hd hok
  simp [Lts.exec, lts, guard, working, served, next, begin, decodeReq_pdu, heta, enter, saveConn, check, answer,
    invoke, handled, record, choose, target, contents, setWorker, ha, hw, hj, hn, hsrv, hp, hcreate, hchk, hadd,
    hc, hd, hok, hself]

end Rpcs

namespace RpcNet

open Lts (exec_append)

variable {g : Config Unit Unit} {n : RpcNet Unit Unit}

theorem update_unit {β : Type*} (f : Unit → β) (b : β) : Function.update f () b = fun _ => b :=
  funext fun _ => Function.update_self () b f

/-- What the client does without messages from the network. -/
theorem exec_clt {as : List (Rpcc.Act (Conn Unit Unit))} {s : Rpcc (Conn Unit Unit)}
    (hin : ∀ a ∈ as, opens a = none ∧ cltInput a = none)
    (he : (Rpcc.lts (g.clt ())).exec (n.clt ()) as = some s) :
    (lts g).exec n (as.map (.clt ())) =
      some { n with clt := fun _ => s, up := n.up ++ as.flatMap Rpcc.output } := by
  induction as generalizing n with
  | nil =>
      rw [Lts.exec, Option.some.injEq] at he
      simp [Lts.exec, ← he]
  | cons a as ih =>
      obtain ⟨⟨hopen, hcin⟩, hin⟩ := List.forall_mem_cons.mp hin
      unfold Lts.exec at he
      split at he
      · rename_i hg
        have hg' : (lts g).guard n (.clt () a) := ⟨hg, by simp [hopen], by simp [hcin]⟩
        have hn : (lts g).next n (.clt () a) =
            { n with
              clt := fun _ => (n.clt ()).next (g.clt ()) a
              up := n.up ++ Rpcc.output a } := by
          simp [lts, next, update_unit, hopen, hcin, take]
        rw [List.map_cons, Lts.exec, if_pos hg', hn, ih hin he]
        simp
      · cases he

theorem exec_clt_reply {as : List (Rpcc.Act (Conn Unit Unit))} {s : Rpcc (Conn Unit Unit)} {c : Conn Unit Unit}
    {b : Bytes} (hb : (c, b) ∈ n.down) (hin : ∀ a ∈ as, opens a = none ∧ cltInput a = none)
    (hout : ∀ a ∈ as, Rpcc.output a = [])
    (he : (Rpcc.lts (g.clt ())).exec (n.clt ()) (.gotPdu c b :: as) = some s) :
    (lts g).exec n ((Rpcc.Act.gotPdu c b :: as).map (.clt ())) =
      some { n with clt := fun _ => s, down := n.down.erase (c, b) } := by
  rw [Lts.exec, if_pos (show (Rpcc.lts (g.clt ())).guard (n.clt ()) (.gotPdu c b) from trivial)] at he
  have hg : (lts g).guard n (.clt () (.gotPdu c b)) :=
    ⟨trivial, fun _ hc => (by cases hc), fun p hp => by
      cases hp
      exact ⟨hb, rfl⟩⟩
  rw [List.map_cons, Lts.exec, if_pos hg]
  have hfl : as.flatMap Rpcc.output = [] := List.flatMap_eq_nil_iff.mpr hout
  have hn : (lts g).next n (.clt () (.gotPdu c b)) =
      { n with clt := fun _ => (n.clt ()).next (g.clt ()) (.gotPdu c b), down := n.down.erase (c, b) } := by
    simp [lts, next, update_unit, opens, cltInput, take, Rpcc.output]
  rw [hn, exec_clt hin he, hfl, List.append_nil]

/-- What a worker does without messages. -/
theorem exec_srv {as : List (Rpcs.Act (Conn Unit Unit))} {s : Rpcs (Conn Unit Unit)}
    (hin : ∀ a ∈ as, srvInput a = none ∧ (∀ c b y, a ≠ .gotPdu c b y) ∧ ∀ s : Rpcs (Conn Unit Unit), s.output a = [])
    (he : (Rpcs.lts (g.srv ())).exec (n.srv ()) as = some s) :
    (lts g).exec n (as.map (.srv ())) = some { n with srv := fun _ => s } := by
  induction as generalizing n with
  | nil =>
      rw [Lts.exec, Option.some.injEq] at he
      simp [Lts.exec, ← he]
  | cons a as ih =>
      obtain ⟨⟨hsin, hpdu, hout⟩, hin⟩ := List.forall_mem_cons.mp hin
      unfold Lts.exec at he
      split at he
      · rename_i hg
        have hg' : (lts g).guard n (.srv () a) := by
          refine ⟨hg, ?_⟩
          cases a with
          | gotPdu c b y => exact absurd rfl (hpdu c b y)
          | _ => trivial
        have hn : (lts g).next n (.srv () a) = { n with srv := fun _ => (n.srv ()).next (g.srv ()) a } := by
          simp [lts, next, update_unit, hsin, hout, take]
        rw [List.map_cons, Lts.exec, if_pos hg', hn, ih hin he]
      · cases he

/-- The thread `u` makes the call of the job. -/
def request (u : Tid) (j : Job (Conn Unit Unit)) : List (Rpcc.Act (Conn Unit Unit)) :=
  [.call1 u j.req.hdr.proc.toUInt32 j.req.args, .getRefconn u ⟨j.req, none⟩ none,
    .tx u ⟨j.req, some j.conn⟩ j.conn true]

/-- The rest of its call when the reply is there. -/
def response (u : Tid) (r : Result (Conn Unit Unit)) : List (Rpcc.Act (Conn Unit Unit)) :=
  [.woken u ⟨r.job.req, some r.job.conn⟩, .leave u ⟨r.job.req, some r.job.conn⟩,
    .ret u ⟨r.job.req, some r.job.conn⟩ r.ret]

/-- The thread `u` makes the call of the job, and the worker `v` handles it. -/
def completed (u : Tid) (v : Worker) (r : Result (Conn Unit Unit)) (b : Addr) : List (Act Unit Unit) :=
  (request u r.job).map (.clt ()) ++
    (.srv () (.gotPdu r.job.conn r.job.req.pdu true) :: (Rpcs.working v r b).map (.srv ())) ++
    [.srv () (.tx v r.job r.job.conn b r.buf.length true), .srv () (.sent v r.job r.job.conn b r.buf.length)] ++
    (Rpcc.Act.gotPdu r.job.conn (frame r.buf) :: response u r).map (.clt ())

theorem exec_completed {u : Tid} {v : Worker} {r : Result (Conn Unit Unit)} {b : Addr}
    {c₁ c₂ : Rpcc (Conn Unit Unit)} {s : Rpcs (Conn Unit Unit)}
    (hreq : (Rpcc.lts (g.clt ())).exec (n.clt ()) (request u r.job) = some c₁)
    (hab : (n.srv ()).aborted = false)
    (hjob : (Rpcs.lts (g.srv ())).exec ((n.srv ()).queued r.job) (Rpcs.working v r b) = some s)
    (hs : s.aborted = false) (hw : s.workers v = .send r.job r.job.conn b r.buf.length)
    (hbuf : s.contents b = r.buf) (hd : r.job.conn ∉ s.dead)
    (hrep : (Rpcc.lts (g.clt ())).exec c₁ (.gotPdu r.job.conn (frame r.buf) :: response u r) = some c₂) :
    (lts g).exec n (completed u v r b) =
      some
        { clt := fun _ => c₂
          srv := fun _ => s.replied (g.srv ()) v r b
          up := (n.up ++ [(r.job.conn, r.job.req.pdu)]).erase (r.job.conn, r.job.req.pdu)
          down := (n.down ++ [(r.job.conn, frame r.buf)]).erase (r.job.conn, frame r.buf)
          made := n.made } := by
  have h₁ := exec_clt (n := n) (by simp [request, opens, cltInput]) hreq
  have hout : (request u r.job).flatMap Rpcc.output = [(r.job.conn, r.job.req.pdu)] := by
    simp [request, Rpcc.output]
  rw [hout] at h₁
  have h₂ : (lts g).exec { n with clt := fun _ => c₁, up := n.up ++ [(r.job.conn, r.job.req.pdu)] }
      (.srv () (.gotPdu r.job.conn r.job.req.pdu true) :: (Rpcs.working v r b).map (.srv ())) =
      some { n with
        clt := fun _ => c₁
        srv := fun _ => s
        up := (n.up ++ [(r.job.conn, r.job.req.pdu)]).erase (r.job.conn, r.job.req.pdu) } := by
    rw [Lts.exec, if_pos ⟨⟨hab, trivial⟩, by simp, rfl⟩,
      exec_srv (by simp [Rpcs.working, srvInput, Rpcs.output])
        (by simpa [lts, next, Rpcs.next, Rpcs.queued] using hjob)]
    simp [lts, next, srvInput, take, Rpcs.output]
  have h₃ : (lts g).exec
      { n with
        clt := fun _ => c₁
        srv := fun _ => s
        up := (n.up ++ [(r.job.conn, r.job.req.pdu)]).erase (r.job.conn, r.job.req.pdu) }
      [.srv () (.tx v r.job r.job.conn b r.buf.length true),
        .srv () (.sent v r.job r.job.conn b r.buf.length)] =
      some
        { clt := fun _ => c₁
          srv := fun _ => s.replied (g.srv ()) v r b
          up := (n.up ++ [(r.job.conn, r.job.req.pdu)]).erase (r.job.conn, r.job.req.pdu)
          down := n.down ++ [(r.job.conn, frame r.buf)]
          made := n.made } := by
    have htake : (s.contents b).take r.buf.length = r.buf := by rw [hbuf, List.take_length]
    rw [Lts.exec, if_pos ⟨⟨hs, hw, fun _ => hd⟩, trivial⟩, Lts.exec,
      if_pos ⟨⟨hs, by simp [lts, next, Rpcs.next, Rpcs.setWorker]⟩, trivial⟩, Lts.exec]
    simp [lts, next, Rpcs.replied, update_unit, Rpcs.output, srvInput, take, htake]
  rw [completed, exec_append, exec_append, exec_append, h₁, Option.bind_some, h₂, Option.bind_some, h₃,
    Option.bind_some, exec_clt_reply (by simp) (by simp [response, opens, cltInput])
      (by simp [response, Rpcc.output]) hrep]

/-! ## Call after call -/

/-- The thread and the worker are free, the client is bound and has the connection, and the server has the
client's floor where its window begins. -/
structure Ready (g : Config Unit Unit) (m : Nat) (u : Tid) (v : Worker) (c : Conn Unit Unit)
    (n : RpcNet Unit Unit) : Prop where
  thread : (n.clt ()).threads u = .idle
  worker : (n.srv ()).workers v = .idle
  bindDone : (n.clt ()).bindDone = true
  destroyWait : (n.clt ()).destroyWait = false
  srvNonce : (n.clt ()).srvNonce = g.srvNonce ()
  chan : (n.clt ()).chan = some c
  cltAlive : c ∉ (n.clt ()).dead
  small : ∀ x ∈ (n.clt ()).xidRepWindow.xids, Small m x
  window : XidWindow.compress ⟨(n.clt ()).xidRepWindow.front, []⟩ (n.clt ()).xidRepWindow.rest =
    (n.clt ()).xidRepWindow
  aborted : (n.srv ()).aborted = false
  conns : (n.srv ()).conns.lookup (g.cltNonce ()) = some c
  srvAlive : c ∉ (n.srv ()).dead
  floor : (n.srv ()).table.rereplyWindow.lookup (g.cltNonce ()) = some (n.clt ()).xidRepWindow.front
  known : ((n.srv ()).table.replyWindow.lookup (g.cltNonce ())).isSome = true
  above : ∀ e ∈ (n.srv ()).table.replies (g.cltNonce ()), ¬ e.xid < (n.clt ()).xidRepWindow.front

theorem ready_iff {m : Nat} {u : Tid} {v : Worker} {c : Conn Unit Unit} : Ready g m u v c n ↔
    (n.clt ()).threads u = .idle ∧ (n.srv ()).workers v = .idle ∧ (n.clt ()).bindDone = true ∧
    (n.clt ()).destroyWait = false ∧ (n.clt ()).srvNonce = g.srvNonce () ∧ (n.clt ()).chan = some c ∧
    c ∉ (n.clt ()).dead ∧ (∀ x ∈ (n.clt ()).xidRepWindow.xids, Small m x) ∧
    XidWindow.compress ⟨(n.clt ()).xidRepWindow.front, []⟩ (n.clt ()).xidRepWindow.rest =
      (n.clt ()).xidRepWindow ∧ (n.srv ()).aborted = false ∧
    (n.srv ()).conns.lookup (g.cltNonce ()) = some c ∧ c ∉ (n.srv ()).dead ∧
    (n.srv ()).table.rereplyWindow.lookup (g.cltNonce ()) = some (n.clt ()).xidRepWindow.front ∧
    ((n.srv ()).table.replyWindow.lookup (g.cltNonce ())).isSome = true ∧
    ∀ e ∈ (n.srv ()).table.replies (g.cltNonce ()), ¬ e.xid < (n.clt ()).xidRepWindow.front :=
  ⟨fun h => ⟨h.1, h.2, h.3, h.4, h.5, h.6, h.7, h.8, h.9, h.10, h.11, h.12, h.13, h.14,
      h.15⟩,
    fun ⟨h₁, h₂, h₃, h₄, h₅, h₆, h₇, h₈, h₉, h₁₀, h₁₁, h₁₂, h₁₃, h₁₄, h₁₅⟩ =>
      ⟨h₁, h₂, h₃, h₄, h₅, h₆, h₇, h₈, h₉, h₁₀, h₁₁, h₁₂, h₁₃, h₁₄, h₁₅⟩⟩

instance (m : Nat) (u : Tid) (v : Worker) (c : Conn Unit Unit) : Decidable (Ready g m u v c n) :=
  decidable_of_iff' _ ready_iff

/-- The counter of the client stands at `k`. -/
def atCount (k : Nat) (n : RpcNet Unit Unit) : RpcNet Unit Unit :=
  { n with clt := fun _ => { n.clt () with xid := UInt32.ofNat k } }

/-- `n` is `n₀` after the calls up to the `k`-th. -/
structure Looped (g : Config Unit Unit) (m : Nat) (u : Tid) (v : Worker) (n₀ : RpcNet Unit Unit) (k : Nat)
    (n : RpcNet Unit Unit) : Prop where
  beside : Beside m u v n (atCount k n₀)
  old : ∀ e ∈ (n.srv ()).table.replies (g.cltNonce ()), e.xid.toNat < k

variable {m : Nat} {u : Tid} {v : Worker} {c : Conn Unit Unit} {n₀ : RpcNet Unit Unit} {k : Nat}

/-- What the client's next call is to a server. -/
def nextJob (g : Config Unit Unit) (c : Conn Unit Unit) (n : RpcNet Unit Unit) (proc : UInt32) :
    Job (Conn Unit Unit) :=
  ⟨c, (n.clt ()).request (g.clt ()) proc []⟩

theorem Looped.xid (h : Looped g m u v n₀ k n) (proc : UInt32) : (nextJob g c n proc).xid = UInt32.ofNat k := by
  rw [nextJob, Job.xid, Request.xid, Rpcc.request, UInt32.toUInt32_toInt32]
  exact h.beside.clt.xid

theorem Looped.xidRep (h : Looped g m u v n₀ k n) (proc : UInt32) :
    (nextJob g c n proc).xidRep = (n₀.clt ()).xidRepWindow.front := by
  rw [nextJob, Job.xidRep, Rpcc.request, UInt32.toUInt32_toInt32]
  obtain ⟨_, _, hf, _⟩ := h.beside.clt.window.large
  exact hf

theorem toNat_ofNat (hlt : k < 2 ^ 32) : (UInt32.ofNat k).toNat = k := by
  rw [UInt32.toNat_ofNat']
  exact Nat.mod_eq_of_lt hlt

theorem not_small (hk : m ≤ k) (hlt : k < 2 ^ 32) : ¬ Small m (UInt32.ofNat k) := by
  rw [Small, toNat_ofNat hlt]
  omega

theorem Looped.present (hr : Ready g m u v c n₀) (h : Looped g m u v n₀ k n) :
    ∃ l, (n.srv ()).table.replyWindow.lookup (g.cltNonce ()) = some l := by
  obtain ⟨l₀, hl₀⟩ := Option.isSome_iff_exists.mp hr.known
  have hlist := h.beside.srv.table.lists (g.cltNonce ())
  rw [show (atCount k n₀).srv = n₀.srv from rfl, hl₀, Option.map_some] at hlist
  obtain ⟨l, hl, _⟩ := Option.map_eq_some_iff.mp hlist
  exact ⟨l, hl⟩

/-- The server has not seen the call that comes next. -/
theorem Looped.check (hr : Ready g m u v c n₀) (h : Looped g m u v n₀ k n) (hk : m ≤ k) (hlt : k < 2 ^ 32)
    (proc : UInt32) : ∃ t freed, (n.srv ()).table.checkduplicateAndUpdate (nextJob g c n proc).nonce
      (nextJob g c n proc).xid (nextJob g c n proc).xidRep = some (.new, t, freed) ∧
      t.Extends m (n₀.srv ()).table ∧ (∃ e ∈ t.replies (g.cltNonce ()), e.xid = UInt32.ofNat k) ∧
      ∀ e ∈ t.replies (g.cltNonce ()), e.xid.toNat < k + 1 := by
  have htable : (n.srv ()).table.Extends m (n₀.srv ()).table := h.beside.srv.table
  obtain ⟨l, hl⟩ := h.present hr
  have hnonce : (nextJob g c n proc).nonce = g.cltNonce () := rfl
  rw [hnonce, h.xid, h.xidRep]
  have hfloor : (n.srv ()).table.newFloor (g.cltNonce ()) (n₀.clt ()).xidRepWindow.front =
      (n₀.clt ()).xidRepWindow.front := by
    rw [htable.newFloor, ReplyTable.newFloor, hr.floor]
    exact if_neg (UInt32.lt_irrefl _)
  cases hc : (n.srv ()).table.checkduplicateAndUpdate (g.cltNonce ()) (UInt32.ofNat k)
      (n₀.clt ()).xidRepWindow.front with
  | none => exact absurd hc (ReplyTable.checkduplicateAndUpdate_ne_none hl)
  | some res =>
      obtain ⟨st, t, freed⟩ := res
      have hno : ∀ e ∈ (n.srv ()).table.replies (g.cltNonce ()), e.xid ≠ UInt32.ofNat k := by
        intro e he hx
        have hold := h.old e he
        rw [hx, toNat_ofNat hlt] at hold
        exact Nat.lt_irrefl _ hold
      rcases (ReplyTable.checked hc).of_not_mem hno with rfl | ⟨_, hbelow⟩
      · refine ⟨t, freed, rfl, htable.new (not_small hk hlt) hc hr.floor hfloor hr.above, ?_⟩
        cases ReplyTable.checked hc with
        | @new l' kept _ _ _ hl' hsw _ =>
            rw [ReplyTable.replies_withReplies]
            refine ⟨⟨_, List.mem_append_right _ (List.mem_singleton.mpr rfl), rfl⟩, fun e he => ?_⟩
            rcases List.mem_append.mp he with he | he
            · have hold := h.old e (by
                rw [ReplyTable.replies, hl']
                exact hsw.sub.subset he)
              omega
            · rw [List.mem_singleton.mp he, toNat_ofNat hlt]
              omega
      · rw [hfloor] at hbelow
        have hsmall := hr.small _ List.mem_cons_self
        rw [UInt32.lt_iff_toNat_lt, toNat_ofNat hlt] at hbelow
        unfold Small at hsmall
        omega

/-- One more call completes. -/
theorem Looped.step (hr : Ready g m u v c n₀) (h : Looped g m u v n₀ k n) (hm : m ≤ 2 ^ 32) (hn : g.cltNonce () ≠ 0)
    (hk : m ≤ k) (hlt : k < 2 ^ 32) (proc : UInt32) (hp : proc ≠ RpcConst.bind)
    (hprocs : g.procs () proc.toInt32 = true) (body : Bytes) : ∃ n' b,
      (lts g).exec n (completed u v ⟨nextJob g c n proc, 0, body⟩ b) = some n' ∧
        Looped g m u v n₀ (k + 1) n' := by
  obtain ⟨t, freed, hchk, ht, hmem, hold⟩ := h.check hr hk hlt proc
  obtain ⟨l, hl⟩ := h.present hr
  have hclt : Rpcc.Beside m u (n.clt ()) { n₀.clt () with xid := UInt32.ofNat k } := h.beside.clt
  have hsrv : Rpcs.Beside m v (n.srv ()) (n₀.srv ()) := h.beside.srv
  have hx := h.xid (g := g) (c := c) proc
  have hreq : (n.clt ()).request (g.clt ()) proc [] = (nextJob g c n proc).req := rfl
  have hrefuses : (n.clt ()).refuses proc = false := by
    rw [Rpcc.refuses, hclt.bindDone, hclt.destroyWait, hr.bindDone, hr.destroyWait]
    simp [hp]
  have hproc : (nextJob g c n proc).req.hdr.proc.toUInt32 = proc := UInt32.toUInt32_toInt32 proc
  have hsrvNonce : (nextJob g c n proc).req.hdr.srvNonce = g.srvNonce () := hclt.srvNonce.trans hr.srvNonce
  have hprocs' : g.procs () (nextJob g c n proc).req.hdr.proc = true := hprocs
  have hnb : (nextJob g c n proc).req.hdr.proc ≠ RpcConst.bind.toInt32 := by
    intro he
    rw [he, UInt32.toUInt32_toInt32] at hproc
    exact hp hproc.symm
  have hnonce : (nextJob g c n proc).nonce = g.cltNonce () := rfl
  generalize hj : nextJob g c n proc = j at *
  have hjc : j.conn = c := by rw [← hj]; rfl
  have hargs : j.req.args = [] := by rw [← hj]; rfl
  have hxid : j.req.hdr.xid.toUInt32 = (n.clt ()).xid := hx.trans hclt.xid.symm
  have hlarge : m ≤ (n.clt ()).xid.toNat := by
    rw [hclt.xid, toNat_ofNat hlt]
    exact hk
  have h₁ : (Rpcc.lts (g.clt ())).exec (n.clt ()) (request u j) = some ((n.clt ()).requested u c j.req) := by
    rw [request, hproc, hargs, hjc]
    refine Rpcc.exec_requested hreq ((congrFun hclt.threads u).trans hr.thread) hrefuses (hclt.chan.trans hr.chan) ?_
    rw [hclt.dead]
    exact hr.cltAlive
  obtain ⟨t', ht'⟩ := Option.ne_none_iff_exists'.mp (ReplyTable.addReply_ne_none
    (some (n.srv ()).heap.length) (Result.mk j 0 body).buf.length (hx ▸ hmem))
  have hrec := ReplyTable.recorded (by omega) ht'
  have h₂ : (Rpcs.lts (g.srv ())).exec ((n.srv ()).queued j) (Rpcs.working v ⟨j, 0, body⟩ (n.srv ()).heap.length) =
      some (((n.srv ()).queued j).served v ⟨j, 0, body⟩ t' freed) := by
    refine Rpcs.exec_working (s := (n.srv ()).queued j) (hsrv.aborted.trans hr.aborted)
      ((congrFun hsrv.workers v).trans hr.worker) (by simp [Rpcs.queued])
      (hnonce ▸ hn) hsrvNonce hprocs' (hnonce ▸ hl) hchk (hnonce ▸ ht') ?_ ?_
      ⟨.inl (Int32.le_refl 0), fun hb => absurd hb hnb⟩
    · rw [hnonce, hjc]
      exact hsrv.conns ▸ hr.conns
    · rw [hjc]
      exact hsrv.dead ▸ hr.srvAlive
  obtain ⟨un, hdec, _⟩ := decodeReply_buf (j.reply 0 body)
  have h₃ : (Rpcc.lts (g.clt ())).exec ((n.clt ()).requested u c j.req)
      (.gotPdu j.conn (frame (Result.mk j 0 body).buf) :: response u ⟨j, 0, body⟩) =
      some (((n.clt ()).requested u c j.req).answered u (j.reply 0 body).hdr un) := by
    refine Rpcc.exec_answered ?_ ?_ ?_ ?_ hdec hnb
    · simp [Rpcc.requested, Rpcc.setThread, hjc]
    · simp [Rpcc.requested]
    · simp [Rpcc.requested, Job.reply, hxid]
    · rw [show (j.reply 0 body).hdr.xid.toUInt32 = (n.clt ()).xid from hxid]
      exact AList.lookup_insert _
  refine ⟨_, _, exec_completed (r := ⟨j, 0, body⟩) h₁ (hsrv.aborted.trans hr.aborted) h₂ ?_ ?_ ?_ ?_ h₃, ?_⟩
  · exact hsrv.aborted.trans hr.aborted
  · simp [Rpcs.served, Rpcs.queued, Rpcs.setWorker]
  · simp [Rpcs.served, Rpcs.queued, Rpcs.contents]
  · rw [hjc]
    exact hsrv.dead ▸ hr.srvAlive
  · have hcount : UInt32.ofNat k + 1 = UInt32.ofNat (k + 1) := by
      rw [← UInt32.toNat_inj]
      simp
    constructor
    · constructor
      · have hb := hclt.completed hm hr.thread hr.window (j.reply 0 body).hdr hxid hlarge c j.req un
        rw [hcount] at hb
        exact hb
      · exact hsrv.completed hr.worker (ht.record (hx ▸ not_small hk hlt) hrec) freed _
      · exact (perm_erase_append _ _).trans h.beside.up
      · exact (perm_erase_append _ _).trans h.beside.down
      · exact h.beside.made
    · intro e he
      have hxids := hrec.xids (g.cltNonce ())
      have hmem' : e.xid ∈ (t.replies (g.cltNonce ())).map ReplyT.xid := hxids ▸ List.mem_map_of_mem he
      obtain ⟨e', he', hxe⟩ := List.mem_map.mp hmem'
      exact hxe ▸ hold e' he'

end RpcNet
end StanDfs
