import Mathlib.Data.Set.Card
import StanDfs.Lock.Exclusion
import StanDfs.Rpc.Lemmas.Refusals

/-!
# Blocked handlers and the size of the pool

A handler of `acquire` keeps its worker while it waits. Duplicates do not come to the handler, so the
blocked workers belong to distinct calls, and each of these calls is still outstanding at its client.
-/

namespace StanDfs
namespace LockNet

variable {κ : Type*}

/-- The worker is in the condition wait of `acquire`. -/
def Blocked (s : LockNet κ) (w : Worker) : Prop :=
  s.stages w = .waiting ∧ ∃ j clt lid, (s.net.srv ()).workers w = .running j ∧
    lockCall j.req = some (.acquire, clt, lid)

/-- The thread is in a call that has not returned. -/
def Outstanding (s : LockNet κ) (p : κ × Tid) : Prop :=
  ∃ q, ((s.net.clt p.1).threads p.2).inCall = some q

/-- The call is one of `acquire`. -/
def Acquiring (s : LockNet κ) (p : κ × Tid) : Prop :=
  ∃ q clt lid, ((s.net.clt p.1).threads p.2).inCall = some q ∧ lockCall q = some (.acquire, clt, lid)

/-- A copy of a release request waits to be run: it is queued and no handler was called for it, or it is
with a worker that has not run it. -/
inductive ReleaseWaits (s : LockNet κ) (j : Job (Conn κ Unit)) : Prop
  | queued {b : Bytes} : (j.conn, b) ∈ (s.net.srv ()).jobs → decodeReq b = some j.req →
      (∀ j' ∈ (s.net.srv ()).execs, j'.key ≠ j.key) → ReleaseWaits s j
  | held {w : Worker} : (s.net.srv ()).workers w ∈ [.seen j, .save j, .check j] → ReleaseWaits s j
  | entered {w : Worker} : (s.net.srv ()).workers w = .running j → s.stages w = .entered →
      ReleaseWaits s j

variable [DecidableEq κ]

/-- A step of a pool of `N` workers with the handlers of the lock server. The clients call what they
like; no call times out or is cancelled. -/
def poolGuard (N : Nat) (g : Config κ Unit) (s : LockNet κ) : Act κ → Prop
  | .call k t op lid => RpcNet.guard g s.net (rpc g k t op lid)
  | .serve w j => (s.net.srv ()).aborted = false ∧ (s.net.srv ()).workers w = .running j ∧
    s.stages w ≠ .finished ∧ (lockCall j.req).isSome = true
  | .net a => RpcNet.guard g s.net a ∧ RpcNet.Within N a ∧ RpcNet.Patient s.net a ∧
    match a with
    | .srv _ (.handled w j ret body) => (lockOp j.req.hdr.proc).isSome = true → s.Returns w j ret body
    | _ => True

/-- The runs of lock clients and a server with `N` workers, over every interleaving. -/
def pool (N : Nat) (g : Config κ Unit) : Lts (LockNet κ) (Act κ) where
  init s := s = init
  guard := poolGuard N g
  next := next g

variable {N : Nat} {g : Config κ Unit} {s : LockNet κ}

theorem pool_component (N : Nat) (g : Config κ Unit) :
    Lts.Component (pool N g) ((RpcNet.lts g).restrict fun s a => RpcNet.Within N a ∧ RpcNet.Patient s a)
      (fun s => s.net) (netAct g) where
  init s h := by cases h; rfl
  moves s a b hg hp := by
    cases a with
    | call k t op lid =>
        cases hp
        exact ⟨⟨hg, trivial, trivial⟩, rfl⟩
    | serve w j => cases hp
    | net a =>
        cases hp
        exact ⟨⟨hg.1, hg.2.1, hg.2.2.1⟩, rfl⟩
  stays s a _ hp := by
    cases a with
    | call k t op lid => cases hp
    | serve w j => exact net_serve s w j
    | net a => cases hp

theorem pool_run {tr : List (Act κ)} (h : (pool N g).Run tr s) :
    ((RpcNet.lts g).restrict fun s a => RpcNet.Within N a ∧ RpcNet.Patient s a).Run
      (tr.filterMap (netAct g)) s.net :=
  h.component (pool_component N g)

theorem pool_unwrapped {tr : List (Act κ)} (h : (pool N g).Run tr s) (hf : s.net.FewCalls) :
    ((RpcNet.unwrapped g).restrict fun s a => RpcNet.Within N a ∧ RpcNet.Patient s a).Run
      (tr.filterMap (netAct g)) s.net :=
  hf.run_restrict (pool_run h)

/-- A call that was made and that no handler has returned for is outstanding. -/
theorem outstanding_of_issued {tr : List (Act κ)} (h : (pool N g).Run tr s) (hf : s.net.FewCalls)
    (hn : ∀ k, g.cltNonce k ≠ 0)
    {k : κ} {q : Request} (hq : q ∈ (s.net.clt k).issued) (hsrv : q.hdr.srvNonce = 0 ∨ q.hdr.srvNonce = g.srvNonce ())
    (hres : ∀ r ∈ (s.net.srv ()).results, r.job.req ≠ q) :
    ∃ t, ((s.net.clt k).threads t).inCall = some q := by
  have hr := (pool_unwrapped h hf).restrict_mono (D := RpcNet.Patient) fun _ _ hc => hc.2
  rcases RpcNet.concluded_of_run hr hn k q hq with hin | ⟨_, r, hr, hreq⟩ | ⟨_, h0, hne⟩
  · exact hin
  · exact absurd hreq (hres r hr)
  · exact absurd hsrv (not_or.mpr ⟨h0, hne⟩)

theorem outstanding_of_running {tr : List (Act κ)} (h : (pool N g).Run tr s) (hf : s.net.FewCalls)
    (hn : ∀ k, g.cltNonce k ≠ 0)
    {w : Worker} {j : Job (Conn κ Unit)} (hw : (s.net.srv ()).workers w = .running j) :
    ∃ t, ((s.net.clt j.conn.clt).threads t).inCall = some j.req := by
  have hr := (pool_unwrapped h hf).of_restrict
  have hsrv := RpcNet.srv_run hr.of_restrict ()
  have hok := (RpcNet.sourced_srv hr.of_restrict ()).workers w
  rw [hw] at hok
  obtain ⟨hfrom, ha⟩ := (RpcNet.sourced_srv hr.of_restrict ()).execs j hok
  obtain ⟨_, hq, hnonce⟩ := RpcNet.job_of_run hr hfrom
  have hj : j.nonce ≠ 0 := hnonce ▸ hn _
  refine outstanding_of_issued h hf hn hq ha fun r hres hreq => ?_
  exact Rpcs.not_resulted_of_running hsrv hw hj r hres (by rw [Job.key, Job.key, Job.nonce, Job.xid, hreq]; rfl)

/-! ## Counting -/

/-- The call of the handler that a worker runs. -/
def runs (s : LockNet κ) (w : Worker) : UInt32 × UInt32 :=
  match (s.net.srv ()).workers w with
  | .running j => j.key
  | _ => (0, 0)

/-- The call that a thread is in. -/
def calls (s : LockNet κ) (p : κ × Tid) : UInt32 × UInt32 :=
  match ((s.net.clt p.1).threads p.2).inCall with
  | some q => (q.hdr.cltNonce, q.xid)
  | none => (0, 0)

theorem injOn_runs {tr : List (Act κ)} (h : (pool N g).Run tr s) (hf : s.net.FewCalls)
    (hn : ∀ k, g.cltNonce k ≠ 0) :
    Set.InjOn s.runs {w | s.Blocked w} := by
  have hr := (pool_unwrapped h hf).of_restrict
  rintro w ⟨_, j, _, _, hw, _⟩ w' ⟨_, j', _, _, hw', _⟩ heq
  simp only [runs, hw, hw'] at heq
  by_contra hne
  have hok := (RpcNet.sourced_srv hr.of_restrict ()).workers w
  rw [hw] at hok
  have hj : j.nonce ≠ 0 := by
    rw [(RpcNet.job_of_run hr ((RpcNet.sourced_srv hr.of_restrict ()).execs j hok).1).2.2]
    exact hn _
  exact (Rpcs.recording_of_run (RpcNet.srv_run hr.of_restrict ())).apart w w' j j' hne (by rw [hw]; rfl)
    (by rw [hw']; rfl) hj heq

theorem runs_subset_calls {tr : List (Act κ)} (h : (pool N g).Run tr s) (hf : s.net.FewCalls)
    (hn : ∀ k, g.cltNonce k ≠ 0) :
    s.runs '' {w | s.Blocked w} ⊆ s.calls '' {p | s.Acquiring p} := by
  rintro _ ⟨w, ⟨_, j, clt, lid, hw, hc⟩, rfl⟩
  obtain ⟨t, ht⟩ := outstanding_of_running h hf hn hw
  refine ⟨(j.conn.clt, t), ⟨j.req, clt, lid, ht, hc⟩, ?_⟩
  simp only [calls, ht, runs, hw]
  rfl

theorem blocked_le_acquiring {tr : List (Act κ)} (h : (pool N g).Run tr s) (hf : s.net.FewCalls)
    (hn : ∀ k, g.cltNonce k ≠ 0) :
    {w | s.Blocked w}.encard ≤ {p | s.Acquiring p}.encard :=
  calc {w | s.Blocked w}.encard = (s.runs '' {w | s.Blocked w}).encard := (injOn_runs h hf hn).encard_image.symm
    _ ≤ (s.calls '' {p | s.Acquiring p}).encard := Set.encard_le_encard (runs_subset_calls h hf hn)
    _ ≤ {p | s.Acquiring p}.encard := Set.encard_image_le _ _

theorem not_isBind_of_lockCall {q : Request} {op : LockOp} {clt : Int32} {lid : UInt64}
    (h : lockCall q = some (op, clt, lid)) : ¬ Rpcc.IsBind q := by
  intro hb
  have hop : lockOp q.hdr.proc = none := by
    rw [show q.hdr.proc = RpcConst.bind.toInt32 from hb]
    decide
  simp [lockCall, hop] at h

theorem outstanding_of_queued {tr : List (Act κ)} (h : (pool N g).Run tr s) (hf : s.net.FewCalls)
    (hn : ∀ k, g.cltNonce k ≠ 0)
    {j : Job (Conn κ Unit)} {b : Bytes} (hj : (j.conn, b) ∈ (s.net.srv ()).jobs)
    (hb : decodeReq b = some j.req) (hrel : ∃ clt lid, lockCall j.req = some (.release, clt, lid))
    (hex : ∀ j' ∈ (s.net.srv ()).execs, j'.key ≠ j.key) :
    ∃ t, ((s.net.clt j.conn.clt).threads t).inCall = some j.req := by
  have hr := (pool_unwrapped h hf).of_restrict
  have hs := RpcNet.sourced_srv hr.of_restrict ()
  obtain ⟨_, hq, hnonce⟩ := RpcNet.job_of_run hr ⟨b, hs.jobs _ hj, hb⟩
  obtain ⟨clt, lid, hc⟩ := hrel
  refine outstanding_of_issued h hf hn hq (.inr ?_) fun r hres hreq => ?_
  · obtain ⟨_, hi⟩ := (RpcNet.bound_of_run hr _).issued _ hq (not_isBind_of_lockCall hc)
    exact hi.symm
  · exact hex r.job (hs.results r hres).1 (by rw [Job.key, Job.key, Job.nonce, Job.xid, hreq]; rfl)

/-- A release that is outstanding leaves room for a worker that is not blocked. -/
theorem exists_not_blocked {tr : List (Act κ)} (h : (pool N g).Run tr s) (hf : s.net.FewCalls)
    (hn : ∀ k, g.cltNonce k ≠ 0)
    (hout : {p | s.Outstanding p}.encard ≤ N) {p : κ × Tid} (hp : s.Outstanding p)
    (hna : ¬ s.Acquiring p) : ∃ w < N, ¬ s.Blocked w := by
  by_contra! hall
  have hle : (N : ℕ∞) ≤ {p | s.Acquiring p}.encard :=
    calc (N : ℕ∞) = (Finset.range N : Set Worker).encard := by
          rw [Set.encard_coe_eq_coe_finsetCard, Finset.card_range]
      _ ≤ {w | s.Blocked w}.encard := Set.encard_le_encard fun w hw => hall w (by simpa using hw)
      _ ≤ {p | s.Acquiring p}.encard := blocked_le_acquiring h hf hn
  have hlt : {p | s.Acquiring p}.encard + 1 ≤ (N : ℕ∞) := by
    rw [← Set.encard_insert_of_notMem (show p ∉ {p | s.Acquiring p} from hna)]
    refine (Set.encard_le_encard ?_).trans hout
    rintro p' (rfl | ⟨q, _, _, hq, _⟩)
    · exact hp
    · exact ⟨q, hq⟩
  have hfin : {p | s.Acquiring p}.encard ≠ ⊤ := by
    intro htop
    rw [htop] at hlt
    simp at hlt
  exact absurd ((ENat.add_one_le_iff hfin).mp hlt) (not_lt.mpr hle)

instance (s : RpcNet κ Unit) (a : RpcNet.Act κ Unit) : Decidable (RpcNet.Patient s a) := by
  unfold RpcNet.Patient
  apply @RpcNet.Act.casesOn _ _ _ a
  · intro k a
    apply @Rpcc.Act.casesOn _ _ a <;> intros <;> infer_instance
  · intros
    infer_instance

instance (s : LockNet κ) (a : Act κ) : Decidable ((pool N g).guard s a) := by
  unfold pool poolGuard
  apply @Act.casesOn _ _ a
  case net =>
      intro a
      apply @RpcNet.Act.casesOn _ _ _ a
      · intros
        infer_instance
      · intro i a
        apply @Rpcs.Act.casesOn _ _ a <;> intros <;> infer_instance
  all_goals
    intros
    infer_instance

/-- The release of the thread that got the lock. -/
def soloRelease : Job (Conn Unit Unit) :=
  ⟨Solo.conn 0, ⟨⟨4, LockProtocol.release.toInt32, 5, 7, 2⟩, lockArgs 5 9⟩⟩

/-- The pool of `N` workers when only the first `N` threads of the client make calls. -/
def poolOf (N : Nat) (g : Config Unit Unit) : Lts (LockNet Unit) (Act Unit) :=
  (pool N g).restrict fun _ a => ∀ b ∈ netAct g a, RpcNet.CalledBy N b

/-- The second call of `bind`, and a call of `stat`. -/
def soloBind : Request := ⟨⟨2, 1, 5, 0, 0⟩, [0, 0, 0, 0]⟩

def soloStat (xid xidRep : UInt32) : Request :=
  ⟨⟨xid.toInt32, LockProtocol.stat.toInt32, 5, 7, xidRep.toInt32⟩, []⟩

def soloJob (q : Request) : Job (Conn Unit Unit) := ⟨Solo.conn 0, q⟩

/-- A worker handles a request up to the end of the `send` of its reply. -/
def soloServed (q : Request) (b : Addr) (body : Bytes) : List (RpcNet.Act Unit Unit) :=
  Solo.reply 0 (soloJob q) b body ++ [.srv () (.sent 0 (soloJob q) (Solo.conn 0) b 28)]

/-- Two threads bind; the reply to the first is on its way. -/
def soloBinds : List (RpcNet.Act Unit Unit) :=
  [.clt () (.call1 0 RpcConst.bind [0, 0, 0, 0])] ++ Solo.transmit 0 Solo.bindReq (Solo.conn 0) true ++
    Solo.dispatch 0 (soloJob Solo.bindReq) ++ soloServed Solo.bindReq 0 (BigEndian.bytes 7) ++
    [.clt () (.call1 1 RpcConst.bind [0, 0, 0, 0])] ++ Solo.transmit 1 soloBind (Solo.conn 0) false ++
    Solo.dispatch 0 (soloJob soloBind) ++ soloServed soloBind 1 (BigEndian.bytes 7) ++
    Solo.finish 1 (soloJob soloBind) (BigEndian.bytes 7) ++ [.clt () (.bound 1 7)]

/-- Then the second thread gets the lock with call 3, and call 4 is on its way. -/
def soloEarly : List (Act Unit) :=
  soloBinds.map .net ++ [.call () 1 .acquire 9] ++
    (Solo.transmit 1 (soloReq 3 0) (Solo.conn 0) false ++ Solo.dispatch 0 (soloJob (soloReq 3 0))).map .net ++
    [.serve 0 (soloJob (soloReq 3 0))] ++
    (soloServed (soloReq 3 0) 2 [0, 0, 0, 0] ++ Solo.finish 1 (soloJob (soloReq 3 0)) [0, 0, 0, 0]).map .net ++
    [.net (.clt () (.call1 3 LockProtocol.stat []))]

/-- The first thread has bound, and call 1 comes to the check. -/
def soloRaise : List (RpcNet.Act Unit Unit) :=
  Solo.finish 0 (soloJob Solo.bindReq) (BigEndian.bytes 7) ++
    [.clt () (.bound 0 7), .clt () (.call1 1 LockProtocol.stat [])] ++
    Solo.transmit 1 (soloStat 1 3) (Solo.conn 0) false ++ Solo.dispatch 0 (soloJob (soloStat 1 3))

/-- The connection is lost, and call 0 is sent again and forgotten. -/
def soloForget : List (RpcNet.Act Unit Unit) :=
  let f (no : Nat) : Call (Conn Unit Unit) := ⟨soloReq 0 0, some (Solo.conn no)⟩
  let j : Job (Conn Unit Unit) := ⟨Solo.conn 1, soloReq 0 0⟩
  let r : Reply := j.reply RpcConst.atmostonceFailure []
  [.clt () (.die (Solo.conn 0)), .clt () (.timedout 2 (f 0)), .clt () (.isdead 2 (f 0)),
      .clt () (.getRefconn 2 (f 0) (some (Solo.conn 1))), .clt () (.tx 2 (f 1) (Solo.conn 1) true)] ++
    Solo.dispatch 3 j ++
    [.srv () (.txReply 3 j r true), .clt () (.gotPdu (Solo.conn 1) (frame r.buf)), .clt () (.woken 2 (f 1)),
      .clt () (.leave 2 (f 1)), .clt () (.ret 2 (f 1) RpcConst.atmostonceFailure)]

/-- Call 0 waits for the lock when it is forgotten. -/
def soloLate : List (Act Unit) :=
  [.call () 2 .acquire 9] ++
    (Solo.transmit 2 (soloReq 0 0) (Solo.conn 0) false ++ Solo.dispatch 1 (soloJob (soloReq 0 0))).map .net ++
    [.serve 1 (soloJob (soloReq 0 0))] ++ (soloRaise ++ soloForget).map .net

instance (N : Nat) (g : Config Unit Unit) (s : LockNet Unit) (a : Act Unit) : Decidable ((poolOf N g).guard s a) :=
  inferInstanceAs (Decidable (_ ∧ _))

theorem poolOf_calls (g : Config Unit Unit) (N : Nat) (v : Worker) : Calls g N v (poolOf N g) where
  next _ _ := rfl
  guard s a hg ha := by
    refine ⟨⟨hg, ?_⟩, fun b hb => ?_⟩
    · cases a with
      | clt k a =>
          cases a with
          | cancel => exact ha.elim
          | ret t f r =>
              refine ⟨trivial, ?_, trivial⟩
              -- What a call that is not done returns is a failure.
              by_contra hd
              exact ha.2 (hg.1.2.trans (if_neg hd))
          | _ => exact ⟨trivial, trivial, trivial⟩
      | srv i a =>
          cases a with
          | begin w c b => exact ⟨ha, trivial, trivial⟩
          | handled w j ret body =>
              refine ⟨trivial, trivial, fun hop => ?_⟩
              rw [ha.2] at hop
              cases hop
          | _ => exact ⟨trivial, trivial, trivial⟩
    · cases hb
      cases a with
      | clt k a =>
          cases a with
          | call1 t proc args => exact ha.1
          | _ => trivial
      | srv i a => trivial

theorem Beside.pool_step {m : Nat} {u : Tid} {v : Worker} {g : Config Unit Unit} {s s₀ : LockNet Unit}
    (h : Beside m u v s s₀) (hm : m ≤ 2 ^ 32) {a : Act Unit} (hg : poolGuard N g s₀ a)
    (ha : Apart g m u v s₀ a) : poolGuard N g s a ∧ Beside m u v (next g s a) (next g s₀ a) := by
  cases a with
  | call k t op lid => exact h.call hm hg ha
  | serve w j =>
      obtain ⟨hab, hw, hst, hc⟩ := hg
      exact ⟨⟨h.net.srv.aborted.trans hab, (congrFun h.net.srv.workers w).trans hw, h.stages w ha ▸ hst, hc⟩, h.serve⟩
  | net a =>
      obtain ⟨hga, hwithin, hpatient, hret⟩ := hg
      obtain ⟨hg', hn⟩ := h.rpc hm hga ha
      refine ⟨⟨hg', hwithin, ?_, ?_⟩, hn⟩
      · cases a with
        | srv i a => trivial
        | clt k a =>
            cases a with
            | ret t f r => exact (congrArg Caller.done (h.net.clt.callers t (ha.1 t rfl))).trans hpatient
            | _ => exact hpatient
      · cases a with
        | clt k a => exact hret
        | srv i a =>
            cases a with
            | handled w j ret body => exact ha.elim
            | _ => exact hret

end LockNet
end StanDfs
