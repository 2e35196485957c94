import StanDfs.Lock.Beside
import StanDfs.Rpc.Authentic
import StanDfs.Rpc.Lemmas.Steps

/-!
# Mutual exclusion

A thread owns a lock from the moment its `acquire` is done at the server to the moment its `release` is.
No two threads own a lock, and what a thread owns is locked by its client. A handler of a call runs once,
so a late `release` of the same client cannot free the lock of another thread.
-/

namespace StanDfs

namespace LockNet

variable {κ : Type*}

/-! ## Ownership -/

/-- The thread is in a call of the operation on the lock. -/
def Calling (s : LockNet κ) (op : LockOp) (k : κ) (t : Tid) (lid : UInt64) (q : Request) : Prop :=
  s.net.inCall k t = some q ∧ ∃ clt, lockCall q = some (op, clt, lid)

def Owns (g : Config κ Unit) (s : LockNet κ) (k : κ) (t : Tid) (lid : UInt64) : Prop :=
  (k, t, lid) ∈ s.held ∨ (∃ q, s.Calling .acquire k t lid q ∧ (g.cltNonce k, q.xid) ∈ s.served) ∨
    ∃ q, s.Calling .release k t lid q ∧ (g.cltNonce k, q.xid) ∉ s.served

structure Exclusive (g : Config κ Unit) (s : LockNet κ) : Prop where
  unique : ∀ k t k' t' lid, Owns g s k t lid → Owns g s k' t' lid → (k, t) = (k', t')
  locked : ∀ k t lid, Owns g s k t lid → LockServer.LockedBy s.locks (g.cltNonce k).toInt32 lid
  releasing : ∀ k t lid q, s.Calling .release k t lid q → (k, t, lid) ∉ s.held

/-- A thread that holds nothing new and is in no new call owns nothing new. -/
theorem Owns.of_calling {g : Config κ Unit} {s s' : LockNet κ} {k : κ} {t : Tid} {lid : UInt64}
    (h : Owns g s' k t lid) (hs : s'.served = s.served)
    (hm : (k, t, lid) ∈ s'.held → Owns g s k t lid)
    (hc : ∀ op q, s'.Calling op k t lid q → s.Calling op k t lid q) : Owns g s k t lid := by
  rcases h with h | ⟨q, h, hq⟩ | ⟨q, h, hq⟩
  · exact hm h
  · exact .inr (.inl ⟨q, hc _ q h, hs ▸ hq⟩)
  · exact .inr (.inr ⟨q, hc _ q h, hs ▸ hq⟩)

/-- A step that leaves the locks alone and makes no owner keeps the owners apart. -/
theorem Exclusive.of_owns {g : Config κ Unit} {s s' : LockNet κ} (h : Exclusive g s) (hl : s'.locks = s.locks)
    (ho : ∀ k t lid, Owns g s' k t lid → Owns g s k t lid)
    (hr : ∀ k t lid q, s'.Calling .release k t lid q → (k, t, lid) ∉ s'.held) : Exclusive g s' where
  unique k t k' t' lid h₁ h₂ := h.unique k t k' t' lid (ho _ _ _ h₁) (ho _ _ _ h₂)
  locked k t lid h₁ := hl ▸ h.locked k t lid (ho _ _ _ h₁)
  releasing := hr

/-- Only a thread that returns from an `acquire` gets to hold a lock. -/
theorem mem_acquired_ret {k k' : κ} {t t' : Tid} {f : Call (Conn κ Unit)} {r : Int32} {lid : UInt64}
    {held : List (κ × Tid × UInt64)} (h : (k', t', lid) ∈ acquired (.clt k (.ret t f r)) held) :
    (k', t', lid) ∈ held ∨ (k', t') = (k, t) ∧ ∃ clt, lockCall f.req = some (.acquire, clt, lid) := by
  simp only [acquired] at h
  split at h
  · rename_i clt lid' hcall
    rcases List.mem_cons.mp h with h | h
    · cases h
      exact .inr ⟨rfl, clt, hcall⟩
    · exact .inl h
  · exact .inl h

/-! ## The server -/

/-- The operation of a call is done once its handler has finished, and of every call that has a good
result. -/
structure Serving (v : Rpcs (Conn κ Unit)) (stages : Worker → Stage) (calls : List (UInt32 × UInt32)) :
    Prop where
  finished : ∀ w, stages w = .finished → ∃ j, v.workers w = .running j ∧ j.key ∈ calls
  served : ∀ x ∈ calls, (∃ w j, v.workers w = .running j ∧ stages w = .finished ∧ j.key = x) ∨
    ∃ r ∈ v.results, r.job.key = x
  results : ∀ r ∈ v.results, (lockCall r.job.req).isSome = true → r.ret = LockProtocol.ok →
    r.job.key ∈ calls

theorem isSome_lockOp {q : Request} (h : (lockCall q).isSome = true) :
    (lockOp q.hdr.proc).isSome = true ∧ ∃ a, lockArgsOf q.args = some a := by
  unfold lockCall at h
  split at h
  · rename_i op clt lid hop hargs
    exact ⟨by rw [hop]; rfl, _, hargs⟩
  · cases h

theorem lockOp_proc (op : LockOp) : lockOp op.proc.toInt32 = some op := by
  cases op <;> decide

theorem lockCall_request (g : Config κ Unit) (n : RpcNet κ Unit) (k : κ) (op : LockOp) (lid : UInt64) :
    lockCall ((n.clt k).request (g.clt k) op.proc (lockArgs (g.cltNonce k) lid))
      = some (op, (g.cltNonce k).toInt32, lid) := by
  simp only [lockCall, Rpcc.request, lockOp_proc, lockArgsOf_lockArgs]

theorem lockCall_other {g : Config κ Unit} {n : RpcNet κ Unit} {k : κ} {proc : UInt32} {args : Bytes}
    (h : lockOp proc.toInt32 = none) : lockCall ((n.clt k).request (g.clt k) proc args) = none := by
  simp only [lockCall, Rpcc.request, h]

theorem Serving.finish {s : LockNet κ} {w : Worker} {j : Job (Conn κ Unit)} {m : LockMap}
    (h : Serving (s.net.srv ()) s.stages s.served) (hw : (s.net.srv ()).workers w = .running j) :
    Serving ((s.finish w j m).net.srv ()) (s.finish w j m).stages (s.finish w j m).served where
  finished w' hw' := by
    by_cases hww : w' = w
    · subst hww
      exact ⟨j, hw, by simp [LockNet.finish]⟩
    · simp only [LockNet.finish, Function.update_of_ne hww] at hw'
      obtain ⟨j', hj', hk⟩ := h.finished w' hw'
      exact ⟨j', hj', List.mem_append_left _ hk⟩
  served x hx := by
    rcases List.mem_append.mp hx with hx | hx
    · refine (h.served x hx).imp_left fun ⟨w', j', hj', hs, hk⟩ => ⟨w', j', hj', ?_, hk⟩
      by_cases hww : w' = w
      · simp [LockNet.finish, hww]
      · simpa [LockNet.finish, Function.update_of_ne hww] using hs
    · rw [List.mem_singleton.mp hx]
      exact .inl ⟨w, j, hw, by simp [LockNet.finish], rfl⟩
  results r hr hc hok := List.mem_append_left _ (h.results r hr hc hok)

theorem Serving.wait {v : Rpcs (Conn κ Unit)} {stages : Worker → Stage} {served : List (UInt32 × UInt32)}
    {w : Worker} (h : Serving v stages served) (hw : stages w ≠ .finished) :
    Serving v (Function.update stages w .waiting) served := by
  have hold : ∀ w', Function.update stages w .waiting w' = .finished ↔ stages w' = .finished := by
    intro w'
    by_cases hww : w' = w
    · subst hww
      simp [hw]
    · rw [Function.update_of_ne hww]
  exact { h with
    finished := fun w' hw' => h.finished w' ((hold w').mp hw')
    served := fun x hx => (h.served x hx).imp_left fun ⟨w', j', hj', hs, hk⟩ =>
      ⟨w', j', hj', (hold w').mpr hs, hk⟩ }

variable [DecidableEq κ] {g : Config κ Unit} {s : LockNet κ}

theorem Serving.handled {w : Worker} {j : Job (Conn κ Unit)} {ret : Int32} {body : Bytes}
    (h : Serving (s.net.srv ()) s.stages s.served)
    (hg : RpcNet.guard g s.net (.srv () (.handled w j ret body)))
    (hret : (lockOp j.req.hdr.proc).isSome = true → s.Returns w j ret body) :
    Serving ((s.net.srv ()).next (g.srv ()) (.handled w j ret body))
      (Function.update s.stages w .entered) s.served := by
  have hrun : (s.net.srv ()).workers w = .running j := hg.1.2.1
  have hkeep : ∀ {w' j'}, w' ≠ w → (s.net.srv ()).workers w' = .running j' →
      ((s.net.srv ()).next (g.srv ()) (.handled w j ret body)).workers w' = .running j' := by
    intro w' j' hww hj'
    rcases Rpcs.running_next hg.1 hj' with hj' | ⟨ret, body, ha⟩
    · exact hj'
    · cases ha
      exact absurd rfl hww
  have hres : ((s.net.srv ()).next (g.srv ()) (.handled w j ret body)).results =
      (s.net.srv ()).results ++ [⟨j, ret, body⟩] := by
    rcases Rpcs.results_next (e := g.srv ()) (s.net.srv ()) (.handled w j ret body) with hr | ⟨_, _, _, _, ha, hr⟩
    · simp only [Rpcs.next, Rpcs.handled] at hr
      split at hr <;> simp [Rpcs.setWorker] at hr
    · cases ha
      exact hr
  refine ⟨fun w' hw' => ?_, fun x hx => ?_, fun r hr hc hok => ?_⟩
  · have hww : w' ≠ w := by
      rintro rfl
      simp at hw'
    rw [Function.update_of_ne hww] at hw'
    obtain ⟨j', hj', hk⟩ := h.finished w' hw'
    exact ⟨j', hkeep hww hj', hk⟩
  · rw [hres]
    rcases h.served x hx with ⟨w', j', hj', hs, hk⟩ | ⟨r, hr, hk⟩
    · by_cases hww : w' = w
      · subst hww
        rw [hrun, Pc.running.injEq] at hj'
        subst hj'
        exact .inr ⟨_, List.mem_append_right _ (List.mem_singleton.mpr rfl), hk⟩
      · exact .inl ⟨w', j', hkeep hww hj', by rw [Function.update_of_ne hww]; exact hs, hk⟩
    · exact .inr ⟨r, List.mem_append_left _ hr, hk⟩
  · rw [hres] at hr
    rcases List.mem_append.mp hr with hr | hr
    · exact h.results r hr hc hok
    · obtain rfl := List.mem_singleton.mp hr
      obtain ⟨hop, a, ha⟩ := isSome_lockOp hc
      have hret := hret hop
      have ha : lockArgsOf j.req.args = some a := ha
      simp only [Returns, ha] at hret
      obtain ⟨j', hj', hk⟩ := h.finished w hret.1
      rw [hrun, Pc.running.injEq] at hj'
      exact hj' ▸ hk

theorem serving_step {a : Act κ} (h : Serving (s.net.srv ()) s.stages s.served) (hg : guard g s a) :
    Serving ((next g s a).net.srv ()) (next g s a).stages (next g s a).served := by
  cases a with
  | call k t op lid => exact h
  | serve w j =>
      simp only [next, serve]
      split
      · split
        · exact h.finish hg.2.1
        · exact h.wait hg.2.2.1
      · exact h.finish hg.2.1
      · exact h
  | net a =>
      cases a with
      | clt k a => exact h
      | srv i a =>
          have hsrv : (next g s (.net (.srv i a))).net.srv () = (s.net.srv ()).next (g.srv ()) a := by
            simp [next, RpcNet.next]
          rw [hsrv]
          by_cases ha : ∃ w j ret body, a = .handled w j ret body
          · obtain ⟨w, j, ret, body, rfl⟩ := ha
            exact h.handled hg.1 hg.2
          · have hkeep : ∀ {w j}, (s.net.srv ()).workers w = .running j →
                ((s.net.srv ()).next (g.srv ()) a).workers w = .running j := by
              intro w j hj
              rcases Rpcs.running_next hg.1.1 hj with hj | ⟨ret, body, rfl⟩
              · exact hj
              · exact absurd ⟨w, j, ret, body, rfl⟩ ha
            have hres : ((s.net.srv ()).next (g.srv ()) a).results = (s.net.srv ()).results := by
              rcases Rpcs.results_next (e := g.srv ()) (s.net.srv ()) a with hr | ⟨w, j, ret, body, rfl, _⟩
              · exact hr
              · exact absurd ⟨w, j, ret, body, rfl⟩ ha
            have hst : (next g s (.net (.srv i a))).stages = s.stages := by
              cases a with
              | handled w j ret body => exact absurd ⟨w, j, ret, body, rfl⟩ ha
              | _ => rfl
            rw [hst]
            refine ⟨fun w hw => ?_, fun x hx => ?_, fun r hr => ?_⟩
            · obtain ⟨j, hj, hk⟩ := h.finished w hw
              exact ⟨j, hkeep hj, hk⟩
            · rw [hres]
              rcases h.served x hx with ⟨w, j, hj, hs⟩ | hr
              · exact .inl ⟨w, j, hkeep hj, hs⟩
              · exact .inr hr
            · rw [hres] at hr
              exact h.results r hr

theorem net_run {tr : List (Act κ)} (h : (lts g).Run tr s) :
    (RpcNet.lts g).Run (tr.filterMap (netAct g)) s.net :=
  h.component (net_component g)

/-- The runs in which no client's `xid_` wraps around. -/
def unwrapped (g : Config κ Unit) : Lts (LockNet κ) (Act κ) :=
  (lts g).restrict fun s a => ∀ b ∈ netAct g a, s.net.Unwrapped b

theorem net_unwrapped {tr : List (Act κ)} (h : (unwrapped g).Run tr s) :
    (RpcNet.unwrapped g).Run (tr.filterMap (netAct g)) s.net :=
  h.component ((net_component g).restrict fun _ _ b hc hp => hc b hp)

theorem unwrapped_of_fewCalls {tr : List (Act κ)} (h : (lts g).Run tr s) (hf : s.net.FewCalls) :
    (unwrapped g).Run tr s :=
  h.restrict_of_component (net_component g) (by rintro s s' rfl rfl; rfl) (hf.run (net_run h))

theorem serving_of_run {tr : List (Act κ)} (h : (lts g).Run tr s) :
    Serving (s.net.srv ()) s.stages s.served := by
  refine h.invariant (I := fun _ s => Serving (s.net.srv ()) s.stages s.served) ?_ ?_
  · rintro s rfl
    exact ⟨fun w hw => (by cases hw), fun x hx => (by cases hx), fun r hr => (by cases hr)⟩
  · intro tr s a _ hs hg
    exact serving_step hs hg

theorem issued_of_running {tr : List (RpcNet.Act κ Unit)} {n : RpcNet κ Unit} (h : (RpcNet.unwrapped g).Run tr n)
    {j : Job (Conn κ Unit)} (hj : j ∈ (n.srv ()).execs) :
    j.req ∈ (n.clt j.conn.clt).issued ∧ j.nonce = g.cltNonce j.conn.clt :=
  (RpcNet.job_of_run h ((RpcNet.sourced_srv h.of_restrict ()).execs j hj).1).2

theorem issued_of_served {tr : List (Act κ)} (h : (unwrapped g).Run tr s) {k : κ} (hn : g.cltNonce k ≠ 0)
    {x : UInt32} (hx : (g.cltNonce k, x) ∈ s.served) : ∃ q ∈ (s.net.clt k).issued, q.xid = x := by
  have hr := net_unwrapped h
  have hs := RpcNet.sourced_srv hr.of_restrict ()
  obtain ⟨j, hj, hk⟩ : ∃ j ∈ (s.net.srv ()).execs, j.key = (g.cltNonce k, x) := by
    rcases (serving_of_run h.of_restrict).served _ hx with ⟨w, j, hj, -, hk⟩ | ⟨r, hr, hk⟩
    · have hok := hs.workers w
      rw [hj] at hok
      exact ⟨j, hok, hk⟩
    · exact ⟨r.job, (hs.results r hr).1, hk⟩
  obtain ⟨hq, hnonce⟩ := issued_of_running hr hj
  have hclt : k = j.conn.clt := g.clt_inj k _ hn (hnonce ▸ (congrArg Prod.fst hk).symm)
  exact ⟨j.req, hclt ▸ hq, congrArg Prod.snd hk⟩

/-! ## The clients -/

/-- Lock requests carry the id of their client, and have a good result once their call has returned. -/
structure Asking (g : Config κ Unit) (n : RpcNet κ Unit) : Prop where
  args : ∀ k, ∀ q ∈ (n.clt k).issued, ∀ op clt lid, lockCall q = some (op, clt, lid) →
    clt = (g.cltNonce k).toInt32
  done : ∀ k, ∀ q ∈ (n.clt k).issued, (lockCall q).isSome = true →
    (∃ t, n.inCall k t = some q) ∨
      ∃ r ∈ (n.srv ()).results, r.job.req = q ∧ r.ret = LockProtocol.ok

theorem Asking.step {n : RpcNet κ Unit} {a : RpcNet.Act κ Unit} {tr : List (RpcNet.Act κ Unit)}
    (h : Asking g n) (hr : (RpcNet.unwrapped g).Run tr n) (hg : RpcNet.guard g n a)
    (hcall : ∀ k t proc args op clt lid, a = .clt k (.call1 t proc args) →
      lockCall ((n.clt k).request (g.clt k) proc args) = some (op, clt, lid) →
        clt = (g.cltNonce k).toInt32)
    (hret : ∀ k t f r, a = .clt k (.ret t f r) → (lockCall f.req).isSome = true → r = LockProtocol.ok) :
    Asking g (RpcNet.next g n a) := by
  have hl : (n.srv ()).results ⊆ ((RpcNet.next g n a).srv ()).results :=
    (RpcNet.later_next n a).results ()
  have hc := RpcNet.callStep hg
  generalize RpcNet.next g n a = n' at hl hc
  cases hc with
  | other _ _ hi hin =>
      refine ⟨fun k q hq => h.args k q (hi k ▸ hq), fun k q hq hs => ?_⟩
      refine (h.done k q (hi k ▸ hq) hs).imp (fun ⟨t, ht⟩ => ⟨t, (hin k t).trans ht⟩) ?_
      exact fun ⟨r, hr, hp⟩ => ⟨r, hl hr, hp⟩
  | @begins k t proc args q _ hq hn hs ho hi =>
      refine ⟨fun k' q' hq' op clt lid hc => ?_, fun k' q' hq' hc => ?_⟩
      · rcases (hi k' q').mp hq' with hq' | ⟨rfl, rfl⟩
        · exact h.args k' q' hq' op clt lid hc
        · exact hcall _ _ _ _ op clt lid rfl (hq ▸ hc)
      · rcases (hi k' q').mp hq' with hq' | ⟨rfl, rfl⟩
        · rcases h.done k' q' hq' hc with ⟨t', ht'⟩ | ⟨r, hr, hp⟩
          · refine .inl ⟨t', (ho k' t' ?_).trans ht'⟩
            intro heq
            cases heq
            rw [hn] at ht'
            cases ht'
          · exact .inr ⟨r, hl hr, hp⟩
        · exact .inl ⟨t, hs⟩
  | @ends k t f r hs hn ho hi =>
      refine ⟨fun k q hq => h.args k q (hi k ▸ hq), fun k' q hq hc => ?_⟩
      rcases h.done k' q (hi k' ▸ hq) hc with ⟨t', ht'⟩ | ⟨r', hr', hp⟩
      · by_cases hk : (k', t') = (k, t)
        · cases hk
          rw [hs, Option.some.injEq] at ht'
          subst ht'
          have hok := hret _ _ _ _ rfl hc
          obtain ⟨-, i, res, hres, -, hreq, hrr, -⟩ :=
            RpcNet.ret_authentic hr hg.1 (by rw [hok]; decide)
          exact .inr ⟨res, hl hres, hreq, hrr.trans hok⟩
        · exact .inl ⟨t', (ho k' t' hk).trans ht'⟩
      · exact .inr ⟨r', hl hr', hp⟩

theorem asking_of_run {tr : List (Act κ)} (h : (unwrapped g).Run tr s) : Asking g s.net := by
  refine h.invariant (I := fun _ s => Asking g s.net) ?_ ?_
  · rintro s rfl
    exact ⟨fun k q hq => (by cases hq), fun k q hq => (by cases hq)⟩
  · intro tr s a hr hs hg
    cases a with
    | call k t op lid =>
        refine hs.step (net_unwrapped hr) hg.1.1 ?_ fun _ _ _ _ ha => by cases ha
        intro k' t' proc args op' clt lid' ha hc
        cases ha
        rw [lockCall_request, Option.some.injEq, Prod.mk.injEq, Prod.mk.injEq] at hc
        exact hc.2.1.symm
    | serve w j =>
        simp only [unwrapped, Lts.restrict, lts, next, net_serve]
        exact hs
    | net a =>
        apply hs.step (net_unwrapped hr) hg.1.1
        · rintro k t proc args op clt lid rfl hc
          rw [lockCall_other hg.1.2] at hc
          cases hc
        · rintro k t f r rfl hc
          exact hg.1.2 (isSome_lockOp hc).1

/-! ## Steps -/

theorem fresh_of_begins {tr : List (Act κ)} (h : (unwrapped g).Run tr s) {k : κ} (hn : g.cltNonce k ≠ 0)
    {proc : UInt32} {args : Bytes} (hx : (s.net.clt k).xid ≠ 0) :
    (g.cltNonce k, ((s.net.clt k).request (g.clt k) proc args).xid) ∉ s.served := by
  intro hs
  obtain ⟨q, hq, hqx⟩ := issued_of_served h hn hs
  have hlt := ((RpcNet.valid_clt (net_unwrapped h) k).issued q hq).2.2.resolve_left hx
  rw [hqx, Rpcc.request, Request.xid, UInt32.toUInt32_toInt32] at hlt
  exact absurd hlt (UInt32.lt_irrefl _)

theorem Exclusive.call {tr : List (Act κ)} (hr : (unwrapped g).Run tr s) (h : Exclusive g s) {k : κ} {t : Tid}
    {op : LockOp} {lid : UInt64} (hn : g.cltNonce k ≠ 0) (hg : guard g s (.call k t op lid))
    (hu : s.net.Unwrapped (rpc g k t op lid)) : Exclusive g (next g s (.call k t op lid)) := by
  obtain ⟨hguard, hok, hheld⟩ := hg
  have hc := RpcNet.callStep hguard
  have hcall := lockCall_request g s.net k op lid
  have hsub : ∀ m, m ∈ (next g s (.call k t op lid)).held → m ∈ s.held := by
    intro m hm
    simp only [next] at hm
    split at hm
    · exact List.mem_of_mem_filter hm
    · exact hm
  have hserved : (next g s (.call k t op lid)).served = s.served := rfl
  have hnet : (next g s (.call k t op lid)).net = s.net.next g (rpc g k t op lid) := rfl
  have hfilter : op = .release → (k, t, lid) ∉ (next g s (.call k t op lid)).held := by
    rintro rfl
    simp [next]
  generalize hs' : next g s (.call k t op lid) = s' at *
  rw [← hnet] at hc
  have hlocks : s'.locks = s.locks := by rw [← hs']; rfl
  rw [rpc] at hc
  cases hc with
  | other hcall _ _ _ => exact absurd (hcall _ _ _ _ rfl) (by rw [hok]; simp)
  | @begins _ _ _ _ q _ hq hnone hsome ho _ =>
      subst hq
      have hold : ∀ op' k' t' lid' q', (k', t') ≠ (k, t) → s'.Calling op' k' t' lid' q' →
          s.Calling op' k' t' lid' q' := fun op' k' t' lid' q' hne hc =>
        ⟨(ho k' t' hne).symm.trans hc.1, hc.2⟩
      have hnew : ∀ op' lid' q', s'.Calling op' k t lid' q' →
          q' = (s.net.clt k).request (g.clt k) op.proc (lockArgs (g.cltNonce k) lid) ∧ op' = op ∧
            lid' = lid := by
        rintro op' lid' q' ⟨hin, clt, hc⟩
        rw [hsome, Option.some.injEq] at hin
        subst hin
        rw [hcall, Option.some.injEq, Prod.mk.injEq, Prod.mk.injEq] at hc
        exact ⟨rfl, hc.1.symm, hc.2.2.symm⟩
      refine h.of_owns hlocks (fun k' t' lid' how => ?_) fun k' t' lid' q' hc => ?_
      · by_cases hk : (k', t') = (k, t)
        · cases hk
          rcases how with hm | ⟨q', hc, hs⟩ | ⟨q', hc, -⟩
          · exact .inl (hsub _ hm)
          · obtain ⟨rfl, -, -⟩ := hnew _ _ _ hc
            exact absurd (hserved ▸ hs) (fresh_of_begins hr hn (hu hok))
          · obtain ⟨-, rfl, rfl⟩ := hnew _ _ _ hc
            exact .inl (hheld rfl)
        · exact how.of_calling hserved (fun hm => .inl (hsub _ hm)) fun _ _ => hold _ _ _ _ _ hk
      · by_cases hk : (k', t') = (k, t)
        · cases hk
          obtain ⟨-, rfl, rfl⟩ := hnew _ _ _ hc
          exact hfilter rfl
        · exact fun hm => h.releasing k' t' lid' q' (hold _ _ _ _ _ hk hc) (hsub _ hm)

/-- A lock call that returns was served. -/
theorem served_of_ret {tr : List (Act κ)} (hr : (unwrapped g).Run tr s) {k : κ} {t : Tid}
    {f : Call (Conn κ Unit)} {r : Int32} (hg : guard g s (.net (.clt k (.ret t f r))))
    (hsome : (lockCall f.req).isSome = true) : (g.cltNonce k, f.req.xid) ∈ s.served := by
  have hok : r = LockProtocol.ok := hg.2 (isSome_lockOp hsome).1
  obtain ⟨hnonce, i, res, hres, -, hreq, hrr, -⟩ :=
    RpcNet.ret_authentic (net_unwrapped hr) hg.1.1 (by rw [hok]; decide)
  have hdone := (serving_of_run hr.of_restrict).results res hres (hreq ▸ hsome) (hrr.trans hok)
  have hkey : res.job.key = (g.cltNonce k, f.req.xid) := by
    rw [Job.key, Job.nonce, Job.xid, hreq, hnonce]
  exact hkey ▸ hdone

theorem Exclusive.net {tr : List (Act κ)} (hr : (unwrapped g).Run tr s) (h : Exclusive g s)
    {a : RpcNet.Act κ Unit} (hg : guard g s (.net a)) : Exclusive g (next g s (.net a)) := by
  have hc := RpcNet.callStep hg.1
  have hserved : (next g s (.net a)).served = s.served := rfl
  have hheld : (next g s (.net a)).held = acquired a s.held := rfl
  have hlocks : (next g s (.net a)).locks = s.locks := rfl
  have hnet : s.net.next g a = (next g s (.net a)).net := rfl
  rw [hnet] at hc
  generalize next g s (.net a) = s' at *
  cases hc with
  | other _ hret _ hin =>
      have hsame : s'.held = s.held := by
        rw [hheld]
        cases a with
        | srv i a => rfl
        | clt k a =>
            cases a with
            | ret t f r => exact absurd rfl (hret k t f r)
            | _ => rfl
      have hold : ∀ op k t lid q, s'.Calling op k t lid q → s.Calling op k t lid q :=
        fun op k t lid q hc => ⟨(hin k t).symm.trans hc.1, hc.2⟩
      refine h.of_owns hlocks (fun k t lid how => ?_) fun k t lid q hc => ?_
      · exact how.of_calling hserved (fun hm => .inl (hsame ▸ hm)) fun _ _ => hold _ _ _ _ _
      · rw [hsame]
        exact h.releasing k t lid q (hold _ _ _ _ _ hc)
  | @begins k t proc args q _ hq _ hsome ho _ =>
      have hold : ∀ op k' t' lid q', s'.Calling op k' t' lid q' → s.Calling op k' t' lid q' := by
        rintro op k' t' lid q' ⟨hin, clt, hc⟩
        by_cases hk : (k', t') = (k, t)
        · cases hk
          rw [hsome, Option.some.injEq] at hin
          rw [← hin, hq, lockCall_other hg.2] at hc
          cases hc
        · exact ⟨(ho k' t' hk).symm.trans hin, clt, hc⟩
      refine h.of_owns hlocks (fun k' t' lid how => ?_) fun k' t' lid q' hc => ?_
      · refine how.of_calling hserved (fun hm => .inl ?_) fun _ _ => hold _ _ _ _ _
        rw [hheld] at hm
        exact hm
      · rw [hheld]
        exact h.releasing k' t' lid q' (hold _ _ _ _ _ hc)
  | @ends k t f r hsome hnone ho _ =>
      have hold : ∀ op k' t' lid q', s'.Calling op k' t' lid q' → (k', t') ≠ (k, t) ∧
          s.Calling op k' t' lid q' := by
        rintro op k' t' lid q' ⟨hin, hc⟩
        have hk : (k', t') ≠ (k, t) := by
          intro hk
          cases hk
          rw [hnone] at hin
          cases hin
        exact ⟨hk, (ho k' t' hk).symm.trans hin, hc⟩
      have hmem : ∀ k' t' lid, (k', t', lid) ∈ s'.held → (k', t', lid) ∈ s.held ∨
          (k', t') = (k, t) ∧ ∃ clt, lockCall f.req = some (.acquire, clt, lid) :=
        fun k' t' lid hm => mem_acquired_ret (hheld ▸ hm)
      refine h.of_owns hlocks (fun k' t' lid how => ?_) fun k' t' lid q' hc hm => ?_
      · refine how.of_calling hserved (fun hm => ?_) fun _ _ hc => (hold _ _ _ _ _ hc).2
        rcases hmem _ _ _ hm with hm | ⟨hk, clt, hcall⟩
        · exact .inl hm
        · cases hk
          have hdone := served_of_ret hr hg (by rw [hcall]; rfl)
          exact .inr (.inl ⟨f.req, ⟨hsome, clt, hcall⟩, hdone⟩)
      · obtain ⟨hk, hc⟩ := hold _ _ _ _ _ hc
        rcases hmem _ _ _ hm with hm | ⟨hk', -⟩
        · exact h.releasing k' t' lid q' hc hm
        · exact hk hk'

/-- The call of a running handler that has not finished is one a thread is in, and is not done. -/
theorem inCall_of_running {tr : List (Act κ)} (hr : (unwrapped g).Run tr s) (hn : ∀ k, g.cltNonce k ≠ 0)
    {w : Worker} {j : Job (Conn κ Unit)} (hw : (s.net.srv ()).workers w = .running j)
    (hst : s.stages w ≠ .finished) (hc : (lockCall j.req).isSome = true) :
    (∃ t, s.net.inCall j.conn.clt t = some j.req) ∧ j.key ∉ s.served := by
  have hnet := net_unwrapped hr
  have hsrv := RpcNet.srv_run hnet.of_restrict ()
  have hok := (RpcNet.sourced_srv hnet.of_restrict ()).workers w
  rw [hw] at hok
  obtain ⟨hq, hnonce⟩ := issued_of_running hnet hok
  have hj : j.nonce ≠ 0 := hnonce ▸ hn _
  have hfresh := Rpcs.not_resulted_of_running hsrv hw hj
  constructor
  · refine ((asking_of_run hr).done _ _ hq hc).resolve_right ?_
    rintro ⟨r, hres, hreq, -⟩
    exact hfresh r hres (by rw [Job.key, Job.key, Job.nonce, Job.xid, hreq]; rfl)
  · intro hmem
    rcases (serving_of_run hr.of_restrict).served _ hmem with ⟨w', j', hw', hst', hk⟩ | ⟨r, hres, hk⟩
    · have hne : w ≠ w' := by
        rintro rfl
        exact hst hst'
      exact (Rpcs.recording_of_run hsrv).apart w w' j j' hne (by rw [hw]; rfl) (by rw [hw']; rfl) hj
        hk.symm
    · exact hfresh r hres hk

theorem owns_of_finish {tr : List (Act κ)} (hr : (unwrapped g).Run tr s) {w : Worker} {j : Job (Conn κ Unit)}
    {m : LockMap} {k k' : κ} {t' : Tid} {lid' : UInt64} (hn : ∀ k, g.cltNonce k ≠ 0)
    (hq : j.req ∈ (s.net.clt k).issued) (hnonce : j.nonce = g.cltNonce k)
    (ho : Owns g (s.finish w j m) k' t' lid') :
    Owns g s k' t' lid' ∨ k' = k ∧ s.Calling .acquire k t' lid' j.req := by
  rcases ho with hm | ⟨q, hc, hs⟩ | ⟨q, hc, hs⟩
  · exact .inl (.inl hm)
  · rcases List.mem_append.mp hs with hs | hs
    · exact .inl (.inr (.inl ⟨q, hc, hs⟩))
    · have hkey : (g.cltNonce k', q.xid) = j.key := List.mem_singleton.mp hs
      have hk : k' = k := g.clt_inj k' k (hn k') ((congrArg Prod.fst hkey).trans hnonce)
      subst hk
      have hv := RpcNet.valid_clt (net_unwrapped hr) k'
      have hqq := hv.unique (hv.inCall t' q hc.1).1 hq (congrArg Prod.snd hkey)
      exact .inr ⟨rfl, hqq ▸ hc⟩
  · exact .inl (.inr (.inr ⟨q, hc, fun hmem => hs (List.mem_append_left _ hmem)⟩))

theorem Exclusive.serve {tr : List (Act κ)} (hr : (unwrapped g).Run tr s) (h : Exclusive g s)
    (hn : ∀ k, g.cltNonce k ≠ 0) {w : Worker} {j : Job (Conn κ Unit)} (hg : guard g s (.serve w j)) :
    Exclusive g (s.serve w j) := by
  obtain ⟨-, hw, hst, hsome⟩ := hg
  have hok := (RpcNet.sourced_srv (net_run hr.of_restrict) ()).workers w
  rw [hw] at hok
  obtain ⟨hq, hnonce⟩ := issued_of_running (net_unwrapped hr) hok
  obtain ⟨⟨t, ht⟩, hfresh⟩ := inCall_of_running hr hn hw hst hsome
  have howns : ∀ {m k' t' lid'}, Owns g (s.finish w j m) k' t' lid' → Owns g s k' t' lid' ∨
      k' = j.conn.clt ∧ s.Calling .acquire j.conn.clt t' lid' j.req := fun ho =>
    owns_of_finish hr hn hq hnonce ho
  unfold LockNet.serve
  split
  · rename_i clt lid hcall
    have hclt := (asking_of_run hr).args _ _ hq _ _ _ hcall
    split
    · rename_i m hm
      -- The lock was free, so the caller is its only owner now.
      have hfree : ∀ k' t', ¬ Owns g s k' t' lid := fun k' t' ho =>
        LockServer.not_lockedBy_of_acquire hm (h.locked k' t' lid ho)
      have hcaller : ∀ {k' t' lid'}, Owns g (s.finish w j m) k' t' lid' →
          lid' ≠ lid ∧ Owns g s k' t' lid' ∨ lid' = lid ∧ k' = j.conn.clt ∧
            s.net.inCall j.conn.clt t' = some j.req := by
        intro k' t' lid' ho
        rcases howns ho with ho | ⟨hk, hin, clt', hc⟩
        · refine .inl ⟨?_, ho⟩
          rintro rfl
          exact hfree k' t' ho
        · rw [hcall, Option.some.injEq, Prod.mk.injEq, Prod.mk.injEq] at hc
          exact .inr ⟨hc.2.2.symm, hk, hin⟩
      refine ⟨fun k₁ t₁ k₂ t₂ lid' h₁ h₂ => ?_, fun k' t' lid' ho => ?_, h.releasing⟩
      · rcases hcaller h₁ with ⟨hne, h₁⟩ | ⟨hl, hk₁, hin₁⟩
        · rcases hcaller h₂ with ⟨-, h₂⟩ | ⟨hl, -⟩
          · exact h.unique k₁ t₁ k₂ t₂ lid' h₁ h₂
          · exact absurd hl hne
        · rcases hcaller h₂ with ⟨hne, -⟩ | ⟨-, hk₂, hin₂⟩
          · exact absurd hl hne
          · rw [hk₁, hk₂, (RpcNet.valid_clt (net_unwrapped hr) _).apart t₁ t₂ _ hin₁ hin₂]
      · rcases hcaller ho with ⟨hne, ho⟩ | ⟨rfl, rfl, -⟩
        · exact (LockServer.lookup_acquire_ne hm hne).trans (h.locked k' t' lid' ho)
        · exact hclt ▸ LockServer.lockedBy_acquire hm
    · exact { h with }
  · rename_i clt lid hcall
    have hclt := (asking_of_run hr).args _ _ hq _ _ _ hcall
    have hkey : j.key = (g.cltNonce j.conn.clt, j.req.xid) := by rw [Job.key, hnonce]; rfl
    -- The thread that called `release` was the owner, and nobody is now.
    have hown : Owns g s j.conn.clt t lid := .inr (.inr ⟨j.req, ⟨ht, clt, hcall⟩, hkey ▸ hfresh⟩)
    have hrest : ∀ {m k' t' lid'}, Owns g (s.finish w j m) k' t' lid' →
        lid' ≠ lid ∧ Owns g s k' t' lid' := by
      intro m k' t' lid' ho
      rcases howns ho with hold | ⟨-, -, clt', hc⟩
      · refine ⟨?_, hold⟩
        rintro rfl
        obtain ⟨rfl, rfl⟩ := Prod.mk.inj (h.unique _ _ _ _ _ hold hown)
        rcases ho with hm | ⟨q, ⟨hin, clt', hc⟩, -⟩ | ⟨q, ⟨hin, -⟩, hs⟩
        · exact h.releasing _ _ _ _ ⟨ht, clt, hcall⟩ hm
        · rw [LockNet.finish, ht, Option.some.injEq] at hin
          rw [← hin, hcall] at hc
          cases hc
        · rw [LockNet.finish, ht, Option.some.injEq] at hin
          refine hs (List.mem_append_right _ ?_)
          rw [← hin, hkey]
          exact List.mem_singleton.mpr rfl
      · rw [hcall] at hc
        cases hc
    exact
      { unique := fun k₁ t₁ k₂ t₂ lid' h₁ h₂ => h.unique k₁ t₁ k₂ t₂ lid' (hrest h₁).2 (hrest h₂).2
        locked := fun k' t' lid' ho => by
          obtain ⟨hne, ho⟩ := hrest ho
          exact (LockServer.lookup_release_ne _ _ hne).trans (h.locked k' t' lid' ho)
        releasing := h.releasing }
  · exact h

theorem exclusive_of_run {tr : List (Act κ)} (h : (unwrapped g).Run tr s) (hn : ∀ k, g.cltNonce k ≠ 0) :
    Exclusive g s := by
  refine h.invariant (I := fun _ s => Exclusive g s) ?_ ?_
  · rintro s rfl
    have hno : ∀ k t lid, ¬ Owns g init k t lid := by
      rintro k t lid (hm | ⟨q, ⟨hin, -⟩, -⟩ | ⟨q, ⟨hin, -⟩, -⟩)
      · cases hm
      · cases hin
      · cases hin
    exact ⟨fun k t _ _ lid ho => absurd ho (hno k t lid), fun k t lid ho => absurd ho (hno k t lid),
      fun k t lid q hc hm => (by cases hm)⟩
  · intro tr s a hr hs hg
    cases a with
    | call k t op lid => exact hs.call hr (hn k) hg.1 (hg.2 _ rfl)
    | serve w j => exact hs.serve hr hn hg.1
    | net a => exact hs.net hr hg.1

/-- As long as no client makes 2³² calls, at every moment at most one thread is between its `acquire` of a
lock and its `release`. -/
theorem mutual_exclusion {tr : List (Act κ)} (h : (lts g).Run tr s) (hn : ∀ k, g.cltNonce k ≠ 0)
    (hf : s.net.FewCalls) {k k' : κ} {t t' : Tid} {lid : UInt64} (h₁ : (k, t, lid) ∈ s.held)
    (h₂ : (k', t', lid) ∈ s.held) : (k, t) = (k', t') :=
  (exclusive_of_run (unwrapped_of_fewCalls h hf) hn).unique k t k' t' lid (.inl h₁) (.inl h₂)

/-- A call of `acquire` of the lock 9. -/
def soloReq (xid xidRep : UInt32) : Request :=
  ⟨⟨xid.toInt32, LockProtocol.acquire.toInt32, 5, 7, xidRep.toInt32⟩, lockArgs 5 9⟩

/-- Two threads call `acquire`; the handler of the first gets the lock and that of the second waits. -/
def soloRun : List (Act Unit) :=
  let j (xid xidRep : UInt32) : Job (Conn Unit Unit) := ⟨Solo.conn 0, soloReq xid xidRep⟩
  Solo.bind.map .net ++
    .call () 0 .acquire 9 :: (Solo.transmit 0 (soloReq 2 1) (Solo.conn 0) false).map .net ++
    .call () 1 .acquire 9 :: (Solo.transmit 1 (soloReq 3 1) (Solo.conn 0) false).map .net ++
    (Solo.dispatch 0 (j 2 1)).map .net ++ [.serve 0 (j 2 1)] ++
    (Solo.dispatch 1 (j 3 1)).map .net ++ [.serve 1 (j 3 1)] ++
    (Solo.reply 0 (j 2 1) 1 [0, 0, 0, 0] ++ Solo.finish 0 (j 2 1) [0, 0, 0, 0]).map .net

theorem mutual_exclusion_solo : ∃ tr s, (lts Solo.config).Run tr s ∧ ((), 0, 9) ∈ s.held ∧
    s.net.inCall () 1 = some (soloReq 3 1) ∧ ∀ t, ((), t, 9) ∈ s.held → ((), 0) = ((), t) := by
  obtain ⟨s, hr, hs⟩ := Lts.run_of_exec (M := lts Solo.config) (s := init) (l := soloRun)
    (f := fun s => decide (((), 0, 9) ∈ s.held ∧ s.net.inCall () 1 = some (soloReq 3 1) ∧
      (s.net.clt ()).issued.length < 2 ^ 32)) rfl (by decide +kernel)
  obtain ⟨hheld, hin, hf⟩ := of_decide_eq_true hs
  have hn : ∀ k, Solo.config.cltNonce k ≠ 0 := fun _ => show (5 : UInt32) ≠ 0 by decide
  exact ⟨_, s, hr, hheld, hin, fun t ht => mutual_exclusion hr hn (fun _ => hf) hheld ht⟩

/-! ## A client whose counter comes round -/

theorem lts_calls (g : Config Unit Unit) (N : Nat) (v : Worker) : Calls g N v (lts g) where
  next _ _ := rfl
  guard s a hg ha := by
    refine ⟨hg, ?_⟩
    cases a with
    | clt k a =>
        cases a with
        | call1 t proc args => exact ha.2
        | ret t f r =>
            intro hop
            rw [ha.1] at hop
            cases hop
        | _ => trivial
    | srv i a =>
        cases a with
        | handled w j ret body =>
            intro hop
            rw [ha.2] at hop
            cases hop
        | _ => trivial

/-- Thread 0 has the lock from call 2, and the handler of call 3 waits for it. -/
def soloHeld : List (Act Unit) :=
  let j (xid xidRep : UInt32) : Job (Conn Unit Unit) := ⟨Solo.conn 0, soloReq xid xidRep⟩
  Solo.bind.map .net ++
    .call () 0 .acquire 9 :: (Solo.transmit 0 (soloReq 2 1) (Solo.conn 0) false).map .net ++
    (Solo.dispatch 0 (j 2 1)).map .net ++ .serve 0 (j 2 1) ::
    (Solo.reply 0 (j 2 1) 1 [0, 0, 0, 0] ++ .srv () (.sent 0 (j 2 1) (Solo.conn 0) 1 28) ::
      Solo.finish 0 (j 2 1) [0, 0, 0, 0]).map .net ++
    .call () 1 .acquire 9 :: (Solo.transmit 1 (soloReq 3 2) (Solo.conn 0) false).map .net ++
    (Solo.dispatch 1 (j 3 2)).map .net ++ [.serve 1 (j 3 2)]

/-- Two more calls, and then call 2 again: the server sends the reply it has. -/
def soloAgain : List (Act Unit) :=
  let j : Job (Conn Unit Unit) := ⟨Solo.conn 0, soloReq 2 2⟩
  [.net (.clt () (.call1 3 LockProtocol.stat [])), .net (.clt () (.call1 4 LockProtocol.stat [])),
    .call () 5 .acquire 9] ++
    (Solo.transmit 5 (soloReq 2 2) (Solo.conn 0) false ++ Solo.dispatch 0 j ++
      .srv () (.tx 0 j (Solo.conn 0) 1 28 true) :: Solo.finish 5 j [0, 0, 0, 0]).map .net

/-- The calls 4 to 2³² - 1 of the client are of `stat` and return. Then two threads have the lock. -/
theorem exclusion_wraps : ¬ ∀ tr s, (lts Solo.config).Run tr s → ∀ t t', ((), t, 9) ∈ s.held →
    ((), t', 9) ∈ s.held → t = t' := by
  intro hall
  obtain ⟨s₀, hr, hs⟩ := Lts.run_of_exec (M := lts Solo.config) (s := init) (l := soloHeld)
    (f := fun s => decide (RpcNet.Ready Solo.config 4 2 2 (Solo.conn 0) s.net ∧
        (∀ e ∈ (s.net.srv ()).table.replies 5, e.xid < (s.net.clt ()).xid) ∧ (s.net.clt ()).xid = 4) &&
      (((lts Solo.config).restrict (Apart Solo.config 4 2 2)).exec (wrapped s) soloAgain).any fun s : LockNet Unit =>
        decide (((), 0, 9) ∈ s.held ∧ ((), 5, 9) ∈ s.held)) rfl (by decide +kernel)
  rw [Bool.and_eq_true, decide_eq_true_eq, Option.any_eq_true] at hs
  obtain ⟨⟨hready, hold, hxid⟩, s₁, he, hheld⟩ := hs
  obtain ⟨h₀, h₅⟩ := of_decide_eq_true hheld
  obtain ⟨_, s, hr, hb⟩ := run_wrapped (lts_calls Solo.config 3 2) hready (by decide) rfl (by decide) (by decide)
    hold (by rw [hxid]; decide) hr
  obtain ⟨s', hr', hb'⟩ := hr.exec_of hb he fun _ _ _ hb hg => hb.step (by decide) hg.1 hg.2
  have heq := hall _ s' hr' 0 5 (hb'.held ▸ h₀) (hb'.held ▸ h₅)
  cases heq

end LockNet
end StanDfs
