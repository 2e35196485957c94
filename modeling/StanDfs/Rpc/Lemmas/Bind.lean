import StanDfs.Rpc.Lemmas.Traffic

/-!
# Binding

What `bind` returns is the nonce of a server instance, so every call made after binding names the one
instance that accepts it.
-/

namespace StanDfs

namespace Rpcc

variable {χ : Type*} {e : Env} {s : Rpcc χ} {N : UInt32 → Prop}

/-- A call of `bind`. -/
def IsBind (q : Request) : Prop := q.hdr.proc = RpcConst.bind.toInt32

instance (q : Request) : Decidable (IsBind q) := inferInstanceAs (Decidable (_ = _))

/-- A client that is bound has a nonce that satisfies `N`, and so has every call but `bind`. -/
structure Bound (N : UInt32 → Prop) (s : Rpcc χ) : Prop where
  srvNonce : s.bindDone = true → N s.srvNonce
  issued : ∀ q ∈ s.issued, ¬ IsBind q → N q.hdr.srvNonce
  binding : ∀ t r, s.threads t = .binding r → N r.toUInt32

theorem Bound.setThread {t : Tid} {p : Thread χ} (h : s.Bound N)
    (hp : ∀ r, p = .binding r → N r.toUInt32) : (s.setThread t p).Bound N :=
  { h with
    binding := fun t' r hr => by
      by_cases ht : t' = t
      · subst ht
        exact hp r (by simpa [Rpcc.setThread] using hr)
      · exact h.binding t' r (by simpa [Rpcc.setThread, Function.update_of_ne ht] using hr) }

/-- Before binding, only `bind` is called. -/
theorem Bound.call1 {t : Tid} {proc : UInt32} {args : Bytes} (h : s.Bound N) :
    (s.call1 e t proc args).Bound N := by
  rw [Rpcc.call1]
  split
  · exact h
  · rename_i hr
    refine { h.setThread (t := t) (p := .transmit ⟨s.request e proc args, none⟩)
      (fun r hr => by cases hr) with issued := fun q hq hb => ?_ }
    rcases List.mem_append.mp hq with hq | hq
    · exact h.issued q hq hb
    · obtain rfl := List.mem_singleton.mp hq
      have hproc : proc ≠ RpcConst.bind := fun hp => hb (congrArg UInt32.toInt32 hp)
      have hdone : s.bindDone = true := by
        cases hd : s.bindDone with
        | true => rfl
        | false => simp [refuses, hd, hproc] at hr
      exact h.srvNonce hdone

theorem Bound.ret {t : Tid} {f : Call χ} {r : Int32} (h : s.Bound N)
    (hn : IsBind f.req → r = 0 → ∀ v, readInt (s.callers t).un = some v → N v.toUInt32) :
    (s.ret t f r).Bound N := by
  unfold Rpcc.ret
  split
  · rename_i hc
    split
    · rename_i v hv
      refine h.setThread fun r' hr' => ?_
      cases hr'
      exact hn hc.1 hc.2 v hv
    · exact h.setThread fun r' hr' => by cases hr'
  · exact h.setThread fun r' hr' => by cases hr'

theorem Bound.step [DecidableEq χ] {a : Act χ} (h : s.Bound N) (hg : guard s a)
    (hn : ∀ t f r, a = .ret t f r → IsBind f.req → r = 0 →
      ∀ v, readInt (s.callers t).un = some v → N v.toUInt32) : (s.next e a).Bound N := by
  cases a with
  | call1 t proc args => exact h.call1
  | getRefconn t f conn =>
      have h' : ({ s with chan := if s.chanAlive then s.chan else conn } : Rpcc χ).Bound N :=
        { h with }
      simp only [next, Rpcc.getRefconn]
      split <;> exact h'.setThread fun r hr => by cases hr
  | tx t f c ok => exact { h.setThread (t := t) (p := .waiting f) (fun r hr => by cases hr) with }
  | giveup t f => exact h.setThread fun r hr => by cases hr
  | woken t f => exact h.setThread fun r hr => by cases hr
  | timedout t f => exact h.setThread fun r hr => by cases hr
  | isdead t f =>
      rcases isdead_cases (e := e) s t f with heq | ⟨_, heq⟩ <;> rw [next, heq] <;>
        exact h.setThread fun r hr => by cases hr
  | leave t f => exact { h.setThread (t := t) (p := .returning f) (fun r hr => by cases hr) with }
  | ret t f r => exact h.ret (hn t f r rfl)
  | bound t r =>
      exact { h.setThread (t := t) (p := .idle) (fun r hr => by cases hr) with
        srvNonce := fun _ => h.binding t r hg }
  | gotPdu c b =>
      have hb : (s.gotPdu b).bindDone = s.bindDone ∧ (s.gotPdu b).srvNonce = s.srvNonce := by
        unfold Rpcc.gotPdu
        split
        · exact ⟨rfl, rfl⟩
        · simp only
          split
          · exact ⟨rfl, rfl⟩
          · rw [take]
            split <;> exact ⟨rfl, rfl⟩
      obtain ⟨hi, _, _, hth⟩ := gotPdu_frame s b
      exact ⟨by rw [next, hb.1, hb.2]; exact h.srvNonce, by rw [next, hi]; exact h.issued,
        by rw [next, hth]; exact h.binding⟩
  | cancel => exact { h with }
  | die c => exact { h with }

theorem readInt_bytes {u : Unmarshall} {n : UInt32} (hok : u.ok = true) (hsz : u.sz = u.buf.length)
    (hb : u.buf.drop u.ind = BigEndian.bytes n) : readInt u = some n.toInt32 := by
  obtain ⟨hun, _⟩ := Unmarshall.unpack_bytes hsz (hb.trans (List.append_nil _).symm)
  have hlen : u.ind + 4 = u.buf.length := by
    have hl := congrArg List.length hb
    rw [List.length_drop, BigEndian.length_bytes] at hl
    omega
  simp [readInt, hun, Unmarshall.okdone, hok, hsz, hlen]

end Rpcc

theorem Rpcs.body_of_rpcbind {nonce : UInt32} {args body : Bytes}
    (h : (0, body) = rpcbind nonce args) : body = BigEndian.bytes nonce := by
  simp only [rpcbind] at h
  split at h
  · exact (Prod.mk.inj h).2
  · have hne : (0 : Int32) ≠ RpcConst.unmarshalArgsFailure := by decide
    exact absurd (Prod.mk.inj h).1 hne

namespace RpcNet

variable {κ ι : Type*} {g : Config κ ι} {s : RpcNet κ ι} [DecidableEq κ] [DecidableEq ι]

/-- The nonce of a server instance. -/
def Instance (g : Config κ ι) (n : UInt32) : Prop := ∃ i, g.srvNonce i = n

/-- The call a caller got a good value for, and the handler run the value is from. -/
theorem earned_of_got {tr : List (Act κ ι)} (h : (unwrapped g).Run tr s) {k : κ} {q : Request} {ret : Int32}
    {u : Unmarshall} (hq : q ∈ (s.clt k).issued) (hg : s.Got k q.xid ret u) :
    ∃ i, ∃ res ∈ (s.srv i).results, res.job.req = q ∧ res.ret = ret ∧ u.ok = true ∧
      u.sz = u.buf.length ∧ u.buf.drop u.ind = res.body := by
  obtain ⟨r, ⟨i, res, hres, hiss, rfl⟩, hx, hret, hok, hsz, hb⟩ := hg
  have hxid : res.job.req.xid = q.xid := hx
  exact ⟨i, res, hres, (valid_clt h k).unique hiss hq hxid, hret, hok, hsz, hb⟩

/-- A good `bind` gives the nonce of an instance. -/
theorem instance_of_bind {tr : List (Act κ ι)} (h : (unwrapped g).Run tr s) {k : κ} {t : Tid}
    {f : Call (Conn κ ι)} (hg : (s.clt k).guard (.ret t f 0)) (hb : Rpcc.IsBind f.req) {v : Int32}
    (hv : Rpcc.readInt ((s.clt k).callers t).un = some v) : Instance g v.toUInt32 := by
  obtain ⟨ht, hr⟩ := hg
  obtain ⟨hq, hx⟩ := (valid_clt h k).inCall t f.req (by rw [ht]; rfl)
  have hdone : ((s.clt k).callers t).done = true ∧ ((s.clt k).callers t).intret = 0 := by
    unfold Rpcc.result at hr
    split at hr
    · rename_i hd
      exact ⟨hd, hr.symm⟩
    · exact absurd hr (by decide)
  have hgot := (traffic_of_run h).callers k t hdone.1 (by rw [hdone.2]; decide)
  rw [hx, hdone.2] at hgot
  obtain ⟨i, res, hres, hreq, hret, hok, hsz, hbody⟩ := earned_of_got h hq hgot
  have hh := ((sourced_srv h.of_restrict i).results res hres).2.2 (by rw [hreq]; exact hb)
  rw [hret] at hh
  rw [Rpcs.body_of_rpcbind hh] at hbody
  rw [Rpcc.readInt_bytes hok hsz hbody, Option.some.injEq] at hv
  exact ⟨i, by rw [← hv]; rfl⟩

theorem bound_of_run {tr : List (Act κ ι)} (h : (unwrapped g).Run tr s) (k : κ) :
    (s.clt k).Bound (Instance g) := by
  refine h.invariant (I := fun _ s => (s.clt k).Bound (Instance g)) ?_ ?_
  · rintro s rfl
    exact ⟨fun hb => (by cases hb), fun q hq => (by cases hq), fun t r hr => (by cases hr)⟩
  · intro tr s a hr hs hg
    cases a with
    | srv i a => exact hs
    | clt k' a =>
        by_cases hk : k = k'
        · subst hk
          have hstep := hs.step (e := g.clt k) hg.1.1 fun t f r ha hb h0 v hv => by
            subst ha h0
            exact instance_of_bind hr hg.1.1 hb hv
          simpa [unwrapped, Lts.restrict, lts, next] using hstep
        · simpa [unwrapped, Lts.restrict, lts, next, Function.update_of_ne hk] using hs

/-- A server only runs handlers for calls that name it, `bind` apart. -/
theorem accepted_of_run {tr : List (Act κ ι)} (h : (unwrapped g).Run tr s) {i : ι} {j : Job (Conn κ ι)}
    (hj : j ∈ (s.srv i).execs) (hb : ¬ Rpcc.IsBind j.req) : j.req.hdr.srvNonce = g.srvNonce i := by
  obtain ⟨hfrom, ha⟩ := (sourced_srv h.of_restrict i).execs j hj
  obtain ⟨i', hi'⟩ := (bound_of_run h _).issued _ (job_of_run h hfrom).2.1 hb
  rcases ha with ha | ha
  · exact absurd (hi'.trans ha) (g.srv_ne_zero i')
  · exact ha

end RpcNet
end StanDfs
