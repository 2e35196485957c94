import StanDfs.Rpc.Lemmas.Bind

/-!
# Reply authenticity
-/

namespace StanDfs

namespace Rpcc

variable {χ : Type*} {e : Env} {s : Rpcc χ}

theorem callers_gotPdu (h : Valid e s) {b : Bytes} {t : Tid}
    (hne : (s.gotPdu b).callers t ≠ s.callers t) : ∃ hdr u q, decodeReply b = some (hdr, u) ∧
      (s.threads t).active = some q ∧ q.xid = hdr.xid.toUInt32 ∧ (s.callers t).done = false ∧
      (s.gotPdu b).callers t = ⟨q.xid, u, hdr.ret, true⟩ := by
  revert hne
  unfold gotPdu
  split
  · intro hne
    exact absurd rfl hne
  · rename_i hdr u hd
    simp only
    split
    · intro hne
      exact absurd rfl hne
    · rename_i t' hl
      unfold take
      split
      · intro hne
        exact absurd rfl hne
      · rename_i hdone
        intro hne
        by_cases ht : t = t'
        · subst ht
          obtain ⟨q, hq, hx⟩ := h.calls _ t hl
          have hcx := (h.inCall t q (active_inCall hq)).2
          exact ⟨hdr, u, q, hd, hq, hx, by simpa using hdone, by simp [hcx]⟩
        · exact absurd (Function.update_of_ne ht _ _) hne

/-- A reply to a call that was erased changes no caller. -/
theorem callers_of_left (h : Valid e s) {b : Bytes} {hdr : ReplyHeader} {u : Unmarshall}
    (hd : decodeReply b = some (hdr, u)) (hl : hdr.xid.toUInt32 ∈ s.left) :
    (s.gotPdu b).callers = s.callers := by
  rw [gotPdu, hd]
  simp only [(h.left _ hl).1]

end Rpcc

namespace RpcNet

variable {κ ι : Type*} [DecidableEq κ] [DecidableEq ι] {g : Config κ ι} {s : RpcNet κ ι}

/-- A good value of `call1` is what a handler run for this very request returned. -/
theorem ret_authentic {tr : List (Act κ ι)} (h : (unwrapped g).Run tr s) {k : κ} {t : Tid}
    {f : Call (Conn κ ι)} {r : Int32} (hg : (s.clt k).guard (.ret t f r)) (hr : 0 ≤ r) :
    f.req.hdr.cltNonce = g.cltNonce k ∧ ∃ i, ∃ res ∈ (s.srv i).results,
      res.job ∈ (s.srv i).execs ∧ res.job.req = f.req ∧ res.ret = r ∧
        ((s.clt k).callers t).un.ok = true ∧
        ((s.clt k).callers t).un.sz = ((s.clt k).callers t).un.buf.length ∧
        ((s.clt k).callers t).un.buf.drop ((s.clt k).callers t).un.ind = res.body := by
  obtain ⟨ht, rfl⟩ := hg
  have hv := valid_clt h k
  obtain ⟨hq, hx⟩ := hv.inCall t f.req (by rw [ht]; rfl)
  refine ⟨(hv.issued _ hq).1, ?_⟩
  rw [Rpcc.result] at hr ⊢
  split at hr
  · rename_i hdone
    rw [if_pos hdone]
    have hgot := (traffic_of_run h).callers k t hdone hr
    rw [hx] at hgot
    obtain ⟨i, res, hres, hreq, hret, hu⟩ := earned_of_got h hq hgot
    exact ⟨i, res, hres, ((sourced_srv h.of_restrict i).results res hres).1, hreq, hret, hu⟩
  · exact absurd hr (by decide)

/-- Callers only get the replies to their own calls: a good value is that of a handler run for exactly the
call's request, a reply only completes its own call and only once, and after the call it changes no
caller. -/
theorem reply_authentic {tr : List (Act κ ι)} (h : (lts g).Run tr s) (hf : s.FewCalls) (k : κ) :
    (∀ t f r, guard g s (.clt k (.ret t f r)) → 0 ≤ r →
      f.req.hdr.cltNonce = g.cltNonce k ∧ ∃ i, ∃ res ∈ (s.srv i).results,
        res.job ∈ (s.srv i).execs ∧ res.job.req = f.req ∧ res.ret = r ∧
          ((s.clt k).callers t).un.ok = true ∧
          ((s.clt k).callers t).un.sz = ((s.clt k).callers t).un.buf.length ∧
          ((s.clt k).callers t).un.buf.drop ((s.clt k).callers t).un.ind = res.body) ∧
    (∀ c b, guard g s (.clt k (.gotPdu c b)) →
      (∀ k' ≠ k, (next g s (.clt k (.gotPdu c b))).clt k' = s.clt k') ∧
      (∀ t, ((next g s (.clt k (.gotPdu c b))).clt k).callers t ≠ (s.clt k).callers t →
        ∃ hdr u q, decodeReply b = some (hdr, u) ∧ ((s.clt k).threads t).active = some q ∧
          q.xid = hdr.xid.toUInt32 ∧ ((s.clt k).callers t).done = false ∧
          ((next g s (.clt k (.gotPdu c b))).clt k).callers t = ⟨q.xid, u, hdr.ret, true⟩) ∧
      ∀ hdr u, decodeReply b = some (hdr, u) → hdr.xid.toUInt32 ∈ (s.clt k).left →
        ((next g s (.clt k (.gotPdu c b))).clt k).callers = (s.clt k).callers) := by
  replace h := hf.run h
  have hv := valid_clt h k
  refine ⟨fun t f r hg hr => ret_authentic h hg.1 hr, fun c b _ => ⟨fun k' hk => ?_, ?_, ?_⟩⟩
  · simp [next, Function.update_of_ne hk]
  · simp only [next, Function.update_self, Rpcc.next]
    exact fun t => Rpcc.callers_gotPdu hv
  · simp only [next, Function.update_self, Rpcc.next]
    exact fun hdr u => Rpcc.callers_of_left hv

/-- The second call of a client returns 0 and the byte 3. -/
theorem reply_authentic_solo : ∃ tr s, (lts Solo.config).Run tr s ∧
    guard Solo.config s (.clt () (.ret 0 ⟨Solo.req 2 1, some (Solo.conn 0)⟩ 0)) ∧
    ∃ i, ∃ res ∈ (s.srv i).results, res.job.req = Solo.req 2 1 ∧
      ((s.clt ()).callers 0).un.buf.drop ((s.clt ()).callers 0).un.ind = res.body := by
  obtain ⟨s, hr, hs⟩ := Lts.run_of_exec (M := lts Solo.config) (s := init)
    (l := Solo.bind ++ (Solo.call 0 0 (Solo.req 2 1) 1 [3]).dropLast)
    (f := fun s => decide (guard Solo.config s (.clt () (.ret 0 ⟨Solo.req 2 1, some (Solo.conn 0)⟩ 0)) ∧
      (s.clt ()).issued.length < 2 ^ 32)) rfl (by decide +kernel)
  obtain ⟨hg, hf⟩ := of_decide_eq_true hs
  obtain ⟨_, i, res, hres, _, hreq, _, _, _, hb⟩ :=
    (reply_authentic hr (fun _ => hf) ()).1 0 ⟨Solo.req 2 1, some (Solo.conn 0)⟩ 0 hg (by decide)
  exact ⟨_, s, hr, hg, i, res, hres, hreq, hb⟩

end RpcNet
end StanDfs
