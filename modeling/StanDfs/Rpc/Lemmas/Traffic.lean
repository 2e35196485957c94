import StanDfs.Rpc.Lemmas.Calls
import StanDfs.Rpc.Lemmas.Once

/-!
# What is in flight

A request in flight was issued by the client of its connection. A reply in flight is a refusal, or it
carries what a handler returned for a call of the client of its connection, and so does everything that
callers got.
-/

namespace StanDfs

/-- The connections a thread works with satisfy `C`. -/
def Thread.Uses {χ : Type*} (C : χ → Prop) : Thread χ → Prop
  | .transmit f | .waiting f | .lost f | .leaving f | .returning f => ∀ c ∈ f.ch, C c
  | .send f c => (∀ c ∈ f.ch, C c) ∧ C c
  | .idle | .binding _ => True

namespace Rpcc

variable {χ : Type*} {e : Env} {s : Rpcc χ} {C : χ → Prop}

/-- The connections a client works with satisfy `C`. -/
structure Uses (C : χ → Prop) (s : Rpcc χ) : Prop where
  chan : ∀ c ∈ s.chan, C c
  threads : ∀ t, (s.threads t).Uses C

theorem Uses.setThread {t : Tid} {p : Thread χ} (h : s.Uses C) (hp : p.Uses C) :
    (s.setThread t p).Uses C where
  chan := h.chan
  threads t' := by
    by_cases ht : t' = t
    · subst ht
      simpa [Rpcc.setThread] using hp
    · simpa [Rpcc.setThread, Function.update_of_ne ht] using h.threads t'

/-- The history of `s'` contains that of `s`. -/
structure Grows (s s' : Rpcc χ) : Prop where
  issued : s.issued ⊆ s'.issued
  replied : s.replied ⊆ s'.replied
  left : s.left ⊆ s'.left
  dead : s.dead ⊆ s'.dead

theorem Grows.of_eq {s s' : Rpcc χ} (h₁ : s'.issued = s.issued) (h₂ : s'.replied = s.replied)
    (h₃ : s'.left = s.left) (h₄ : s'.dead = s.dead) : Grows s s' :=
  ⟨h₁ ▸ fun _ h => h, h₂ ▸ fun _ h => h, h₃ ▸ fun _ h => h, h₄ ▸ fun _ h => h⟩

theorem gotPdu_frame (s : Rpcc χ) (b : Bytes) :
    (s.gotPdu b).issued = s.issued ∧ (s.gotPdu b).sent = s.sent ∧ (s.gotPdu b).chan = s.chan ∧
      (s.gotPdu b).threads = s.threads := by
  unfold gotPdu
  split
  · exact ⟨rfl, rfl, rfl, rfl⟩
  · simp only
    split
    · exact ⟨rfl, rfl, rfl, rfl⟩
    · rw [take]
      split <;> exact ⟨rfl, rfl, rfl, rfl⟩

theorem ret_frame (s : Rpcc χ) (t : Tid) (f : Call χ) (r : Int32) :
    (s.ret t f r).issued = s.issued ∧ (s.ret t f r).sent = s.sent := by
  unfold ret
  split
  · split <;> exact ⟨rfl, rfl⟩
  · exact ⟨rfl, rfl⟩

variable [DecidableEq χ]

theorem getRefconn_frame (s : Rpcc χ) (t : Tid) (f : Call χ) (conn : Option χ) :
    (s.getRefconn t f conn).issued = s.issued ∧ (s.getRefconn t f conn).sent = s.sent := by
  simp only [getRefconn]
  split <;> exact ⟨rfl, rfl⟩

/-- No call, and nothing that was reported, is ever taken back. -/
theorem grows_next (s : Rpcc χ) (a : Act χ) : Grows s (s.next e a) := by
  cases a with
  | call1 t proc args =>
      simp only [next, call1]
      split
      · exact .of_eq rfl rfl rfl rfl
      · exact ⟨List.subset_append_left _ _, List.Subset.refl _, List.Subset.refl _, List.Subset.refl _⟩
  | getRefconn t f conn =>
      simp only [next, getRefconn]
      split <;> exact .of_eq rfl rfl rfl rfl
  | tx t f c ok => exact .of_eq rfl rfl rfl rfl
  | giveup t f => exact .of_eq rfl rfl rfl rfl
  | woken t f => exact .of_eq rfl rfl rfl rfl
  | timedout t f => exact .of_eq rfl rfl rfl rfl
  | isdead t f => exact .of_eq rfl rfl rfl rfl
  | leave t f =>
      exact ⟨List.Subset.refl _, List.Subset.refl _, List.subset_append_left _ _, List.Subset.refl _⟩
  | ret t f r =>
      simp only [next, ret]
      split
      · split <;> exact .of_eq rfl rfl rfl rfl
      · exact .of_eq rfl rfl rfl rfl
  | bound t r => exact .of_eq rfl rfl rfl rfl
  | gotPdu c b =>
      rw [next, gotPdu]
      split
      · exact .of_eq rfl rfl rfl rfl
      · have hreplied : ∀ l : List UInt32, s.replied ⊆ s.replied ++ l :=
          List.subset_append_left _
        simp only
        split
        · exact ⟨List.Subset.refl _, hreplied _, List.Subset.refl _, List.Subset.refl _⟩
        · rw [take]
          split <;> exact ⟨List.Subset.refl _, hreplied _, List.Subset.refl _, List.Subset.refl _⟩
  | cancel => exact .of_eq rfl rfl rfl rfl
  | die c =>
      exact ⟨List.Subset.refl _, List.Subset.refl _, List.Subset.refl _, List.subset_cons_self _ _⟩

theorem sent_next (s : Rpcc χ) (a : Act χ) : ∃ l : List (χ × Request),
    (s.next e a).sent = s.sent ++ l ∧ output a = l.map fun m => (m.1, m.2.pdu) := by
  have hnil {s' : Rpcc χ} (h : s'.sent = s.sent) : ∃ l : List (χ × Request),
      s'.sent = s.sent ++ l ∧ ([] : List (χ × Bytes)) = l.map fun m => (m.1, m.2.pdu) :=
    ⟨[], by simpa using h, rfl⟩
  cases a with
  | call1 t proc args =>
      simp only [next, call1]
      split <;> exact hnil rfl
  | getRefconn t f conn => exact hnil (getRefconn_frame s t f conn).2
  | tx t f c ok =>
      cases ok with
      | true => exact ⟨[(c, f.req)], rfl, rfl⟩
      | false => exact hnil rfl
  | giveup t f => exact hnil rfl
  | woken t f => exact hnil rfl
  | timedout t f => exact hnil rfl
  | isdead t f => exact hnil rfl
  | leave t f => exact hnil rfl
  | ret t f r => exact hnil (ret_frame s t f r).2
  | bound t r => exact hnil rfl
  | gotPdu c b => exact hnil (gotPdu_frame s b).2.1
  | cancel => exact hnil rfl
  | die c => exact hnil rfl

theorem Uses.step {a : Act χ} (h : s.Uses C) (hg : guard s a)
    (hc : ∀ t f c, a = .getRefconn t f (some c) → C c) : (s.next e a).Uses C := by
  cases a with
  | call1 t proc args =>
      simp only [next, Rpcc.call1]
      split
      · exact h
      · exact { h.setThread (t := t) (p := .transmit ⟨s.request e proc args, none⟩)
          (fun c hc => by cases hc) with }
  | getRefconn t f conn =>
      have hf : ∀ c ∈ f.ch, C c := by
        have ht := h.threads t
        rwa [hg.1] at ht
      have hchan : ∀ c ∈ (if s.chanAlive then s.chan else conn), C c := by
        intro c hm
        split at hm
        · exact h.chan c hm
        · exact hc t f c (by rw [Option.mem_def.mp hm])
      have hch : ∀ c ∈ (if s.chanAlive then s.chan else conn).or f.ch, C c := by
        intro c hm
        rcases Option.or_eq_some_iff.mp hm with hm | ⟨_, hm⟩
        · exact hchan c hm
        · exact hf c hm
      have h' : ({ s with chan := if s.chanAlive then s.chan else conn } : Rpcc χ).Uses C :=
        { h with chan := hchan }
      simp only [next, Rpcc.getRefconn]
      split
      · rename_i c heq
        exact h'.setThread ⟨hch, hch c heq⟩
      · exact h'.setThread hch
  | tx t f c ok =>
      have ht := h.threads t
      rw [hg.1] at ht
      exact { h.setThread (t := t) (p := .waiting f) ht.1 with }
  | giveup t f =>
      have ht := h.threads t
      rw [show s.threads t = .waiting f from hg] at ht
      exact h.setThread ht
  | woken t f =>
      have ht := h.threads t
      rw [hg.1] at ht
      exact h.setThread ht
  | timedout t f =>
      have ht := h.threads t
      rw [hg.1] at ht
      exact h.setThread ht
  | isdead t f =>
      have ht := h.threads t
      rw [show s.threads t = .lost f from hg] at ht
      rcases isdead_cases (e := e) s t f with heq | ⟨_, heq⟩ <;> rw [next, heq] <;> exact h.setThread ht
  | leave t f =>
      have ht := h.threads t
      rw [show s.threads t = .leaving f from hg] at ht
      exact { h.setThread (t := t) (p := .returning f) ht with }
  | ret t f r =>
      simp only [next, Rpcc.ret]
      split
      · split <;> exact h.setThread trivial
      · exact h.setThread trivial
  | bound t r => exact { h.setThread (t := t) (p := .idle) trivial with }
  | gotPdu c b =>
      obtain ⟨_, _, hchan, hth⟩ := gotPdu_frame s b
      exact ⟨by rw [next, hchan]; exact h.chan, by rw [next, hth]; exact h.threads⟩
  | cancel => exact { h with }
  | die c => exact { h with }

end Rpcc

namespace Rpcs

variable {ι κ : Type*} [DecidableEq κ] [DecidableEq ι] {e : Env (Conn κ ι)}

theorem received_next (s : Rpcs (Conn κ ι)) (a : Act (Conn κ ι)) :
    (s.next e a).received = s.received ++ (RpcNet.srvInput a).toList := by
  cases a with
  | gotPdu c b accept =>
      cases accept with
      | true => rfl
      | false => exact (List.append_nil _).symm
  | begin w c b => rw [next, received_begin]; exact (List.append_nil _).symm
  | seen w j => exact (List.append_nil _).symm
  | save w j => exact (List.append_nil _).symm
  | check w j =>
      simp only [next, check]
      split
      · exact (List.append_nil _).symm
      · rw [(answer_frame _ w j _).2]
        exact (List.append_nil _).symm
  | handled w j ret body =>
      simp only [next, handled]
      split <;> exact (List.append_nil _).symm
  | record w j b =>
      simp only [next, record]
      split <;> exact (List.append_nil _).symm
  | choose w j b =>
      simp only [next, choose]
      split <;> exact (List.append_nil _).symm
  | tx w j c b sz ok => exact (List.append_nil _).symm
  | sent w j c b sz => exact (List.append_nil _).symm
  | txReply w j r ok => exact (List.append_nil _).symm
  | die c => exact (List.append_nil _).symm

end Rpcs

namespace RpcNet

variable {κ ι : Type*} {g : Config κ ι} {s s' : RpcNet κ ι}

/-! ## Evidence -/

/-- The message is a request that the client of the connection issued. -/
def Asked (s : RpcNet κ ι) (m : Conn κ ι × Bytes) : Prop :=
  ∃ q ∈ (s.clt m.1.clt).issued, m.2 = q.pdu

/-- The reply carries what a handler returned for a call of the client. -/
def Earned (s : RpcNet κ ι) (k : κ) (r : Reply) : Prop :=
  ∃ i, ∃ res ∈ (s.srv i).results, res.job.req ∈ (s.clt k).issued ∧
    r = res.job.reply res.ret res.body

/-- A caller got the value and the body of an earned reply to its call. -/
def Got (s : RpcNet κ ι) (k : κ) (x : UInt32) (ret : Int32) (u : Unmarshall) : Prop :=
  ∃ r, s.Earned k r ∧ r.hdr.xid.toUInt32 = x ∧ r.hdr.ret = ret ∧ u.ok = true ∧
    u.sz = u.buf.length ∧ u.buf.drop u.ind = r.body

/-- The histories of `s'` contain those of `s`. -/
structure Later (s s' : RpcNet κ ι) : Prop where
  issued : ∀ k, (s.clt k).issued ⊆ (s'.clt k).issued
  results : ∀ i, (s.srv i).results ⊆ (s'.srv i).results

theorem Asked.mono {m : Conn κ ι × Bytes} (h : s.Asked m) (l : Later s s') : s'.Asked m := by
  obtain ⟨q, hq, hm⟩ := h
  exact ⟨q, l.issued _ hq, hm⟩

theorem Earned.mono {k : κ} {r : Reply} (h : s.Earned k r) (l : Later s s') : s'.Earned k r := by
  obtain ⟨i, res, hres, hq, hr⟩ := h
  exact ⟨i, res, l.results i hres, l.issued k hq, hr⟩

theorem Got.mono {k : κ} {x : UInt32} {ret : Int32} {u : Unmarshall} (h : s.Got k x ret u)
    (l : Later s s') : s'.Got k x ret u := by
  obtain ⟨r, hr, hu⟩ := h
  exact ⟨r, hr.mono l, hu⟩

/-! ## The invariant -/

structure Traffic (s : RpcNet κ ι) : Prop where
  uses : ∀ k, (s.clt k).Uses fun c => c.clt = k
  up : ∀ m ∈ s.up, s.Asked m
  received : ∀ i, ∀ m ∈ (s.srv i).received, m.1.srv = i ∧ s.Asked m
  down : ∀ m ∈ s.down, ∃ r : Reply, m.2 = frame r.buf ∧ (r.hdr.ret < 0 ∨ s.Earned m.1.clt r)
  callers : ∀ k, Rpcc.Answered (s.Got k) (s.clt k).callers

theorem traffic_init : Traffic (init : RpcNet κ ι) where
  uses k := ⟨fun c hc => (by cases hc), fun t => trivial⟩
  up m hm := by cases hm
  received i m hm := by cases hm
  down m hm := by cases hm
  callers k t hd := by cases hd

/-- A job at a server is a call that the client of its connection issued. -/
theorem Traffic.fromNet {i : ι} {j : Job (Conn κ ι)} (h : Traffic s)
    (hj : Rpcs.FromNet (s.srv i) j) : j.conn.srv = i ∧ j.req ∈ (s.clt j.conn.clt).issued := by
  obtain ⟨b, hb, hd⟩ := hj
  obtain ⟨hi, q, hq, rfl⟩ := h.received i _ hb
  rw [decodeReq_pdu, Option.some.injEq] at hd
  exact ⟨hi, hd ▸ hq⟩

theorem not_neg_of_nonneg {r : Int32} (h : 0 ≤ r) : ¬ r < 0 := Int32.not_lt.mpr h

theorem Traffic.got {m : Conn κ ι × Bytes} {hdr : ReplyHeader} {u : Unmarshall} (h : Traffic s)
    (hm : m ∈ s.down) (hd : decodeReply m.2 = some (hdr, u)) (hr : 0 ≤ hdr.ret) :
    s.Got m.1.clt hdr.xid.toUInt32 hdr.ret u := by
  obtain ⟨r, hb, he⟩ := h.down m hm
  obtain ⟨u', hdec, hok, hsz, hbody⟩ := decodeReply_buf r
  rw [hb, hdec, Option.some.injEq, Prod.mk.injEq] at hd
  obtain ⟨rfl, rfl⟩ := hd
  rcases he with he | he
  · exact absurd he (not_neg_of_nonneg hr)
  · exact ⟨r, he, rfl, rfl, hok, hsz, hbody⟩

/-- A result sent on a connection of its call is earned by the client of the connection. -/
theorem Traffic.earned {i : ι} {c : Conn κ ι} {j : Job (Conn κ ι)} {r : Result (Conn κ ι)} (h : Traffic s)
    (hv : ∀ k, Rpcc.Valid (g.clt k) (s.clt k))
    (hs : Rpcs.Sourced (g.srv i) (s.srv i) (s.srv i)) (hr : r ∈ (s.srv i).results)
    (hsame : Rpcs.SameCall j r.job) (hroute : Rpcs.Route (s.srv i) j c) :
    s.Earned c.clt (r.job.reply r.ret r.body) := by
  have hnonce : ∀ {j}, Rpcs.FromNet (s.srv i) j → j.nonce = g.cltNonce j.conn.clt := fun hj =>
    ((hv _).issued _ (h.fromNet hj).2).1
  obtain ⟨hkey, hsame⟩ := hsame
  obtain ⟨j', hj', hc, hn, hj0⟩ := hroute
  have hfrom := (hs.execs _ (hs.results r hr).1).1
  have hclt : r.job.conn.clt = c.clt := by
    have hk : r.job.nonce = j.nonce := congrArg Prod.fst hkey
    by_cases h0 : j.nonce = 0
    · rw [hsame h0, ← hj0 h0, hc]
    · have heq : g.cltNonce r.job.conn.clt = g.cltNonce j'.conn.clt := by
        rw [← hnonce hfrom, ← hnonce hj', hn, hk]
      rw [g.clt_inj _ _ (by rw [← hnonce hfrom, hk]; exact h0) heq, hc]
  exact ⟨i, r, hr, hclt ▸ (h.fromNet hfrom).2, rfl⟩

/-- What a server sends to a client is a refusal or is earned. -/
theorem Traffic.output {i : ι} {a : Rpcs.Act (Conn κ ι)} {m : Conn κ ι × Bytes} (h : Traffic s)
    (hv : ∀ k, Rpcc.Valid (g.clt k) (s.clt k))
    (hs : Rpcs.Sourced (g.srv i) (s.srv i) (s.srv i)) (hg : Rpcs.guard (g.srv i) (s.srv i) a)
    (hm : m ∈ (s.srv i).output a) :
    ∃ r : Reply, m.2 = frame r.buf ∧ (r.hdr.ret < 0 ∨ s.Earned m.1.clt r) := by
  rcases hs.output hg hm with ⟨r, hr, hb, j, hsame, hroute⟩ | ⟨j, ret, hj, hc, hret, hb⟩
  · exact ⟨_, hb, .inr (h.earned hv hs hr hsame hroute)⟩
  · exact ⟨_, hb, .inl hret⟩

variable [DecidableEq κ] [DecidableEq ι]

theorem srv_run {tr : List (Act κ ι)} (h : (lts g).Run tr s) (i : ι) :
    (Rpcs.lts (g.srv i)).Run (tr.filterMap (srvAct i)) (s.srv i) :=
  h.component (srv_component g i)

theorem valid_clt {tr : List (Act κ ι)} (h : (unwrapped g).Run tr s) (k : κ) :
    Rpcc.Valid (g.clt k) (s.clt k) :=
  Rpcc.valid_of_run (h.component (clt_unwrapped g k))

theorem sourced_srv {tr : List (Act κ ι)} (h : (lts g).Run tr s) (i : ι) :
    Rpcs.Sourced (g.srv i) (s.srv i) (s.srv i) :=
  Rpcs.sourced_of_run (srv_run h i)

theorem grows_clt (s : RpcNet κ ι) (a : Act κ ι) (k : κ) :
    Rpcc.Grows (s.clt k) ((next g s a).clt k) := by
  cases a with
  | srv i a => exact .of_eq rfl rfl rfl rfl
  | clt k' a =>
      by_cases hk : k = k'
      · subst hk
        simpa [next] using Rpcc.grows_next (e := g.clt k) (s.clt k) a
      · simp only [next, Function.update_of_ne hk]
        exact .of_eq rfl rfl rfl rfl

theorem grows_srv (s : RpcNet κ ι) (a : Act κ ι) (i : ι) :
    Rpcs.Grows (s.srv i) ((next g s a).srv i) := by
  cases a with
  | clt k a => exact .of_eq rfl rfl rfl rfl rfl rfl
  | srv i' a =>
      by_cases hi : i = i'
      · subst hi
        simpa [next] using Rpcs.grows_next (e := g.srv i) (s.srv i) a
      · simp only [next, Function.update_of_ne hi]
        exact .of_eq rfl rfl rfl rfl rfl rfl

theorem later_next (s : RpcNet κ ι) (a : Act κ ι) : Later s (next g s a) where
  issued k := (grows_clt s a k).issued
  results i := (grows_srv s a i).results

theorem Traffic.clt_step {k : κ} {a : Rpcc.Act (Conn κ ι)} (h : Traffic s)
    (hv : Rpcc.Valid (g.clt k) (s.clt k)) (hg : guard g s (.clt k a)) :
    Traffic (next g s (.clt k a)) := by
  have hl := later_next (g := g) s (.clt k a)
  obtain ⟨hguard, hopen, hin⟩ := hg
  refine ⟨fun k' => ?_, fun m hm => ?_, fun i m hm => ?_, fun m hm => ?_, fun k' => ?_⟩
  · by_cases hk : k' = k
    · subst hk
      have hu := (h.uses k').step (e := g.clt k') hguard fun t f c ha =>
        (hopen c (by rw [ha]; rfl)).1
      simpa [next] using hu
    · simpa [next, Function.update_of_ne hk] using h.uses k'
  · rcases List.mem_append.mp hm with hm | hm
    · exact (h.up m hm).mono hl
    · refine Asked.mono ?_ hl
      cases a with
      | tx t f c ok =>
          cases ok with
          | false => cases hm
          | true =>
              obtain rfl := List.mem_singleton.mp hm
              have hc := (h.uses k).threads t
              rw [hguard.1] at hc
              have hq := (hv.inCall t f.req (by rw [hguard.1]; rfl)).1
              exact ⟨f.req, by rw [hc.2]; exact hq, rfl⟩
      | _ => cases hm
  · obtain ⟨hi, ha⟩ := h.received i m hm
    exact ⟨hi, ha.mono hl⟩
  · have hm' : m ∈ s.down := mem_of_mem_take hm
    obtain ⟨r, hb, he⟩ := h.down m hm'
    exact ⟨r, hb, he.imp_right fun he => he.mono hl⟩
  · have hmono : Rpcc.Answered ((next g s (.clt k a)).Got k') (s.clt k').callers :=
      fun t hd hret => (h.callers k' t hd hret).mono hl
    by_cases hk : k' = k
    · subst hk
      have hstep := hmono.step (e := g.clt k') (a := a) hv fun c b ha hdr u hd hret => by
        obtain ⟨hm, hc⟩ := hin (c, b) (by rw [ha]; rfl)
        have hgot := h.got hm hd hret
        rw [show (c, b).1.clt = k' from hc] at hgot
        exact hgot.mono hl
      simpa [next] using hstep
    · simpa [next, Function.update_of_ne hk] using hmono

theorem Traffic.srv_step {i : ι} {a : Rpcs.Act (Conn κ ι)} (h : Traffic s)
    (hv : ∀ k, Rpcc.Valid (g.clt k) (s.clt k))
    (hs : Rpcs.Sourced (g.srv i) (s.srv i) (s.srv i)) (hg : guard g s (.srv i a)) :
    Traffic (next g s (.srv i a)) := by
  have hl := later_next (g := g) s (.srv i a)
  obtain ⟨hguard, hin⟩ := hg
  refine ⟨h.uses, fun m hm => ?_, fun i' m hm => ?_, fun m hm => ?_, fun k t hd hret => ?_⟩
  · have hm' : m ∈ s.up := mem_of_mem_take hm
    exact (h.up m hm').mono hl
  · by_cases hi : i' = i
    · subst hi
      simp only [next, Function.update_self, Rpcs.received_next] at hm
      rcases List.mem_append.mp hm with hm | hm
      · exact ⟨(h.received i' m hm).1, (h.received i' m hm).2.mono hl⟩
      · cases a with
        | gotPdu c b accept =>
            cases accept with
            | false => cases hm
            | true =>
                obtain rfl := List.mem_singleton.mp hm
                exact ⟨hin.2, (h.up _ hin.1).mono hl⟩
        | _ => cases hm
    · simp only [next, Function.update_of_ne hi] at hm
      exact ⟨(h.received i' m hm).1, (h.received i' m hm).2.mono hl⟩
  · rcases List.mem_append.mp hm with hm | hm
    · obtain ⟨r, hb, he⟩ := h.down m hm
      exact ⟨r, hb, he.imp_right fun he => he.mono hl⟩
    · obtain ⟨r, hb, he⟩ := h.output hv hs hguard hm
      exact ⟨r, hb, he.imp_right fun he => he.mono hl⟩
  · exact (h.callers k t hd hret).mono hl

theorem traffic_of_run {tr : List (Act κ ι)} (h : (unwrapped g).Run tr s) : Traffic s := by
  refine h.invariant (I := fun _ s => Traffic s) ?_ ?_
  · rintro s rfl
    exact traffic_init
  · intro tr s a hr hs hg
    cases a with
    | clt k a => exact hs.clt_step (valid_clt hr k) hg.1
    | srv i a => exact hs.srv_step (valid_clt hr) (sourced_srv hr.of_restrict i) hg.1

/-! ## Jobs at a server -/

/-- What is known of every request that came in: who issued it, and with which nonce. -/
theorem job_of_run {tr : List (Act κ ι)} (h : (unwrapped g).Run tr s) {i : ι} {j : Job (Conn κ ι)}
    (hj : Rpcs.FromNet (s.srv i) j) :
    j.conn.srv = i ∧ j.req ∈ (s.clt j.conn.clt).issued ∧ j.nonce = g.cltNonce j.conn.clt := by
  obtain ⟨hi, hq⟩ := (traffic_of_run h).fromNet hj
  exact ⟨hi, hq, ((valid_clt h _).issued _ hq).1⟩

/-- A client's requests that are in flight or came in at a server were sent. -/
theorem received_le_sent {tr : List (Act κ ι)} (h : (unwrapped g).Run tr s) {k : κ} {i : ι}
    {P : Conn κ ι × Bytes → Bool} (hP : ∀ m, P m = true → m.1.clt = k ∧ m.1.srv = i) :
    s.up.countP P + (s.srv i).received.countP P
      ≤ (s.clt k).sent.countP fun m => P (m.1, m.2.pdu) := by
  induction h with
  | init h =>
      cases h
      exact Nat.le_refl _
  | @step tr s a hr hg ih =>
      cases a with
      | clt k' a =>
          obtain ⟨l, hl, ho⟩ := Rpcc.sent_next (e := g.clt k') (s.clt k') a
          by_cases hk : k' = k
          · subst hk
            simp only [unwrapped, Lts.restrict, lts, next, Function.update_self, hl, ho, List.countP_append,
              List.countP_map]
            have hcomp : (P ∘ fun m : Conn κ ι × Request => (m.1, m.2.pdu))
                = fun m => P (m.1, m.2.pdu) := rfl
            rw [hcomp]
            omega
          · have hzero : (Rpcc.output a).countP P = 0 := by
              rw [List.countP_eq_zero]
              intro m hm hp
              have hup := (traffic_of_run hr).uses k'
              cases a with
              | tx t f c ok =>
                  cases ok with
                  | false => cases hm
                  | true =>
                      obtain rfl := List.mem_singleton.mp hm
                      have hc := hup.threads t
                      rw [hg.1.1.1] at hc
                      exact hk (hc.2.symm.trans (hP _ hp).1)
              | _ => cases hm
            simp only [unwrapped, Lts.restrict, lts, next, Function.update_of_ne (Ne.symm hk),
              List.countP_append, hzero]
            omega
      | srv i' a =>
          cases hin : srvInput a with
          | none =>
              have hrec : ((next g s (.srv i' a)).srv i).received = (s.srv i).received := by
                by_cases hi : i' = i
                · subst hi
                  simp [next, Rpcs.received_next, hin]
                · simp [next, Function.update_of_ne (Ne.symm hi)]
              simp only [unwrapped, Lts.restrict, lts, hrec]
              simpa [next, take, hin] using ih
          | some m =>
              have hm : m ∈ s.up ∧ m.1.srv = i' := by
                cases a with
                | gotPdu c b accept =>
                    cases accept with
                    | false => cases hin
                    | true => exact Option.some.inj hin ▸ hg.1.2
                | _ => cases hin
              have hup := Rpcs.countP_erase_add (P := P) hm.1
              by_cases hi : i' = i
              · subst hi
                simp only [unwrapped, Lts.restrict, lts, next, Function.update_self, Rpcs.received_next, hin, take,
                  List.countP_append, Option.toList_some, List.countP_singleton]
                omega
              · have hp : ¬ P m = true := fun hp => hi (hm.2.symm.trans (hP m hp).2)
                rw [if_neg hp] at hup
                simp only [unwrapped, Lts.restrict, lts, next, Function.update_of_ne (Ne.symm hi), hin, take]
                omega

end RpcNet
end StanDfs
