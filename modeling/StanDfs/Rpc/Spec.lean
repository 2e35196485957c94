import StanDfs.Lib.OnceCalls
import StanDfs.Lib.Simulation
import StanDfs.Rpc.AtMostOnce
import StanDfs.Rpc.Lemmas.Handlers
import StanDfs.Rpc.Lemmas.Replies

/-!
# Calls of procedures as their callers see them

To its callers the system of clients, servers and network is calls that are executed at most once. A call
is made when `call1` has built its request, executed when its handler returns, and answered when `call1`
returns. `bind` is apart: each instance may be asked for its nonce.
-/

namespace StanDfs.RpcNet

variable {κ ι : Type*} {g : Config κ ι} {s : RpcNet κ ι}

/-- A call of a client, by its request; what a handler returned and marshalled. -/
abbrev CallAct (κ : Type*) := OnceCalls.Act (κ × Request) (Int32 × Bytes)

/-- What `call1` gives its caller: the value with the body of the reply, or an error. -/
def answerOf (s : RpcNet κ ι) (k : κ) (t : Tid) (r : Int32) : Option (Int32 × Bytes) :=
  if 0 ≤ r then some (r, ((s.clt k).callers t).un.buf.drop ((s.clt k).callers t).un.ind) else none

/-- What a step is to the callers. -/
def callView (g : Config κ ι) (s : RpcNet κ ι) : Act κ ι → List (CallAct κ)
  | .clt k (.call1 _ proc args) =>
    let q := (s.clt k).request (g.clt k) proc args
    if (s.clt k).refuses proc ∨ Rpcc.IsBind q then [] else [.make (k, q)]
  | .clt k (.ret t f r) => if Rpcc.IsBind f.req then [] else [.answer (k, f.req) (s.answerOf k t r)]
  | .srv _ (.handled _ j ret body) =>
    if Rpcc.IsBind j.req then [] else [.run (j.conn.clt, j.req) (ret, body)]
  | _ => []

/-- A handler called for a call of the client returned the value and the body. -/
def ResultOf (s : RpcNet κ ι) (a : κ × Request) (r : Int32 × Bytes) : Prop :=
  ∃ i, ∃ res ∈ (s.srv i).results, (res.job.conn.clt, res.job.req) = a ∧ (res.ret, res.body) = r

/-- How the calls stand in a state of the system. -/
structure Abstracts (s : RpcNet κ ι) (t : OnceCalls (κ × Request) (Int32 × Bytes)) : Prop where
  made : ∀ k q, (k, q) ∈ t.made ↔ q ∈ (s.clt k).issued ∧ ¬ Rpcc.IsBind q
  result : ∀ a r, t.result a = some r ↔ s.ResultOf a r ∧ ¬ Rpcc.IsBind a.2
  answer : ∀ k th q, s.inCall k th = some q → t.answer (k, q) = none

theorem abstracts_init : Abstracts (init : RpcNet κ ι) .init where
  made k q := by simp [OnceCalls.init, init, Rpcc.init]
  result a r := by simp [OnceCalls.init, ResultOf, init, Rpcs.init]
  answer k th q hq := rfl

/-- A step that begins no call, ends none and returns from no handler. -/
theorem Abstracts.quiet {s' : RpcNet κ ι} {t : OnceCalls (κ × Request) (Int32 × Bytes)} (h : s.Abstracts t)
    (hi : ∀ k, (s'.clt k).issued = (s.clt k).issued) (hr : ∀ i, (s'.srv i).results = (s.srv i).results)
    (hc : ∀ k th, s'.inCall k th = s.inCall k th) : s'.Abstracts t where
  made k q := by
    rw [hi]
    exact h.made k q
  result a r := by
    simp only [ResultOf, hr]
    exact h.result a r
  answer k th q hq := h.answer k th q (by rw [← hc]; exact hq)

/-- The steps that callers see are those that begin or end a call, or return from a handler. -/
theorem callView_eq_nil {a : Act κ ι}
    (hcall : ∀ k t proc args, a = .clt k (.call1 t proc args) → (s.clt k).refuses proc = true)
    (hret : ∀ k t f r, a ≠ .clt k (.ret t f r)) (hh : ∀ i w j ret body, a ≠ .srv i (.handled w j ret body)) :
    callView g s a = [] := by
  cases a with
  | clt k a =>
      cases a with
      | call1 t proc args => simp [callView, hcall k t proc args rfl]
      | ret t f r => exact absurd rfl (hret k t f r)
      | _ => rfl
  | srv i a =>
      cases a with
      | handled w j ret body => exact absurd rfl (hh i w j ret body)
      | _ => rfl

variable [DecidableEq κ] [DecidableEq ι]

/-- While the handler of a call runs, no other has returned for it. -/
theorem not_resultOf_of_running {tr : List (Act κ ι)} (h : (unwrapped g).Run tr s) {i : ι} {w : Worker}
    {j : Job (Conn κ ι)} (hw : (s.srv i).workers w = .running j) (hb : ¬ Rpcc.IsBind j.req)
    (r : Int32 × Bytes) : ¬ s.ResultOf (j.conn.clt, j.req) r := by
  rintro ⟨i', res, hres, heq, -⟩
  obtain ⟨hclt, hreq⟩ := Prod.mk.inj heq
  have hj : j ∈ (s.srv i).execs := by
    have hok := (sourced_srv h.of_restrict i).workers w
    rw [hw] at hok
    exact hok
  have hj' : res.job ∈ (s.srv i').execs := ((sourced_srv h.of_restrict i').results res hres).1
  have hacc := accepted_of_run h hj hb
  have hacc' := accepted_of_run h hj' (by rw [hreq]; exact hb)
  obtain rfl : i' = i := g.srv_inj _ _ (by rw [← hacc', hreq, hacc])
  have hq := (job_of_run h ((sourced_srv h.of_restrict i').execs j hj).1).2.1
  have hone : s.execs j.conn.clt j.req.xid i' ≤ 1 := by
    by_cases hn : g.cltNonce j.conn.clt = 0
    · exact execs_of_not_retrans h i' hq hn
    · exact execs_of_nonce h i' hq hn
  have hlt := Rpcs.countP_lt_of_running (srv_run h.of_restrict i') hw
    (P := fun j' => decide (j'.conn.clt = j.conn.clt ∧ j'.xid = j.req.xid)) (by simp [Job.xid])
  have hpos : 0 < ((s.srv i').results.map Result.job).countP
      fun j' => decide (j'.conn.clt = j.conn.clt ∧ j'.xid = j.req.xid) :=
    List.countP_pos_iff.mpr ⟨res.job, List.mem_map_of_mem hres, by simp [hclt, Job.xid, hreq]⟩
  unfold execs at hone
  omega

/-- The calls of two threads are apart. -/
theorem inCall_unique {tr : List (Act κ ι)} (h : (unwrapped g).Run tr s) {k : κ} {th th' : Tid} {q : Request}
    (hq : s.inCall k th = some q) (hq' : s.inCall k th' = some q) : th = th' :=
  (valid_clt h k).apart th th' q hq hq'

omit [DecidableEq ι] in
/-- The call that `call1` begins is new. -/
theorem Abstracts.begins {l : List (CallAct κ)} {t : OnceCalls (κ × Request) (Int32 × Bytes)}
    (h : s.Abstracts t) (hl : OnceCalls.lts.Run l t) {k : κ} {th : Tid} {q : Request} {s' : RpcNet κ ι}
    (hx : ∀ q' ∈ (s.clt k).issued, q'.xid ≠ q.xid) (hth : s'.inCall k th = some q)
    (hother : ∀ k' t', (k', t') ≠ (k, th) → s'.inCall k' t' = s.inCall k' t')
    (hissued : ∀ k' q', q' ∈ (s'.clt k').issued ↔ q' ∈ (s.clt k').issued ∨ k' = k ∧ q' = q)
    (hres : ∀ i, (s'.srv i).results = (s.srv i).results) :
    ∃ t', OnceCalls.lts.Run ((if Rpcc.IsBind q then [] else [.make (k, q)]) ++ l) t' ∧
      s'.Abstracts t' := by
  have hnew : q ∉ (s.clt k).issued := fun hq => hx q hq rfl
  have hin : ∀ k' t' q', s'.inCall k' t' = some q' → (k', q') = (k, q) ∨ s.inCall k' t' = some q' := by
    intro k' t' q' hq'
    by_cases heq : (k', t') = (k, th)
    · cases heq
      rw [hth] at hq'
      exact .inl (by rw [Option.some.inj hq'])
    · exact .inr (by rw [← hother k' t' heq]; exact hq')
  have hunanswered : t.answer (k, q) = none := by
    cases ha : t.answer (k, q) with
    | none => rfl
    | some o =>
        have hm := (OnceCalls.tells_of_run hl (k, q)).made_of_answer ha
        exact absurd ((h.made k q).mp hm).1 hnew
  by_cases hb : Rpcc.IsBind q
  · rw [if_pos hb]
    refine ⟨t, hl, ⟨fun k' q' => ?_, fun a r => ?_, fun k' t' q' hq' => ?_⟩⟩
    · rw [h.made, hissued]
      grind
    · simp only [ResultOf, hres]
      exact h.result a r
    · rcases hin k' t' q' hq' with heq | hq'
      · rw [heq]
        exact hunanswered
      · exact h.answer k' t' q' hq'
  · rw [if_neg hb]
    have hmade : (k, q) ∉ t.made := fun hm => hnew ((h.made k q).mp hm).1
    refine ⟨t.next (.make (k, q)), .step hl hmade, ⟨fun k' q' => ?_, fun a r => ?_, fun k' t' q' hq' => ?_⟩⟩
    · simp only [OnceCalls.next, Set.mem_insert_iff, h.made, hissued, Prod.mk.injEq]
      grind
    · simp only [ResultOf, hres]
      exact h.result a r
    · rcases hin k' t' q' hq' with heq | hq'
      · rw [heq]
        exact hunanswered
      · exact h.answer k' t' q' hq'

/-- A call that returns has its answer. -/
theorem Abstracts.ends {tr : List (Act κ ι)} {l : List (CallAct κ)}
    {t : OnceCalls (κ × Request) (Int32 × Bytes)} (h : s.Abstracts t) (hr : (unwrapped g).Run tr s)
    (hl : OnceCalls.lts.Run l t) {k : κ} {th : Tid} {f : Call (Conn κ ι)} {r : Int32} {s' : RpcNet κ ι}
    (hg : (s.clt k).guard (.ret th f r)) (hth : s'.inCall k th = none)
    (hother : ∀ k' t', (k', t') ≠ (k, th) → s'.inCall k' t' = s.inCall k' t')
    (hissued : ∀ k', (s'.clt k').issued = (s.clt k').issued)
    (hres : ∀ i, (s'.srv i).results = (s.srv i).results) :
    ∃ t', OnceCalls.lts.Run ((if Rpcc.IsBind f.req then [] else
      [.answer (k, f.req) (s.answerOf k th r)]) ++ l) t' ∧ s'.Abstracts t' := by
  have hf : s.inCall k th = some f.req := by rw [inCall, hg.1]; rfl
  have hin : ∀ k' t' q', s'.inCall k' t' = some q' → (k', t') ≠ (k, th) ∧ s.inCall k' t' = some q' := by
    intro k' t' q' hq'
    by_cases heq : (k', t') = (k, th)
    · cases heq
      rw [hth] at hq'
      cases hq'
    · exact ⟨heq, by rw [← hother k' t' heq]; exact hq'⟩
  by_cases hb : Rpcc.IsBind f.req
  · rw [if_pos hb]
    refine ⟨t, hl, ⟨fun k' q' => ?_, fun a r => ?_, fun k' t' q' hq' => ?_⟩⟩
    · rw [hissued]
      exact h.made k' q'
    · simp only [ResultOf, hres]
      exact h.result a r
    · exact h.answer k' t' q' (hin k' t' q' hq').2
  · rw [if_neg hb]
    have hguard : t.guard (.answer (k, f.req) (s.answerOf k th r)) := by
      refine ⟨(h.made k f.req).mpr ⟨((valid_clt hr k).inCall th f.req hf).1, hb⟩, h.answer k th _ hf, ?_⟩
      intro v hv
      unfold answerOf at hv
      split at hv
      · rename_i h0
        obtain rfl := Option.some.inj hv
        obtain ⟨i, res, hres, hc, hq, hret, hbody⟩ := returned_of_ret hr hg h0
        exact (h.result _ _).mpr ⟨⟨i, res, hres, by rw [hc, hq], by rw [hret, hbody]⟩, hb⟩
      · cases hv
    refine ⟨_, .step hl hguard, ⟨fun k' q' => ?_, fun a r => ?_, fun k' t' q' hq' => ?_⟩⟩
    · rw [hissued]
      exact h.made k' q'
    · simp only [ResultOf, hres]
      exact h.result a r
    · obtain ⟨hne, hq'⟩ := hin k' t' q' hq'
      have hcall : (k', q') ≠ (k, f.req) := fun heq => by
        cases heq
        exact hne (by rw [inCall_unique hr hq' hf])
      exact (OnceCalls.answer_answer_of_ne t _ hcall).trans (h.answer k' t' q' hq')

/-- A handler that returns is the only one that was called for its call. -/
theorem Abstracts.handled {tr : List (Act κ ι)} {l : List (CallAct κ)}
    {t : OnceCalls (κ × Request) (Int32 × Bytes)} (h : s.Abstracts t) (hr : (unwrapped g).Run tr s)
    (hl : OnceCalls.lts.Run l t) {i : ι} {w : Worker} {j : Job (Conn κ ι)} {ret : Int32} {body : Bytes}
    {s' : RpcNet κ ι} (hw : (s.srv i).workers w = .running j) (hclt : s'.clt = s.clt)
    (hres : ∀ i', ∀ res, res ∈ (s'.srv i').results ↔
      res ∈ (s.srv i').results ∨ i' = i ∧ res = ⟨j, ret, body⟩) :
    ∃ t', OnceCalls.lts.Run ((if Rpcc.IsBind j.req then [] else
      [.run (j.conn.clt, j.req) (ret, body)]) ++ l) t' ∧ s'.Abstracts t' := by
  have hsplit : ∀ a r, s'.ResultOf a r ↔
      s.ResultOf a r ∨ (j.conn.clt, j.req) = a ∧ (ret, body) = r := by
    intro a r
    constructor
    · rintro ⟨i', res, hm, ha, hv⟩
      rcases (hres i' res).mp hm with hm | ⟨rfl, rfl⟩
      · exact .inl ⟨i', res, hm, ha, hv⟩
      · exact .inr ⟨ha, hv⟩
    · rintro (⟨i', res, hm, hv⟩ | ⟨rfl, rfl⟩)
      · exact ⟨i', res, (hres i' res).mpr (.inl hm), hv⟩
      · exact ⟨i, _, (hres i _).mpr (.inr ⟨rfl, rfl⟩), rfl, rfl⟩
  have hin : ∀ k th, s'.inCall k th = s.inCall k th := fun k th => by rw [inCall, inCall, hclt]
  by_cases hb : Rpcc.IsBind j.req
  · rw [if_pos hb]
    refine ⟨t, hl, ⟨fun k q => ?_, fun a r => ?_, fun k th q hq => ?_⟩⟩
    · rw [hclt]
      exact h.made k q
    · rw [h.result, hsplit]
      grind
    · exact h.answer k th q (by rw [← hin]; exact hq)
  · rw [if_neg hb]
    have hexec : j ∈ (s.srv i).execs := by
      have hok := (sourced_srv hr.of_restrict i).workers w
      rw [hw] at hok
      exact hok
    have hq := (job_of_run hr ((sourced_srv hr.of_restrict i).execs j hexec).1).2.1
    have hnone : t.result (j.conn.clt, j.req) = none := by
      cases hv : t.result (j.conn.clt, j.req) with
      | none => rfl
      | some r => exact absurd ((h.result _ _).mp hv).1 (not_resultOf_of_running hr hw hb r)
    refine ⟨_, .step hl ⟨(h.made _ _).mpr ⟨hq, hb⟩, hnone⟩, ⟨fun k q => ?_, fun a r => ?_, fun k th q hq => ?_⟩⟩
    · rw [hclt]
      exact h.made k q
    · rw [hsplit]
      by_cases ha : a = (j.conn.clt, j.req)
      · subst ha
        have hno := not_resultOf_of_running hr hw hb r
        simp [OnceCalls.lts, hno, hb]
      · have hr' := OnceCalls.result_run_of_ne t (ret, body) ha
        simp only [OnceCalls.lts, hr', h.result, Ne.symm ha]
        simp
    · exact h.answer k th q (by rw [← hin]; exact hq)

/-- Every step of the system is a step of the calls or none. -/
theorem callSimulation (g : Config κ ι) : Lts.Simulation (unwrapped g) OnceCalls.lts (callView g) Abstracts where
  init s hs := by
    cases hs
    exact ⟨.init, rfl, abstracts_init⟩
  step := by
    intro tr s l t a hr hl h ⟨hg, hu⟩
    have hc := callStep hg
    have hresults : ∀ k b i, a = .clt k b → ((next g s a).srv i).results = (s.srv i).results := by
      rintro k b i rfl
      rfl
    show ∃ t', OnceCalls.lts.Run (callView g s a ++ l) t' ∧ Abstracts (next g s a) t'
    generalize hs' : next g s a = s' at hc hresults
    cases hc with
    | other hcall hret hi hin =>
        by_cases hh : ∃ i w j ret body, a = .srv i (.handled w j ret body)
        · obtain ⟨i, w, j, ret, body, rfl⟩ := hh
          refine h.handled hr hl hg.1.2.1 (by rw [← hs']; rfl) fun i' res => ?_
          rcases Rpcs.handling hg.1 with ⟨hno, _⟩ | ⟨hno, _⟩ | ⟨_, _, _, _, hres⟩
          · exact absurd rfl (hno w j ret body)
          · exact absurd rfl (hno w j ret body)
          · subst hs'
            by_cases hii : i' = i
            · subst hii
              simp [next, hres]
            · simp [next, hii]
        · have hh : ∀ i w j ret body, a ≠ .srv i (.handled w j ret body) := fun i w j ret body heq =>
            hh ⟨i, w, j, ret, body, heq⟩
          rw [callView_eq_nil hcall hret hh]
          refine ⟨t, hl, h.quiet hi (fun i => ?_) hin⟩
          subst hs'
          cases a with
          | clt k a => rfl
          | srv i' a =>
              by_cases hii : i = i'
              · subst hii
                rcases Rpcs.results_next (e := g.srv i) (s.srv i) a with heq | ⟨w, j, ret, body, rfl, _⟩
                · simpa [next] using heq
                · exact absurd rfl (hh i w j ret body)
              · simp [next, hii]
    | @begins k th proc args q hrefuses hq hnone hth ho hi =>
        have hnew : ∀ q' ∈ (s.clt k).issued, q'.xid ≠ q.xid := fun q' hq' => by
          rw [hq, Rpcc.xid_request]
          exact (valid_clt hr k).not_issued (hu hrefuses) q' hq'
        have hb := h.begins hl hnew hth ho hi fun i => hresults k _ i rfl
        simpa [callView, hrefuses, ← hq] using hb
    | @ends k th f r hf hth ho hi =>
        exact h.ends hr hl hg.1 hth ho hi fun i => hresults k _ i rfl

theorem calls_of_sees {tr : List (Act κ ι)} {l : List (CallAct κ)} (h : (lts g).Sees (callView g) tr s l)
    (hf : s.FewCalls) : ∃ t, OnceCalls.lts.Run l t ∧ s.Abstracts t :=
  (callSimulation g).run (h.restrict (by rintro s s' rfl rfl; rfl) (hf.run h.run))

/-- What callers see of a run in which no client makes 2³² calls is a run of calls that are executed at most
once and answered with the result of their one execution; of each call it is one of seven possible lives. -/
theorem calls_simulated {tr : List (Act κ ι)} {l : List (CallAct κ)} (h : (lts g).Sees (callView g) tr s l)
    (hf : s.FewCalls) : ∃ t, OnceCalls.lts.Run l t ∧ s.Abstracts t ∧
      ∀ a : κ × Request, OnceCalls.Life a (l.filter fun b => b.call = a) := by
  obtain ⟨t, hl, ht⟩ := calls_of_sees h hf
  exact ⟨t, hl, ht, fun a => (OnceCalls.tells_of_run hl a).life⟩

/-- A client binds and makes a call that returns the byte 3. -/
theorem calls_simulated_solo : ∃ tr s l, (lts Solo.config).Sees (callView Solo.config) tr s l ∧
    l = [.answer ((), Solo.req 2 1) (some (0, [3])), .run ((), Solo.req 2 1) (0, [3]),
      .make ((), Solo.req 2 1)] ∧
    ∀ a : Unit × Request, OnceCalls.Life a (l.filter fun b => b.call = a) := by
  have h0 : (lts Solo.config).Sees (callView Solo.config) [] init [] := .init rfl
  have hex : ((lts Solo.config).exec init (Solo.bind ++ Solo.call 0 0 (Solo.req 2 1) 1 [3])).isSome :=
    by decide +kernel
  have hsees := h0.exec (Option.get_mem hex)
  have hf : ∀ s ∈ (lts Solo.config).exec init (Solo.bind ++ Solo.call 0 0 (Solo.req 2 1) 1 [3]),
      (s.clt ()).issued.length < 2 ^ 32 := by decide +kernel
  obtain ⟨_, _, _, hlife⟩ := calls_simulated hsees fun _ => hf _ (Option.get_mem hex)
  exact ⟨_, _, _, hsees, by decide +kernel, hlife⟩

end StanDfs.RpcNet
