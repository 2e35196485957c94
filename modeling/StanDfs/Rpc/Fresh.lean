import StanDfs.Rpc.Lemmas.Refusals

/-!
# Any number of calls

The xid of a call, the front of the window and the floor at a server are compared as unsigned numbers,
and the counter `xid_` wraps around. A client's calls are told apart from the old ones until then.
-/

namespace StanDfs

namespace Rpcc

variable {χ : Type*} {e : Env} {s : Rpcc χ}

/-- A request can be told from the old ones: its `xid_rep` is below its xid, and no other call with this
xid is outstanding. -/
def Distinguished (s : Rpcc χ) (q : Request) : Prop :=
  q.hdr.xidRep.toUInt32 < q.xid ∧ s.calls.lookup q.xid = none

theorem Distinguished.xid_ne_zero {proc : UInt32} {args : Bytes}
    (h : s.Distinguished (s.request e proc args)) : s.xid ≠ 0 := by
  have hlt := h.1
  rw [xid_request] at hlt
  rintro heq
  rw [heq] at hlt
  exact UInt32.not_lt_zero hlt

theorem Valid.distinguished {proc : UInt32} {args : Bytes} (h : Valid e s) (hx : s.xid ≠ 0)
    (hrep : ∀ x ∈ s.replied, ∃ q ∈ s.issued, q.xid = x) :
    s.Distinguished (s.request e proc args) := by
  have hno := h.not_issued hx
  unfold Distinguished
  rw [xid_request]
  constructor
  · simp only [request, UInt32.toUInt32_toInt32]
    by_contra hge
    have hpos : 0 < s.xid := UInt32.pos_iff_ne_zero.mpr hx
    rcases h.window.below s.xid hpos (UInt32.not_lt.mp hge) with hr | hl
    · obtain ⟨q, hq, hqx⟩ := hrep _ hr
      exact hno q hq hqx
    · obtain ⟨_, q, hq, hqx⟩ := h.left _ hl
      exact hno q hq hqx
  · cases hl : s.calls.lookup s.xid with
    | none => rfl
    | some t =>
        obtain ⟨q, hq, hqx⟩ := h.calls _ t hl
        exact absurd hqx (hno q (h.inCall t q (active_inCall hq)).1)

theorem Settled.cancel (h : s.Settled fun _ => True) : s.cancel.Settled fun _ => True where
  replied := h.replied
  fresh x t hl hd := by
    refine h.fresh x t hl ?_
    simp only [Rpcc.cancel] at hd
    split at hd
    · cases hd
    · exact hd
  done _ _ _ _ := trivial

/-- The client is not bound, has no connection, and the thread is in no call. -/
structure Unbound (s : Rpcc χ) (t : Tid) : Prop where
  idle : s.threads t = .idle
  bindDone : s.bindDone = false
  destroyWait : s.destroyWait = false
  chan : s.chan = none

/-- A call that finds no connection and times out. -/
def timeoutCall (f : Call χ) (t : Tid) : List (Act χ) :=
  [.call1 t RpcConst.bind [], .getRefconn t f none, .giveup t f, .leave t f,
    .ret t f RpcConst.timeoutFailure]

theorem Unbound.timeout [DecidableEq χ] {t : Tid} (h : s.Unbound t) :
    ∃ s', (lts e).exec s (timeoutCall ⟨s.request e RpcConst.bind [], none⟩ t) = some s' ∧
      s'.Unbound t ∧ s'.issued.length = s.issued.length + 1 := by
  obtain ⟨hidle, hbind, hwait, hchan⟩ := h
  have hr : s.refuses RpcConst.bind = false := by simp [refuses, hbind, hwait]
  have hne : RpcConst.timeoutFailure ≠ 0 := by decide
  simp [timeoutCall, Lts.exec, lts, guard, next, Rpcc.call1, hr, hidle, getRefconn,
    chanAlive, hchan, Rpcc.setThread, Rpcc.leave, Rpcc.ret, result, hne]
  constructor <;> simp [hbind, hwait]

end Rpcc

namespace Rpcs

variable {χ : Type*} {e : Env χ} {s : Rpcs χ}

/-- Every entry of the reply window was made by a check of its call. -/
def Entries (tr : List (Act χ)) (s : Rpcs χ) : Prop :=
  ∀ n, ∀ en ∈ s.table.replies n, ∃ w j, Act.check w j ∈ tr ∧ j.key = (n, en.xid)

theorem entry_check {w : Worker} {j : Job χ} {n : UInt32} {en : ReplyT}
    (hen : en ∈ (s.check w j).table.replies n) :
    (∃ en' ∈ s.table.replies n, en'.xid = en.xid) ∨ j.key = (n, en.xid) := by
  unfold check at hen
  split at hen
  · exact .inl ⟨en, hen, rfl⟩
  · rename_i st t freed hc
    rw [table_answer] at hen
    rcases (ReplyTable.checked hc).of_mem hen with hold | ⟨_, rfl, rfl⟩
    · exact .inl ⟨en, hold, rfl⟩
    · exact .inr rfl

theorem entry_of_record {w : Worker} {j : Job χ} {b : Addr} {n : UInt32} {en : ReplyT}
    (hen : en ∈ (s.record w j b).table.replies n) : ∃ en' ∈ s.table.replies n, en'.xid = en.xid := by
  unfold record at hen
  split at hen
  · exact ⟨en, hen, rfl⟩
  · rename_i t ht
    have hrec := ReplyTable.recorded (by omega) ht
    have hx : en.xid ∈ (t.replies n).map ReplyT.xid := List.mem_map_of_mem hen
    rw [hrec.xids] at hx
    exact List.mem_map.mp hx

variable [DecidableEq χ]

theorem entry_of_next {a : Act χ} {n : UInt32} {en : ReplyT}
    (hen : en ∈ (s.next e a).table.replies n) :
    (∃ en' ∈ s.table.replies n, en'.xid = en.xid) ∨ ∃ w j, a = .check w j ∧ j.key = (n, en.xid) := by
  have hsame {t : ReplyTable} (ht : t.replies n = s.table.replies n) (hen : en ∈ t.replies n) :
      ∃ en' ∈ s.table.replies n, en'.xid = en.xid := ⟨en, ht ▸ hen, rfl⟩
  cases a with
  | gotPdu c b accept => cases accept <;> exact .inl ⟨en, hen, rfl⟩
  | begin w c b =>
      rw [next, table_begin] at hen
      exact .inl ⟨en, hen, rfl⟩
  | seen w j => exact .inl (hsame (ReplyTable.replies_create ..) hen)
  | check w j => exact (entry_check hen).imp_right fun hk => ⟨w, j, rfl, hk⟩
  | handled w j ret body =>
      simp only [next, handled] at hen
      split at hen <;> exact .inl ⟨en, hen, rfl⟩
  | record w j b => exact .inl (entry_of_record hen)
  | choose w j b =>
      simp only [next, choose] at hen
      split at hen <;> exact .inl ⟨en, hen, rfl⟩
  | _ => exact .inl ⟨en, hen, rfl⟩

theorem entries_of_run {tr : List (Act χ)} (h : (lts e).Run tr s) : Entries tr s := by
  refine h.invariant (I := Entries) ?_ ?_
  · rintro s rfl n en hen
    cases hen
  · intro tr s a _ hs _ n en hen
    rcases entry_of_next hen with ⟨en', hen', hx⟩ | ⟨w, j, rfl, hk⟩
    · obtain ⟨w, j, hm, hk⟩ := hs n en' hen'
      exact ⟨w, j, List.mem_cons_of_mem _ hm, hx ▸ hk⟩
    · exact ⟨w, j, List.mem_cons_self, hk⟩

end Rpcs

namespace RpcNet

variable {κ ι : Type*} {g : Config κ ι} {s : RpcNet κ ι}

/-- Every reply on its way, and every one processed, is for a call of the client, and every call has an
`xid_rep` below its xid. -/
structure Traced (s : RpcNet κ ι) : Prop where
  down : ∀ m ∈ s.down, ∃ r : Reply, m.2 = frame r.buf ∧
    ∃ q ∈ (s.clt m.1.clt).issued, q.hdr.xid = r.hdr.xid
  callers : ∀ k, (s.clt k).Settled fun _ => True
  below : ∀ k, ∀ q ∈ (s.clt k).issued, q.hdr.xidRep.toUInt32 < q.xid

variable [DecidableEq κ] [DecidableEq ι]

theorem traced_output {tr : List (Act κ ι)} (h : (unwrapped g).Run tr s) {i : ι}
    {a : Rpcs.Act (Conn κ ι)} {m : Conn κ ι × Bytes} (hg : Rpcs.guard (g.srv i) (s.srv i) a)
    (hm : m ∈ (s.srv i).output a) :
    ∃ r : Reply, m.2 = frame r.buf ∧ ∃ q ∈ (s.clt m.1.clt).issued, q.hdr.xid = r.hdr.xid := by
  have hs := sourced_srv h.of_restrict i
  rcases hs.output hg hm with ⟨r, hr, hb, j, hsame, hroute⟩ | ⟨j, ret, hj, hc, _, hb⟩
  · refine ⟨_, hb, ?_⟩
    obtain ⟨_, res, _, hq, heq⟩ := (traffic_of_run h).earned (valid_clt h) hs hr hsame hroute
    have hx : r.job.req.hdr.xid = res.job.req.hdr.xid := congrArg (fun r => r.hdr.xid) heq
    exact ⟨_, hq, hx.symm⟩
  · refine ⟨_, hb, j.req, ?_, rfl⟩
    rw [hc]
    exact (job_of_run h hj).2.1

/-- The request that a step of a client makes is above its `xid_rep`. -/
theorem Traced.below_next {s : RpcNet κ ι} (hs : Traced s) {k : κ} {a : Rpcc.Act (Conn κ ι)}
    (hv : Rpcc.Valid (g.clt k) (s.clt k)) (hu : (s.clt k).Unwrapped a) {q : Request}
    (hq : q ∈ ((s.clt k).next (g.clt k) a).issued) : q.hdr.xidRep.toUInt32 < q.xid := by
  by_cases ha : ∃ t proc args, a = .call1 t proc args
  · obtain ⟨t, proc, args, rfl⟩ := ha
    rw [Rpcc.next, Rpcc.call1] at hq
    split at hq
    · exact hs.below k q hq
    · rename_i hr
      rcases List.mem_append.mp hq with hq | hq
      · exact hs.below k q hq
      · rw [List.mem_singleton.mp hq]
        exact (hv.distinguished (hu (by simpa using hr)) (hs.callers k).replied).1
  · rw [(Rpcc.calls_next fun t proc args heq => ha ⟨t, proc, args, heq⟩).2] at hq
    exact hs.below k q hq

theorem Traced.clt_step {tr : List (Act κ ι)} (h : (unwrapped g).Run tr s) (hs : Traced s) {k : κ}
    {a : Rpcc.Act (Conn κ ι)} (hg : guard g s (.clt k a)) (hu : (s.clt k).Unwrapped a) :
    Traced (next g s (.clt k a)) := by
  have hl := later_next (g := g) s (.clt k a)
  refine ⟨fun m hm => ?_, fun k' => ?_, fun k' q hq => ?_⟩
  · have hm' : m ∈ s.down := mem_of_mem_take hm
    obtain ⟨r, hb, q, hq, hx⟩ := hs.down m hm'
    exact ⟨r, hb, q, hl.issued _ hq, hx⟩
  · by_cases hk : k' = k
    · subst hk
      have hstep : ((s.clt k').next (g.clt k') a).Settled fun _ => True := by
        by_cases hc : a = .cancel
        · rw [hc]
          exact (hs.callers k').cancel
        · refine (hs.callers k').step (valid_clt h k') hg.1 hu hc ?_
          intro c b ha hdr u hdec
          obtain ⟨hm, hck⟩ := hg.2.2 (c, b) (by rw [ha]; rfl)
          obtain ⟨r, hb, q, hq, hx⟩ := hs.down _ hm
          obtain ⟨u', hdec', _⟩ := decodeReply_buf r
          simp only at hb
          rw [hb, hdec', Option.some.injEq, Prod.mk.injEq] at hdec
          have hck : c.clt = k' := hck
          rw [hck] at hq
          exact ⟨⟨q, hq, by rw [← hdec.1, ← hx]; rfl⟩, fun _ => trivial⟩
      simpa [next] using hstep
    · simpa [next, Function.update_of_ne hk] using hs.callers k'
  · by_cases hk : k' = k
    · subst hk
      simp only [next, Function.update_self] at hq
      exact hs.below_next (valid_clt h k') hu hq
    · simp only [next, Function.update_of_ne hk] at hq
      exact hs.below k' q hq

theorem traced_of_run {tr : List (Act κ ι)} (h : (unwrapped g).Run tr s) : Traced s := by
  refine h.invariant (I := fun _ s => Traced s) ?_ ?_
  · rintro s rfl
    exact ⟨fun m hm => (by cases hm), fun k => ⟨fun x hx => (by cases hx), fun x t hl => (by cases hl),
      fun t q hq => (by cases hq)⟩, fun k q hq => (by cases hq)⟩
  · intro tr s a hr hs ⟨hg, hu⟩
    cases a with
    | clt k a => exact hs.clt_step hr hg hu
    | srv i a =>
        refine ⟨fun m hm => ?_, hs.callers, hs.below⟩
        rcases List.mem_append.mp hm with hm | hm
        · exact hs.down m hm
        · exact traced_output hr hg.1 hm

/-! ## The first copy of a call -/

/-- No copy of the job's call came to the check of the server before. -/
def First (tr : List (Act κ ι)) (i : ι) (j : Job (Conn κ ι)) : Prop :=
  ∀ w j', Act.srv i (.check w j') ∈ tr → j'.key ≠ j.key

/-- The check answers that the call is new. -/
def NewAt (s : RpcNet κ ι) (i : ι) (j : Job (Conn κ ι)) : Prop :=
  ∃ t freed, (s.srv i).table.checkduplicateAndUpdate j.nonce j.xid j.xidRep = some (.new, t, freed)

/-- The copy is not too late: the client wants a reply to its call, or the floor that the server has for the
client is not above the call. -/
def Timely (s : RpcNet κ ι) (i : ι) (j : Job (Conn κ ι)) : Prop :=
  (s.clt j.conn.clt).Wanted j.xid ∨ ¬ (s.srv i).table.Below j.nonce j.xid

omit [DecidableEq κ] [DecidableEq ι] in
theorem timely_of_newAt {i : ι} {j : Job (Conn κ ι)} (h : NewAt s i j) : Timely s i j := by
  obtain ⟨t, freed, hc⟩ := h
  refine .inr fun ⟨f, hf, hlt⟩ => ?_
  cases ReplyTable.checked hc with
  | new hge =>
      exact UInt32.not_lt.mpr (UInt32.le_trans (ReplyTable.floor_le_newFloor j.xidRep hf) hge) hlt

/-- The first copy of a call that is not too late is new. -/
theorem newAt_of_first {tr tr' : List (Act κ ι)} (h : (lts g).Run tr s) (h' : (unwrapped g).Run tr' s) {i : ι}
    {w : Worker} {j : Job (Conn κ ι)} (hg : guard g s (.srv i (.check w j))) (hf : First tr i j)
    (ht : Timely s i j) : NewAt s i j := by
  have hw : (s.srv i).workers w = .check j := hg.1.2
  have hok := (sourced_srv h i).workers w
  rw [hw] at hok
  obtain ⟨hj, _, hn⟩ := hok
  obtain ⟨_, hq, hnonce⟩ := job_of_run h' hj
  have hno : ∀ en ∈ (s.srv i).table.replies j.nonce, en.xid ≠ j.xid := by
    intro en hen hx
    obtain ⟨w', j', hm, hk⟩ := Rpcs.entries_of_run (srv_run h i) _ en hen
    obtain ⟨a, ha, hp⟩ := List.mem_filterMap.mp hm
    rw [eq_of_srvAct hp] at ha
    refine hf w' j' ha ?_
    rw [hk, hx]
    rfl
  have hge : ¬ j.xid < (s.srv i).table.newFloor j.nonce j.xidRep := by
    rcases ht with hwant | hnot
    · have ho := hwant.open (valid_clt h' _)
      obtain ⟨_, _, _, _, hge⟩ := check_of_open h' (hnonce ▸ hn) ho hg (by rw [Job.key, hnonce])
      exact hge
    · intro hlt
      rcases ReplyTable.newFloor_eq (s.srv i).table j.nonce j.xidRep with heq | hold
      · rw [heq] at hlt
        exact UInt32.lt_irrefl _ (UInt32.lt_trans hlt ((traced_of_run h').below _ _ hq))
      · exact hnot ⟨_, hold, hlt⟩
  obtain ⟨l, hl⟩ := (Rpcs.once_of_run (srv_run h i)).present w j (.inr hw)
  cases hc : (s.srv i).table.checkduplicateAndUpdate j.nonce j.xid j.xidRep with
  | none => exact absurd hc (ReplyTable.checkduplicateAndUpdate_ne_none hl)
  | some res =>
      obtain ⟨st, t, freed⟩ := res
      rcases (ReplyTable.checked hc).of_not_mem hno with rfl | ⟨_, hlt⟩
      · exact ⟨t, freed, hc⟩
      · exact absurd hlt hge

/-! ## Runs with any number of calls -/

/-- What is promised of a step after `tr`: a request that `call1` builds can be told from the old ones, and
the first copy of a call is new to the server. -/
def FreshAt (g : Config κ ι) (tr : List (Act κ ι)) (s : RpcNet κ ι) : Act κ ι → Prop
  | .clt k (.call1 _ proc args) => (s.clt k).refuses proc = false →
    (s.clt k).Distinguished ((s.clt k).request (g.clt k) proc args)
  | .srv i (.check _ j) => First tr i j → NewAt s i j
  | _ => True

/-- Every step of the run is as promised. -/
def Fresh (g : Config κ ι) (tr : List (Act κ ι)) : Prop :=
  ∀ late a early s, tr = late ++ a :: early → (lts g).Run early s → FreshAt g early s a

theorem fresh_cons {tr : List (Act κ ι)} (h : (lts g).Run tr s) (a : Act κ ι) :
    Fresh g (a :: tr) ↔ Fresh g tr ∧ FreshAt g tr s a := by
  constructor
  · intro hf
    refine ⟨fun late a' early s' heq => ?_, hf [] a tr s rfl h⟩
    subst heq
    exact hf (a :: late) a' early s' rfl
  · rintro ⟨hf, ha⟩ late a' early s' heq hr
    cases late with
    | nil =>
        cases heq
        obtain rfl := h.unique (by rintro _ _ rfl rfl; rfl) hr
        exact ha
    | cons b late =>
        cases heq
        exact hf late a' early s' rfl hr

theorem next_refused {k : κ} {t : Tid} {proc : UInt32} {args : Bytes}
    (hr : (s.clt k).refuses proc = true) : next g s (.clt k (.call1 t proc args)) = s := by
  have hsame : (s.clt k).call1 (g.clt k) t proc args = s.clt k := if_pos hr
  simp [next, Rpcc.next, hsame, opens, Rpcc.output, cltInput, take]

/-- No first copy comes to a check too late. -/
def InTime (g : Config κ ι) (tr : List (Act κ ι)) : Prop :=
  ∀ late w i j early s, tr = late ++ .srv i (.check w j) :: early → (lts g).Run early s →
    First early i j → Timely s i j

theorem inTime_of_fresh {tr : List (Act κ ι)} (hf : Fresh g tr) : InTime g tr :=
  fun late _ _ _ early s heq hr hfirst => timely_of_newAt (hf late _ early s heq hr hfirst)

theorem freshAt_of_fewCalls {tr : List (Act κ ι)} (h : (lts g).Run tr s) {a : Act κ ι} (hg : guard g s a)
    (hf : (next g s a).FewCalls)
    (ht : ∀ i w j, a = .srv i (.check w j) → First tr i j → Timely s i j) : FreshAt g tr s a := by
  have hr := hf.of_next.run h
  have hu : s.Unwrapped a := hf.step (counts_of_run h)
  cases a with
  | srv i a =>
      cases a with
      | check w j => exact fun hfirst => newAt_of_first h hr hg hfirst (ht i w j rfl hfirst)
      | _ => trivial
  | clt k a =>
      cases a with
      | call1 t proc args =>
          exact fun hno => (valid_clt hr k).distinguished (hu hno) ((traced_of_run hr).callers k).replied
      | _ => trivial

theorem fewCalls_of_freshAt {tr : List (Act κ ι)} (h : (lts g).Run tr s) {a : Act κ ι}
    (hlen : s.FewCalls) (hf : FreshAt g tr s a) : (next g s a).FewCalls := by
  intro k
  cases a with
  | srv i a => exact hlen k
  | clt k' a =>
      by_cases hk : k = k'
      · subst hk
        cases a with
        | call1 t proc args =>
            cases hr : (s.clt k).refuses proc with
            | true =>
                rw [next_refused hr]
                exact hlen k
            | false =>
                have hx := (hf hr).xid_ne_zero
                simp only [next, Function.update_self, Rpcc.next, Rpcc.length_call1 hr]
                exact ((counts_of_run h k).xid_ne_zero (hlen k)).mp hx
        | _ =>
            simp only [next, Function.update_self]
            rw [(Rpcc.calls_next (by simp)).2]
            exact hlen k
      · simpa [next, Function.update_of_ne hk] using hlen k

theorem fewCalls_of_fresh {tr : List (Act κ ι)} (h : (lts g).Run tr s) (hf : Fresh g tr) : s.FewCalls := by
  induction h with
  | init h =>
      cases h
      exact fun k => Nat.two_pow_pos 32
  | @step tr s a hr hg ih =>
      obtain ⟨hf, ha⟩ := (fresh_cons hr a).mp hf
      exact fewCalls_of_freshAt hr (ih hf) ha

theorem fresh_of_fewCalls {tr : List (Act κ ι)} (h : (lts g).Run tr s) (hf : s.FewCalls)
    (ht : InTime g tr) : Fresh g tr := by
  induction h with
  | init h =>
      intro late a early s heq
      simp at heq
  | @step tr s a hr hg ih =>
      rw [fresh_cons hr]
      refine ⟨ih hf.of_next fun late w i j early s heq => ht (a :: late) w i j early s (by rw [heq]; rfl), ?_⟩
      apply freshAt_of_fewCalls hr hg hf
      rintro i w j rfl hfirst
      exact ht [] w i j tr s rfl hr hfirst

/-- Every request that a client builds can be told from the old ones, and the first copy of each call is new
to the server, exactly as long as no client makes 2³² calls and no first copy comes too late. -/
theorem fresh_iff {tr : List (Act κ ι)} (h : (lts g).Run tr s) :
    Fresh g tr ↔ s.FewCalls ∧ InTime g tr :=
  ⟨fun hf => ⟨fewCalls_of_fresh h hf, inTime_of_fresh hf⟩, fun ⟨hf, ht⟩ => fresh_of_fewCalls h hf ht⟩

/-- What a step has to meet for its run to be in time. -/
def Prompt (s : RpcNet κ ι) : Act κ ι → Prop
  | .srv i (.check _ j) => Timely s i j
  | _ => True

theorem inTime_of_prompt {tr : List (Act κ ι)} (h : ((lts g).restrict Prompt).Run tr s) : InTime g tr := by
  rintro late w i j early s₀ rfl hr _
  exact h.condition_of_append (by rintro _ _ rfl rfl; rfl) hr

instance (s : RpcNet κ ι) (a : Act κ ι) : Decidable (Prompt s a) := by
  unfold Prompt Timely ReplyTable.Below
  apply @Act.casesOn _ _ _ a
  · intros
    infer_instance
  · intro i a
    apply @Rpcs.Act.casesOn _ _ a <;> intros <;> infer_instance

/-- A client that binds and makes a call. -/
theorem fresh_iff_bound : ∃ tr s, (lts Solo.config).Run tr s ∧ (s.clt ()).issued.length = 2 ∧
    (s.srv ()).execs.length = 2 ∧ Fresh Solo.config tr := by
  obtain ⟨s, h, hs⟩ := Lts.run_of_exec (M := (lts Solo.config).restrict Prompt) (s := init)
    (l := Solo.bind ++ Solo.call 0 0 (Solo.req 2 1) 1 [3])
    (f := fun s => decide ((s.clt ()).issued.length = 2 ∧ (s.srv ()).execs.length = 2)) rfl
    (by decide +kernel)
  obtain ⟨hi, hx⟩ := of_decide_eq_true hs
  have hf : s.FewCalls := fun k => by
    rw [hi]
    decide
  exact ⟨_, s, h.of_restrict, hi, hx, (fresh_iff h.of_restrict).mpr ⟨hf, inTime_of_prompt h⟩⟩

/-! ## A client whose calls all time out -/

/-- What a client does without the network it does in the whole system. -/
theorem run_of_clt {l : List (Rpcc.Act (Conn κ ι))} {tr : List (Act κ ι)} {k : κ}
    {c : Rpcc (Conn κ ι)} (h : (lts g).Run tr s) (hl : ∀ a ∈ l, opens a = none ∧ cltInput a = none)
    (he : (Rpcc.lts (g.clt k)).exec (s.clt k) l = some c) :
    ∃ tr' s', (lts g).Run tr' s' ∧ s'.clt k = c := by
  induction l generalizing tr s with
  | nil => exact ⟨tr, s, h, Option.some.inj he⟩
  | cons a l ih =>
      obtain ⟨⟨hopen, hin⟩, hl⟩ := List.forall_mem_cons.mp hl
      unfold Lts.exec at he
      split at he
      · rename_i hg
        have hg' : guard g s (.clt k a) := ⟨hg, by simp [hopen], by simp [hin]⟩
        have hr : (lts g).Run (.clt k a :: tr) (next g s (.clt k a)) := h.step hg'
        apply ih hr hl
        simp only [next, Function.update_self]
        exact he
      · cases he

theorem calls_timeout {tr : List (Act κ ι)} (h : (lts g).Run tr s) {k : κ}
    (hu : (s.clt k).Unbound 0) : ∃ tr' s', (lts g).Run tr' s' ∧ (s'.clt k).Unbound 0 ∧
      (s'.clt k).issued.length = (s.clt k).issued.length + 1 := by
  obtain ⟨c, he, hu', hlen⟩ := hu.timeout (e := g.clt k)
  obtain ⟨tr', s', hr, rfl⟩ := run_of_clt h (by simp [Rpcc.timeoutCall, opens, cltInput]) he
  exact ⟨tr', s', hr, hu', hlen⟩

theorem calls_unbounded (g : Config κ ι) (k : κ) (n : Nat) : ∃ tr s, (lts g).Run tr s ∧
    (s.clt k).Unbound 0 ∧ (s.clt k).issued.length = n := by
  induction n with
  | zero => exact ⟨[], init, .init rfl, ⟨rfl, rfl, rfl, rfl⟩, rfl⟩
  | succ n ih =>
      obtain ⟨tr, s, hr, hu, hn⟩ := ih
      obtain ⟨tr', s', hr', hu', hn'⟩ := calls_timeout hr hu
      exact ⟨tr', s', hr', hu', by rw [hn', hn]⟩

/-- A thread tries to bind, and each of its 2³² calls times out. -/
theorem fresh_wraps : ¬ ∀ tr s, (lts Solo.config).Run tr s → Fresh Solo.config tr := by
  intro hall
  obtain ⟨tr, s, hr, _, hn⟩ := calls_unbounded Solo.config () (2 ^ 32)
  have hlt := fewCalls_of_fresh hr (hall tr s hr) ()
  rw [hn] at hlt
  exact Nat.lt_irrefl _ hlt

end RpcNet
end StanDfs
