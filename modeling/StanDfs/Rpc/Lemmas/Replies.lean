import StanDfs.Rpc.Lemmas.Refusals

/-!
# What replies say

A reply carries what a handler called for the client's own call returned, or refuses a request that names
another instance, or is for a call that something was reported about before. So a caller that is done was
cancelled or has one of the first two.
-/

namespace StanDfs

namespace Rpcs

variable {χ : Type*} {e : Env χ} {s : Rpcs χ}

/-- Only a request of a client with at-most-once logic is answered as forgotten. -/
def Forgets (p : Pc χ) : Prop :=
  ∀ j r, p = .reply j r → r.hdr.ret = RpcConst.atmostonceFailure → j.nonce ≠ 0

theorem forgets_answer {w : Worker} {j : Job χ} (st : Rpcstate) (h : ∀ w, Forgets (s.workers w))
    (hn : j.nonce ≠ 0) (w' : Worker) : Forgets ((s.answer w j st).workers w') := by
  cases st with
  | new => exact forall_setWorker h (by rintro j r ⟨⟩) w'
  | inprogress => exact forall_setWorker h (by rintro j r ⟨⟩) w'
  | done b sz =>
      cases b with
      | none => exact h w'
      | some b => exact forall_setWorker h (by rintro j r ⟨⟩) w'
  | forgotten =>
      refine forall_setWorker h ?_ w'
      rintro j' r hp _
      cases hp
      exact hn

variable [DecidableEq χ]

theorem forgets_begin {w : Worker} {c : χ} {b : Bytes} (h : ∀ w, Forgets (s.workers w)) (w' : Worker) :
    Forgets ((s.begin e w c b).workers w') := by
  unfold Rpcs.begin
  split
  · exact h w'
  · simp only
    split
    · refine forall_setWorker (s := { s with jobs := s.jobs.erase (c, b) }) h ?_ w'
      rintro j r hp hret
      cases hp
      exact absurd hret (show RpcConst.oldsrvFailure ≠ RpcConst.atmostonceFailure by decide)
    · split
      · exact h w'
      · split
        · exact forall_setWorker (s := { s with jobs := s.jobs.erase (c, b) }) h (by rintro j r ⟨⟩) w'
        · exact forall_setWorker (s := { s with jobs := s.jobs.erase (c, b) }) h (by rintro j r ⟨⟩) w'

theorem forgets_step {a : Act χ} (h : ∀ w, Forgets (s.workers w)) (hs : Sourced e s s) (hg : guard e s a)
    (w' : Worker) : Forgets ((s.next e a).workers w') := by
  cases a with
  | gotPdu c b accept => cases accept <;> exact h w'
  | begin w c b => exact forgets_begin h w'
  | seen w j => exact forall_setWorker h (p := .save j) (by rintro j r ⟨⟩) w'
  | save w j => exact forall_setWorker h (p := .check j) (by rintro j r ⟨⟩) w'
  | check w j =>
      have hok := hs.workers w
      rw [hg.2] at hok
      simp only [next, check]
      split
      · exact h w'
      · rename_i st t freed _
        exact forgets_answer (s := { s with table := t, freed := s.freed ++ freed }) st h hok.2.2 w'
  | handled w j ret body =>
      simp only [next, handled]
      split
      · exact forall_setWorker h (p := .record j s.heap.length) (by rintro j r ⟨⟩) w'
      · exact forall_setWorker h (p := .choose j s.heap.length) (by rintro j r ⟨⟩) w'
  | record w j b =>
      simp only [next, record]
      split
      · exact h w'
      · exact forall_setWorker h (p := .choose j b) (by rintro j r ⟨⟩) w'
  | choose w j b =>
      simp only [next, choose]
      split
      · exact h w'
      · exact forall_setWorker h (by rintro j r ⟨⟩) w'
  | tx w j c b sz ok => exact forall_setWorker h (p := .sending j c b sz) (by rintro j r ⟨⟩) w'
  | sent w j c b sz => exact forall_setWorker h (p := .idle) (by rintro j r ⟨⟩) w'
  | txReply w j r ok => exact forall_setWorker h (p := .idle) (by rintro j r ⟨⟩) w'
  | die c => exact h w'

theorem forgets_of_run {tr : List (Act χ)} (h : (lts e).Run tr s) : ∀ w, Forgets (s.workers w) := by
  refine h.invariant (I := fun _ s => ∀ w, Forgets (s.workers w)) ?_ ?_
  · rintro s rfl w j r ⟨⟩
  · intro tr s a hr hs hg
    exact forgets_step hs (sourced_of_run hr) hg

end Rpcs

namespace Rpcc

variable {χ : Type*} {e : Env} {s : Rpcc χ}

/-- A caller that is done was cancelled or has a reply that satisfies `P`; a caller that is not has none. -/
structure Reported (P : UInt32 → Int32 → Unmarshall → Prop) (s : Rpcc χ) : Prop where
  replied : ∀ x ∈ s.replied, ∃ q ∈ s.issued, q.xid = x
  fresh : ∀ x t, s.calls.lookup x = some t → (s.callers t).done = false → x ∉ s.replied
  done : ∀ t, (s.callers t).done = true →
    ((s.callers t).intret = RpcConst.cancelFailure ∧ s.destroyWait = true) ∨
      P (s.callers t).xid (s.callers t).intret (s.callers t).un

variable {P Q : UInt32 → Int32 → Unmarshall → Prop}

theorem Reported.mono (h : s.Reported P) (hPQ : ∀ x ret u, P x ret u → Q x ret u) : s.Reported Q :=
  { h with done := fun t hd => (h.done t hd).imp_right (hPQ _ _ _) }

theorem Reported.call1 {t : Tid} {proc : UInt32} {args : Bytes} (h : s.Reported P) (hv : Valid e s)
    (ht : s.threads t = .idle) (hx : s.refuses proc = false → s.xid ≠ 0) :
    (s.call1 e t proc args).Reported P := by
  rw [Rpcc.call1]
  split
  · exact h
  · rename_i hr
    have hnew : s.xid ∉ s.replied := by
      intro hm
      obtain ⟨q, hq, hqx⟩ := h.replied _ hm
      exact hv.not_issued (hx (by simpa using hr)) q hq hqx
    have hidle : ∀ x, s.calls.lookup x ≠ some t := by
      intro x hl
      obtain ⟨q, hq, _⟩ := hv.calls x t hl
      rw [ht] at hq
      cases hq
    refine ⟨fun x hx => ?_, fun x t' hl hd => ?_, fun t' hd => ?_⟩
    · obtain ⟨q, hq, hqx⟩ := h.replied x hx
      exact ⟨q, List.mem_append_left _ hq, hqx⟩
    · by_cases hx : x = s.xid
      · exact hx ▸ hnew
      · have hold : s.calls.lookup x = some t' := by simpa [AList.lookup_insert_ne hx] using hl
        have ht : t' ≠ t := by
          rintro rfl
          exact hidle x hold
        exact h.fresh x t' hold (by simpa [Function.update_of_ne ht] using hd)
    · by_cases ht : t' = t
      · subst ht
        simp at hd
      · simp only [Function.update_of_ne ht] at hd ⊢
        exact h.done t' hd

theorem Reported.gotPdu {b : Bytes} (h : s.Reported P) (hv : Valid e s)
    (hb : ∀ hdr u, decodeReply b = some (hdr, u) → (∃ q ∈ s.issued, q.xid = hdr.xid.toUInt32) ∧
      (s.Open hdr.xid.toUInt32 → P hdr.xid.toUInt32 hdr.ret u)) : (s.gotPdu b).Reported P := by
  unfold Rpcc.gotPdu
  split
  · exact h
  · rename_i hdr u hdec
    obtain ⟨hiss, hopen⟩ := hb hdr u hdec
    have hreplied : ∀ x ∈ s.replied ++ [hdr.xid.toUInt32], ∃ q ∈ s.issued, q.xid = x := by
      intro x hx
      rcases List.mem_append.mp hx with hx | hx
      · exact h.replied x hx
      · exact List.mem_singleton.mp hx ▸ hiss
    simp only
    split
    · rename_i hl
      refine ⟨hreplied, fun x t hx hd hm => ?_, h.done⟩
      rcases List.mem_append.mp hm with hm | hm
      · exact h.fresh x t hx hd hm
      · rw [List.mem_singleton.mp hm] at hx
        exact absurd (hl.symm.trans hx) (by simp)
    · rename_i t hl
      unfold Rpcc.take
      split
      · rename_i hdone
        refine ⟨hreplied, fun x t' hx hd hm => ?_, h.done⟩
        rcases List.mem_append.mp hm with hm | hm
        · exact h.fresh x t' hx hd hm
        · rw [List.mem_singleton.mp hm] at hx
          obtain rfl : t = t' := Option.some.inj (hl.symm.trans hx)
          exact absurd (hdone.symm.trans hd) (by simp)
      · rename_i hdone
        have hdone : (s.callers t).done = false := by simpa using hdone
        obtain ⟨q, hq, hx⟩ := hv.calls _ t hl
        obtain ⟨hqi, hcx⟩ := hv.inCall t q (active_inCall hq)
        have hP : P (s.callers t).xid hdr.ret u := by
          rw [hcx, hx]
          refine hopen ⟨?_, h.fresh _ t hl hdone, fun hleft => ?_⟩
          · rw [← hx]
            exact (hv.issued q hqi).2.1
          · exact absurd ((hv.left _ hleft).1.symm.trans hl) (by simp)
        refine ⟨hreplied, fun x t' hx' hd hm => ?_, fun t' hd => ?_⟩
        · have ht : t' ≠ t := by
            rintro rfl
            simp at hd
          have hd : (s.callers t').done = false := by simpa [Function.update_of_ne ht] using hd
          rcases List.mem_append.mp hm with hm | hm
          · exact h.fresh x t' hx' hd hm
          · rw [List.mem_singleton.mp hm] at hx'
            exact ht (Option.some.inj (hx'.symm.trans hl))
        · by_cases ht : t' = t
          · subst ht
            exact .inr (by simpa using hP)
          · simp only [Function.update_of_ne ht] at hd ⊢
            exact h.done t' hd

/-- `cancel` is done with every caller in `calls_`. -/
theorem Reported.cancel (h : s.Reported P) (hv : Valid e s) : s.cancel.Reported P where
  replied := h.replied
  fresh x t hl hd := by
    obtain ⟨q, hq, hx⟩ := hv.calls x t hl
    obtain ⟨_, hcx⟩ := hv.inCall t q (active_inCall hq)
    have hin : s.calls.lookup (s.callers t).xid = some t := by
      rw [hcx, hx]
      exact hl
    simp [Rpcc.cancel, hin] at hd
  done t hd := by
    simp only [Rpcc.cancel] at hd ⊢
    split at hd
    · rename_i hl
      rw [if_pos hl]
      have hne : s.calls.entries ≠ [] := by
        intro hnil
        have hm := AList.lookup_isSome.mp (Option.isSome_of_eq_some hl)
        rw [AList.mem_keys, AList.keys, hnil] at hm
        cases hm
      exact .inl ⟨rfl, by simp [hne]⟩
    · rename_i hl
      rw [if_neg hl]
      rcases h.done t hd with ⟨hr, hw⟩ | hdone
      · exact .inl ⟨hr, by rw [hw]; rfl⟩
      · exact .inr hdone

theorem Reported.step [DecidableEq χ] {a : Act χ} (h : s.Reported P) (hv : Valid e s) (hg : guard s a)
    (hu : s.Unwrapped a) (hb : ∀ c b, a = .gotPdu c b → ∀ hdr u, decodeReply b = some (hdr, u) →
      (∃ q ∈ s.issued, q.xid = hdr.xid.toUInt32) ∧
        (s.Open hdr.xid.toUInt32 → P hdr.xid.toUInt32 hdr.ret u)) : (s.next e a).Reported P := by
  cases a with
  | call1 t proc args => exact h.call1 hv hg hu
  | getRefconn t f conn =>
      simp only [next, Rpcc.getRefconn]
      split <;> exact { h with }
  | tx t f c ok => exact { h with }
  | giveup t f => exact { h with }
  | woken t f => exact { h with }
  | timedout t f => exact { h with }
  | isdead t f => exact { h with }
  | leave t f =>
      refine { h with fresh := fun x t' hl hd => ?_ }
      by_cases hx : x = (s.callers t).xid
      · rw [hx] at hl
        simp [next, Rpcc.leave] at hl
      · exact h.fresh x t' (by simpa [next, Rpcc.leave, AList.lookup_erase_ne hx] using hl) hd
  | ret t f r =>
      simp only [next, Rpcc.ret]
      split
      · split <;> exact { h with }
      · exact { h with }
  | bound t r => exact { h with }
  | gotPdu c b => exact h.gotPdu hv (hb c b rfl)
  | cancel => exact h.cancel hv
  | die c => exact { h with }

end Rpcc

/-- The buffer of a reply is the header and the body. -/
theorem length_of_decodeReply {r : Reply} {hdr : ReplyHeader} {u : Unmarshall}
    (h : decodeReply (frame r.buf) = some (hdr, u)) : u.buf.length = rpcHeaderSz + r.body.length := by
  obtain ⟨size, hs, hf⟩ := frame_append (p := List.replicate 4 0)
    (b := r.hdr.bytes ++ (List.replicate 12 0 ++ r.body)) rfl
  have hpdu : frame r.buf = size ++ r.hdr.bytes ++ (List.replicate 12 0 ++ r.body) := by
    unfold Reply.buf
    rw [replyPdu_eq]
    simp only [List.append_assoc] at hf ⊢
    exact hf
  have hdec : ∃ u, decodeReply (frame r.buf) = some (r.hdr, u) ∧
      u.buf.length = rpcHeaderSz + r.body.length := by
    rw [hpdu]
    unfold decodeReply
    rw [Unmarshall.unpackReplyHeader_bytes r.hdr hs]
    refine ⟨_, rfl, ?_⟩
    simp [Unmarshall.takeIn, Unmarshall.ofBuf, hs, rpcHeaderSz, rpcSz]
    omega
  obtain ⟨u', hu', hl⟩ := hdec
  rw [hu', Option.some.injEq, Prod.mk.injEq] at h
  rw [← h.2, hl]

namespace RpcNet

variable {κ ι : Type*} {g : Config κ ι} {s s' : RpcNet κ ι}

/-- A handler that was called for the client returned the value and the body. -/
def Returned (s : RpcNet κ ι) (k : κ) (x : UInt32) (ret : Int32) (body : Bytes) : Prop :=
  ∃ i, ∃ res ∈ (s.srv i).results, res.job.conn.clt = k ∧ res.job.xid = x ∧ res.ret = ret ∧
    res.body = body

/-- The call names an instance, and there is another. -/
def Misdirected (g : Config κ ι) (s : RpcNet κ ι) (k : κ) (x : UInt32) : Prop :=
  ∃ q ∈ (s.clt k).issued, q.xid = x ∧ ∃ i, q.hdr.srvNonce ≠ 0 ∧ q.hdr.srvNonce ≠ g.srvNonce i

/-- A reply carries what a handler returned, or it refuses the call. -/
def Says (g : Config κ ι) (s : RpcNet κ ι) (k : κ) (x : UInt32) (ret : Int32) (body : Bytes) : Prop :=
  s.Returned k x ret body ∨ ret = RpcConst.oldsrvFailure ∧ Misdirected g s k x

/-- The caller has the value, and all of the body is left to read. -/
def Told (g : Config κ ι) (s : RpcNet κ ι) (k : κ) (x : UInt32) (ret : Int32) (u : Unmarshall) : Prop :=
  ∃ body, Says g s k x ret body ∧ u.ok = true ∧ u.sz = u.buf.length ∧
    u.buf.length = rpcHeaderSz + body.length ∧ u.buf.drop u.ind = body

theorem Says.mono {k : κ} {x : UInt32} {ret : Int32} {body : Bytes} (h : Says g s k x ret body)
    (l : Later s s') : Says g s' k x ret body := by
  rcases h with ⟨i, res, hres, hr⟩ | ⟨hret, q, hq, hr⟩
  · exact .inl ⟨i, res, l.results i hres, hr⟩
  · exact .inr ⟨hret, q, l.issued k hq, hr⟩

theorem Told.mono {k : κ} {x : UInt32} {ret : Int32} {u : Unmarshall} (h : Told g s k x ret u)
    (l : Later s s') : Told g s' k x ret u := by
  obtain ⟨body, hs, hu⟩ := h
  exact ⟨body, hs.mono l, hu⟩

/-- A reply on its way to a client is for a call of it, which is open only if the reply tells about it. -/
def Tells (g : Config κ ι) (s : RpcNet κ ι) (k : κ) (r : Reply) : Prop :=
  (∃ q ∈ (s.clt k).issued, q.xid = r.hdr.xid.toUInt32) ∧
    ((s.clt k).Open r.hdr.xid.toUInt32 → Says g s k r.hdr.xid.toUInt32 r.hdr.ret r.body)

theorem Tells.mono {k : κ} {r : Reply} (h : Tells g s k r) (l : Later s s')
    (hg : Rpcc.Grows (s.clt k) (s'.clt k)) : Tells g s' k r := by
  obtain ⟨⟨q, hq, hx⟩, ho⟩ := h
  exact ⟨⟨q, l.issued k hq, hx⟩, fun hopen => (ho (hopen.of_grows hg)).mono l⟩

structure Reported (g : Config κ ι) (s : RpcNet κ ι) : Prop where
  down : ∀ m ∈ s.down, ∃ r : Reply, m.2 = frame r.buf ∧ Tells g s m.1.clt r
  callers : ∀ k, (s.clt k).Reported (Told g s k)

variable [DecidableEq κ] [DecidableEq ι]

/-- A result goes to the client that its handler was called for. -/
theorem clt_of_route {tr : List (Act κ ι)} (h : (unwrapped g).Run tr s) {i : ι} {c : Conn κ ι}
    {j : Job (Conn κ ι)} {r : Result (Conn κ ι)} (hr : r ∈ (s.srv i).results)
    (hsame : Rpcs.SameCall j r.job) (hroute : Rpcs.Route (s.srv i) j c) : r.job.conn.clt = c.clt := by
  obtain ⟨hkey, hsame⟩ := hsame
  obtain ⟨j', hj', hc, hn, hj0⟩ := hroute
  have hfrom := ((sourced_srv h.of_restrict i).execs _ ((sourced_srv h.of_restrict i).results r hr).1).1
  have hk : r.job.nonce = j.nonce := congrArg Prod.fst hkey
  by_cases h0 : j.nonce = 0
  · rw [hsame h0, ← hj0 h0, hc]
  · have heq : g.cltNonce r.job.conn.clt = g.cltNonce j'.conn.clt := by
      rw [← (job_of_run h hfrom).2.2, ← (job_of_run h hj').2.2, hn, hk]
    rw [g.clt_inj _ _ (by rw [← (job_of_run h hfrom).2.2, hk]; exact h0) heq, hc]

theorem tells_output {tr : List (Act κ ι)} (h : (unwrapped g).Run tr s) {i : ι} {a : Rpcs.Act (Conn κ ι)}
    {m : Conn κ ι × Bytes} (hg : Rpcs.guard (g.srv i) (s.srv i) a) (hm : m ∈ (s.srv i).output a) :
    ∃ r : Reply, m.2 = frame r.buf ∧ Tells g s m.1.clt r := by
  have hs := sourced_srv h.of_restrict i
  cases a with
  | tx w j c b sz ok =>
      cases ok with
      | false => cases hm
      | true =>
          have hok := hs.workers w
          rw [hg.2.1] at hok
          obtain ⟨⟨r, hr, hsame, hheap, rfl⟩, hroute⟩ := hok
          obtain rfl := List.mem_singleton.mp hm
          refine ⟨_, congrArg frame (?_ : _ = (r.job.reply r.ret r.body).buf), ?_, fun _ => .inl ?_⟩
          · rw [Rpcs.contents_eq hheap]
            simp [Result.buf]
          · have hq := (job_of_run h (hs.execs _ (hs.results r hr).1).1).2.1
            rw [clt_of_route h hr hsame hroute] at hq
            exact ⟨r.job.req, hq, rfl⟩
          · exact ⟨i, r, hr, clt_of_route h hr hsame hroute, rfl, rfl, rfl⟩
  | txReply w j r ok =>
      cases ok with
      | false => cases hm
      | true =>
          have hok := hs.workers w
          rw [hg.2.1] at hok
          obtain ⟨hj, _⟩ := hok
          obtain ⟨_, hq, hn⟩ := job_of_run h hj
          obtain rfl := List.mem_singleton.mp hm
          refine ⟨r, rfl, ?_⟩
          rcases Rpcs.refusing_of_run (srv_run h.of_restrict i) w j r hg.2.1 with ⟨rfl, hold⟩ | ⟨rfl, hb⟩
          · refine ⟨⟨j.req, hq, rfl⟩, fun _ => .inr ⟨rfl, j.req, hq, rfl, i, ?_⟩⟩
            exact ⟨fun h0 => hold (.inl h0), fun h1 => hold (.inr h1)⟩
          · have h0 := Rpcs.forgets_of_run (srv_run h.of_restrict i) w j _ hg.2.1 rfl
            refine ⟨⟨j.req, hq, rfl⟩, fun ho => absurd ho ?_⟩
            exact not_open_of_below h (by rw [← hn]; exact h0) hj hb
  | _ => cases hm

theorem Reported.clt_step {tr : List (Act κ ι)} (h : (unwrapped g).Run tr s) (hs : Reported g s) {k : κ}
    {a : Rpcc.Act (Conn κ ι)} (hg : guard g s (.clt k a)) (hu : (s.clt k).Unwrapped a) :
    Reported g (next g s (.clt k a)) := by
  have hl := later_next (g := g) s (.clt k a)
  refine ⟨fun m hm => ?_, fun k' => ?_⟩
  · obtain ⟨r, hb, ht⟩ := hs.down m (mem_of_mem_take hm)
    exact ⟨r, hb, ht.mono hl (grows_clt s _ _)⟩
  · have hmono : (s.clt k').Reported (Told g (next g s (.clt k a)) k') :=
      (hs.callers k').mono fun _ _ _ ht => ht.mono hl
    by_cases hk : k' = k
    · subst hk
      have hstep := hmono.step (e := g.clt k') (valid_clt h k') hg.1 hu fun c b ha hdr u hdec => by
        obtain ⟨hm, hck⟩ := hg.2.2 (c, b) (by rw [ha]; rfl)
        obtain ⟨r, hb, hiss, hopen⟩ := hs.down _ hm
        simp only at hb
        have hlen := length_of_decodeReply (hb ▸ hdec)
        obtain ⟨u', hdec', hok, hsz, hbody⟩ := decodeReply_buf r
        rw [hb, hdec', Option.some.injEq, Prod.mk.injEq] at hdec
        obtain ⟨rfl, rfl⟩ := hdec
        have hck : c.clt = k' := hck
        rw [hck] at hiss hopen
        exact ⟨hiss, fun ho => ⟨r.body, (hopen ho).mono hl, hok, hsz, hlen, hbody⟩⟩
      simpa [next] using hstep
    · simpa [next, Function.update_of_ne hk] using hmono

theorem reported_of_run {tr : List (Act κ ι)} (h : (unwrapped g).Run tr s) : Reported g s := by
  refine h.invariant (I := fun _ s => Reported g s) ?_ ?_
  · rintro s rfl
    refine ⟨fun m hm => (by cases hm), fun k => ⟨fun x hx => (by cases hx), fun x t hl => (by cases hl),
      fun t hd => (by cases hd)⟩⟩
  · intro tr s a hr hs ⟨hg, hu⟩
    cases a with
    | clt k a => exact hs.clt_step hr hg hu
    | srv i a =>
        have hl := later_next (g := g) s (.srv i a)
        have hgrow := grows_clt (g := g) s (.srv i a)
        refine ⟨fun m hm => ?_, fun k => (hs.callers k).mono fun _ _ _ ht => ht.mono hl⟩
        rcases List.mem_append.mp hm with hm | hm
        · obtain ⟨r, hb, ht⟩ := hs.down m hm
          exact ⟨r, hb, ht.mono hl (hgrow _)⟩
        · obtain ⟨r, hb, ht⟩ := tells_output hr hg.1 hm
          exact ⟨r, hb, ht.mono hl (hgrow _)⟩

/-- Why `call1` returns what it returns. -/
theorem told_of_ret {tr : List (Act κ ι)} (h : (unwrapped g).Run tr s) {k : κ} {t : Tid}
    {f : Call (Conn κ ι)} {r : Int32} (hg : (s.clt k).guard (.ret t f r)) :
    r = RpcConst.timeoutFailure ∨ (r = RpcConst.cancelFailure ∧ (s.clt k).destroyWait = true) ∨
      Told g s k f.req.xid r ((s.clt k).callers t).un := by
  obtain ⟨ht, rfl⟩ := hg
  obtain ⟨_, hx⟩ := (valid_clt h k).inCall t f.req (by rw [ht]; rfl)
  rw [Rpcc.result]
  split
  · rename_i hdone
    rw [← hx]
    exact .inr (((reported_of_run h).callers k).done t hdone)
  · exact .inl rfl

/-- The value and the body were returned by a handler called for this call. -/
theorem Returned.res {tr : List (Act κ ι)} (h : (unwrapped g).Run tr s) {k : κ} {q : Request} {ret : Int32}
    {body : Bytes} (hq : q ∈ (s.clt k).issued) (hr : s.Returned k q.xid ret body) :
    ∃ i, ∃ res ∈ (s.srv i).results, res.job.conn.clt = k ∧ res.job.req = q ∧ res.ret = ret ∧
      res.body = body ∧ (0 ≤ ret ∨ ret = RpcConst.unmarshalArgsFailure) := by
  obtain ⟨i, res, hres, rfl, hx, rfl, rfl⟩ := hr
  have hs := (sourced_srv h.of_restrict i).results res hres
  have hreq := (job_of_run h ((sourced_srv h.of_restrict i).execs _ hs.1).1).2.1
  exact ⟨i, res, hres, rfl, (valid_clt h _).unique hreq hq hx, rfl, rfl, hs.2.1⟩

theorem returned_of_ret {tr : List (Act κ ι)} (h : (unwrapped g).Run tr s) {k : κ} {t : Tid}
    {f : Call (Conn κ ι)} {r : Int32} (hg : (s.clt k).guard (.ret t f r)) (hr : 0 ≤ r) :
    ∃ i, ∃ res ∈ (s.srv i).results, res.job.conn.clt = k ∧ res.job.req = f.req ∧ res.ret = r ∧
      res.body = ((s.clt k).callers t).un.buf.drop ((s.clt k).callers t).un.ind := by
  have hq := ((valid_clt h k).inCall t f.req (by rw [hg.1]; rfl)).1
  rcases told_of_ret h hg with rfl | ⟨rfl, _⟩ | ⟨body, hret | ⟨rfl, _⟩, _, _, _, hb⟩
  · exact absurd hr (by decide)
  · exact absurd hr (by decide)
  · obtain ⟨i, res, hres, hc, hreq, hv, hbody, _⟩ := hret.res h hq
    exact ⟨i, res, hres, hc, hreq, hv, by rw [hbody, hb]⟩
  · exact absurd hr (by decide)

end RpcNet
end StanDfs
