import StanDfs.Rpc.Lemmas.Steps
import StanDfs.Rpc.Wanted

/-!
# Calls end with their handlers

A server refuses a request that names another instance, or one below the floor of its client. While a
caller waits its call is above that floor. So a call that ends neither by a timeout nor by `cancel` ends
after its handler has returned.
-/

namespace StanDfs

namespace Rpcs

variable {χ : Type*} {e : Env χ} {s : Rpcs χ}

/-- Why a request is refused with `r`. -/
def Refused (e : Env χ) (t : ReplyTable) (j : Job χ) (r : Reply) : Prop :=
  (r = j.reply RpcConst.oldsrvFailure [] ∧ ¬ Accepted e j) ∨
    r = j.reply RpcConst.atmostonceFailure [] ∧ t.Below j.nonce j.xid

/-- The refusals that workers are about to send. -/
def Refusing (e : Env χ) (s : Rpcs χ) : Prop :=
  ∀ w j r, s.workers w = .reply j r → Refused e s.table j r

theorem Refused.mono {t t' : ReplyTable} {j : Job χ} {r : Reply} (h : Refused e t j r)
    (hb : ∀ n x, t.Below n x → t'.Below n x) : Refused e t' j r :=
  h.imp_right fun ⟨hr, hbelow⟩ => ⟨hr, hb _ _ hbelow⟩

theorem Refusing.move {s' : Rpcs χ} {w : Worker} {p : Pc χ} (h : Refusing e s)
    (hw : s'.workers = Function.update s.workers w p)
    (hb : ∀ n x, s.table.Below n x → s'.table.Below n x)
    (hp : ∀ j r, p = .reply j r → Refused e s'.table j r) : Refusing e s' := by
  intro w' j r hw'
  rw [hw] at hw'
  by_cases hww : w' = w
  · subst hww
    exact hp j r (by simpa using hw')
  · rw [Function.update_of_ne hww] at hw'
    exact (h w' j r hw').mono hb

theorem Refusing.stay {s' : Rpcs χ} (h : Refusing e s) (hw : s'.workers = s.workers)
    (hb : ∀ n x, s.table.Below n x → s'.table.Below n x) : Refusing e s' := by
  intro w j r hw'
  rw [hw] at hw'
  exact (h w j r hw').mono hb

theorem Refusing.check {w : Worker} {j : Job χ} (h : Refusing e s) : Refusing e (s.check w j) := by
  unfold Rpcs.check
  split
  · exact h.stay rfl fun _ _ hb => hb
  · rename_i st t freed hc
    have hchk := ReplyTable.checked hc
    have hb : ∀ n x, s.table.Below n x → t.Below n x := fun _ _ hb => hchk.below_mono hb
    cases st with
    | new => exact h.move (p := .running j) rfl hb (by simp)
    | inprogress => exact h.move (p := .idle) rfl hb (by simp)
    | done b sz =>
        cases b with
        | none => exact h.stay rfl hb
        | some b => exact h.move (p := .send j j.conn b sz) rfl hb (by simp)
    | forgotten =>
        apply h.move (p := .reply j (j.reply RpcConst.atmostonceFailure [])) rfl hb
        rintro j' r hp
        cases hp
        cases hchk with
        | forgotten hlt => exact .inr ⟨rfl, _, AList.lookup_insert _, hlt⟩

variable [DecidableEq χ]

theorem Refusing.begin {w : Worker} {c : χ} {b : Bytes} (h : Refusing e s) :
    Refusing e (s.begin e w c b) := by
  unfold Rpcs.begin
  split
  · exact h.stay rfl fun _ _ hb => hb
  · rename_i q hq
    simp only
    split
    · rename_i hold
      refine h.move (w := w) rfl (fun _ _ hb => hb) ?_
      rintro j r hp
      cases hp
      exact .inl ⟨rfl, fun ha => ha.elim hold.1 hold.2⟩
    · split
      · exact h.stay rfl fun _ _ hb => hb
      · split
        · exact h.move (p := .seen ⟨c, q⟩) rfl (fun _ _ hb => hb) (by simp)
        · exact h.move (p := .running ⟨c, q⟩) rfl (fun _ _ hb => hb) (by simp)

theorem Refusing.step {a : Act χ} (h : Refusing e s) : Refusing e (s.next e a) := by
  cases a with
  | gotPdu c b accept => cases accept <;> exact h.stay rfl fun _ _ hb => hb
  | begin w c b => exact h.begin
  | seen w j =>
      refine h.move (p := .save j) rfl (fun n x hb => ?_) (by simp)
      simp only [next, ReplyTable.Below, ReplyTable.rereplyWindow_create]
      exact hb
  | save w j => exact h.move (p := .check j) rfl (fun _ _ hb => hb) (by simp)
  | check w j => exact h.check
  | handled w j ret body =>
      simp only [next, handled]
      split
      · exact h.move (p := .record j s.heap.length) rfl (fun _ _ hb => hb) (by simp)
      · exact h.move (p := .choose j s.heap.length) rfl (fun _ _ hb => hb) (by simp)
  | record w j b =>
      simp only [next, record]
      split
      · exact h.stay rfl fun _ _ hb => hb
      · rename_i t ht
        refine h.move (p := .choose j b) rfl (fun n x hb => ?_) (by simp)
        simp only [ReplyTable.Below, (ReplyTable.recorded (by omega) ht).floor]
        exact hb
  | choose w j b =>
      simp only [next, choose]
      split
      · exact h.stay rfl fun _ _ hb => hb
      · exact h.move (p := .send j _ b _) rfl (fun _ _ hb => hb) (by simp)
  | tx w j c b sz ok => exact h.move (p := .sending j c b sz) rfl (fun _ _ hb => hb) (by simp)
  | sent w j c b sz => exact h.move (p := .idle) rfl (fun _ _ hb => hb) (by simp)
  | txReply w j r ok => exact h.move (p := .idle) rfl (fun _ _ hb => hb) (by simp)
  | die c => exact h.stay rfl fun _ _ hb => hb

theorem refusing_of_run {tr : List (Act χ)} (h : (lts e).Run tr s) : Refusing e s := by
  refine h.invariant (I := fun _ s => Refusing e s) ?_ ?_
  · rintro s rfl w j r hw
    cases hw
  · intro tr s a _ hs _
    exact hs.step

end Rpcs

namespace Rpcc

variable {χ : Type*} {e : Env} {s : Rpcc χ}

/-- The caller that is done in a call has got a reply to it, and `P` holds of the xids of such calls. -/
structure Settled (P : UInt32 → Prop) (s : Rpcc χ) : Prop where
  replied : ∀ x ∈ s.replied, ∃ q ∈ s.issued, q.xid = x
  fresh : ∀ x t, s.calls.lookup x = some t → (s.callers t).done = false → x ∉ s.replied
  done : ∀ t q, (s.threads t).inCall = some q → (s.callers t).done = true → P q.xid

theorem Settled.mono {P Q : UInt32 → Prop} (h : s.Settled P) (hPQ : ∀ x, P x → Q x) : s.Settled Q :=
  { h with done := fun t q hq hd => hPQ _ (h.done t q hq hd) }

theorem Settled.setThread {P : UInt32 → Prop} {t : Tid} {p : Thread χ} (h : s.Settled P)
    (hp : ∀ q, p.inCall = some q → (s.threads t).inCall = some q) : (s.setThread t p).Settled P where
  replied := h.replied
  fresh := h.fresh
  done t' q hq hd := by
    refine h.done t' q ?_ hd
    rcases view_setThread hq with ⟨ht, hq⟩ | ⟨_, hq⟩
    · rw [ht]
      exact hp q hq
    · exact hq

theorem Settled.call1 {P : UInt32 → Prop} {t : Tid} {proc : UInt32} {args : Bytes} (h : s.Settled P)
    (hv : Valid e s) (ht : s.threads t = .idle) (hx : s.refuses proc = false → s.xid ≠ 0) :
    (s.call1 e t proc args).Settled P := by
  rw [Rpcc.call1]
  split
  · exact h
  · rename_i hr
    have hnew : s.xid ∉ s.replied := by
      intro hm
      obtain ⟨q, hq, hqx⟩ := h.replied _ hm
      exact hv.not_issued (hx (by simpa using hr)) q hq hqx
    have hidle : ∀ x, s.calls.lookup x ≠ some t := by
      intro x hl
      obtain ⟨q, hq, _⟩ := hv.calls x t hl
      rw [ht] at hq
      cases hq
    refine ⟨fun x hx => ?_, fun x t' hl hd => ?_, fun t' q hq hd => ?_⟩
    · obtain ⟨q, hq, hqx⟩ := h.replied x hx
      exact ⟨q, List.mem_append_left _ hq, hqx⟩
    · by_cases hx : x = s.xid
      · exact hx ▸ hnew
      · have hold : s.calls.lookup x = some t' := by simpa [AList.lookup_insert_ne hx] using hl
        have ht : t' ≠ t := by
          rintro rfl
          exact hidle x hold
        exact h.fresh x t' hold (by simpa [Function.update_of_ne ht] using hd)
    · by_cases ht : t' = t
      · subst ht
        simp at hd
      · apply h.done t' q
        · simpa [Rpcc.setThread, Function.update_of_ne ht] using hq
        · simpa [Function.update_of_ne ht] using hd

theorem Settled.gotPdu {P : UInt32 → Prop} {b : Bytes} (h : s.Settled P) (hv : Valid e s)
    (hb : ∀ hdr u, decodeReply b = some (hdr, u) → (∃ q ∈ s.issued, q.xid = hdr.xid.toUInt32) ∧
      (s.Open hdr.xid.toUInt32 → P hdr.xid.toUInt32)) : (s.gotPdu b).Settled P := by
  unfold Rpcc.gotPdu
  split
  · exact h
  · rename_i hdr u hdec
    obtain ⟨hiss, hopen⟩ := hb hdr u hdec
    have hreplied : ∀ x ∈ s.replied ++ [hdr.xid.toUInt32], ∃ q ∈ s.issued, q.xid = x := by
      intro x hx
      rcases List.mem_append.mp hx with hx | hx
      · exact h.replied x hx
      · exact List.mem_singleton.mp hx ▸ hiss
    simp only
    split
    · rename_i hl
      refine ⟨hreplied, fun x t hx hd hm => ?_, h.done⟩
      rcases List.mem_append.mp hm with hm | hm
      · exact h.fresh x t hx hd hm
      · rw [List.mem_singleton.mp hm] at hx
        exact absurd (hl.symm.trans hx) (by simp)
    · rename_i t hl
      unfold Rpcc.take
      split
      · rename_i hdone
        refine ⟨hreplied, fun x t' hx hd hm => ?_, h.done⟩
        rcases List.mem_append.mp hm with hm | hm
        · exact h.fresh x t' hx hd hm
        · rw [List.mem_singleton.mp hm] at hx
          obtain rfl : t = t' := Option.some.inj (hl.symm.trans hx)
          exact absurd (hdone.symm.trans hd) (by simp)
      · rename_i hdone
        have hdone : (s.callers t).done = false := by simpa using hdone
        refine ⟨hreplied, fun x t' hx hd hm => ?_, fun t' q hq hd => ?_⟩
        · have ht : t' ≠ t := by
            rintro rfl
            simp at hd
          have hd : (s.callers t').done = false := by simpa [Function.update_of_ne ht] using hd
          rcases List.mem_append.mp hm with hm | hm
          · exact h.fresh x t' hx hd hm
          · rw [List.mem_singleton.mp hm] at hx
            exact ht (Option.some.inj (hx.symm.trans hl))
        · by_cases ht : t' = t
          · subst ht
            obtain ⟨q', hq', hx'⟩ := hv.calls _ t' hl
            obtain rfl : q' = q := Option.some.inj ((active_inCall hq').symm.trans hq)
            rw [hx']
            refine hopen ⟨?_, h.fresh _ t' hl hdone, fun hleft => ?_⟩
            · rw [← hx']
              exact (hv.issued q' (hv.inCall t' q' hq).1).2.1
            · exact absurd ((hv.left _ hleft).1.symm.trans hl) (by simp)
          · exact h.done t' q hq (by simpa [Function.update_of_ne ht] using hd)

theorem Settled.step [DecidableEq χ] {P : UInt32 → Prop} {a : Act χ} (h : s.Settled P) (hv : Valid e s)
    (hg : guard s a) (hu : s.Unwrapped a) (hc : a ≠ .cancel)
    (hb : ∀ c b, a = .gotPdu c b → ∀ hdr u, decodeReply b = some (hdr, u) →
      (∃ q ∈ s.issued, q.xid = hdr.xid.toUInt32) ∧
        (s.Open hdr.xid.toUInt32 → P hdr.xid.toUInt32)) : (s.next e a).Settled P := by
  cases a with
  | call1 t proc args => exact h.call1 hv hg hu
  | getRefconn t f conn =>
      have h' : ({ s with chan := if s.chanAlive then s.chan else conn } : Rpcc χ).Settled P := { h with }
      have hin : (s.threads t).inCall = some f.req := by rw [hg.1]; rfl
      simp only [next, Rpcc.getRefconn]
      split
      · exact h'.setThread fun q hq => hin.trans hq
      · exact h'.setThread fun q hq => hin.trans hq
  | tx t f c ok =>
      exact { h.setThread (t := t) (p := .waiting f) (fun q hq => by rw [hg.1]; exact hq) with }
  | giveup t f => exact h.setThread fun q hq => by rw [show s.threads t = .waiting f from hg]; exact hq
  | woken t f => exact h.setThread fun q hq => by rw [hg.1]; exact hq
  | timedout t f => exact h.setThread fun q hq => by rw [hg.1]; exact hq
  | isdead t f =>
      have ht : s.threads t = .lost f := hg
      rcases isdead_cases (e := e) s t f with heq | ⟨_, heq⟩ <;> rw [next, heq] <;>
        exact h.setThread fun q hq => by rw [ht]; exact hq
  | leave t f =>
      have h' := h.setThread (t := t) (p := .returning f) fun q hq => by
        rw [show s.threads t = .leaving f from hg]
        exact hq
      refine { h' with fresh := fun x t' hl hd => ?_ }
      by_cases hx : x = (s.callers t).xid
      · rw [hx] at hl
        simp [next, Rpcc.leave] at hl
      · exact h.fresh x t' (by simpa [next, Rpcc.leave, AList.lookup_erase_ne hx] using hl) hd
  | ret t f r =>
      simp only [next, Rpcc.ret]
      split
      · split <;> exact h.setThread fun q hq => by cases hq
      · exact h.setThread fun q hq => by cases hq
  | bound t r => exact { h.setThread (t := t) (p := .idle) (fun q hq => by cases hq) with }
  | gotPdu c b => exact h.gotPdu hv (hb c b rfl)
  | cancel => exact absurd rfl hc
  | die c => exact { h with }

end Rpcc

namespace RpcNet

variable {κ ι : Type*} {g : Config κ ι} {s s' : RpcNet κ ι}

/-- A handler for the request has returned, or there is an instance it is not for. -/
def Concluded (g : Config κ ι) (s : RpcNet κ ι) (q : Request) : Prop :=
  (∃ i, ∃ res ∈ (s.srv i).results, res.job.req = q) ∨
    ∃ i, q.hdr.srvNonce ≠ 0 ∧ q.hdr.srvNonce ≠ g.srvNonce i

/-- What is known of a reply to a client: it concludes the call it is for, or something was reported
about that call before. -/
def Answers (g : Config κ ι) (s : RpcNet κ ι) (k : κ) (r : Reply) : Prop :=
  ∃ q ∈ (s.clt k).issued, q.hdr.xid = r.hdr.xid ∧ (Concluded g s q ∨ ¬ (s.clt k).Open q.xid)

theorem Concluded.mono {q : Request} (h : Concluded g s q) (hl : Later s s') : Concluded g s' q :=
  h.imp_left fun ⟨i, res, hres, hq⟩ => ⟨i, res, hl.results i hres, hq⟩

theorem Answers.mono {k : κ} {r : Reply} (h : Answers g s k r) (hl : Later s s')
    (hg : Rpcc.Grows (s.clt k) (s'.clt k)) : Answers g s' k r := by
  obtain ⟨q, hq, hx, ha⟩ := h
  exact ⟨q, hl.issued k hq, hx, ha.imp (fun hc => hc.mono hl) fun hn ho => hn (ho.of_grows hg)⟩

/-- The calls that are concluded. -/
def Done (g : Config κ ι) (s : RpcNet κ ι) (k : κ) (x : UInt32) : Prop :=
  ∃ q ∈ (s.clt k).issued, q.xid = x ∧ Concluded g s q

theorem Done.mono {k : κ} {x : UInt32} (h : Done g s k x) (hl : Later s s') : Done g s' k x := by
  obtain ⟨q, hq, hx, hc⟩ := h
  exact ⟨q, hl.issued k hq, hx, hc.mono hl⟩

structure Settled (g : Config κ ι) (s : RpcNet κ ι) : Prop where
  down : ∀ m ∈ s.down, ∃ r : Reply, m.2 = frame r.buf ∧ Answers g s m.1.clt r
  callers : ∀ k, (s.clt k).Settled (Done g s k)

/-- A call ends only after its caller is done, and nobody calls `cancel`. -/
def Patient (s : RpcNet κ ι) : Act κ ι → Prop
  | .clt _ .cancel => False
  | .clt k (.ret t _ _) => ((s.clt k).callers t).done = true
  | _ => True

variable [DecidableEq κ] [DecidableEq ι]

/-- The answer is the floor's: the call is one that something was reported about. -/
theorem not_open_of_below {tr : List (Act κ ι)} (h : (unwrapped g).Run tr s) {i : ι} {j : Job (Conn κ ι)}
    (hn : g.cltNonce j.conn.clt ≠ 0) (hj : Rpcs.FromNet (s.srv i) j)
    (hb : (s.srv i).table.Below j.nonce j.xid) : ¬ (s.clt j.conn.clt).Open j.xid := by
  intro ho
  have hlt := newFloor_lt h hn hj (job_of_run h hj).2.2 ho
  obtain ⟨f, hf, hxf⟩ := hb
  have hle := ReplyTable.floor_le_newFloor j.xidRep hf
  exact UInt32.lt_irrefl _ (UInt32.lt_trans hxf (UInt32.lt_of_le_of_lt hle hlt))

/-- What a server sends to a client answers a call of it. -/
theorem answers_output {tr : List (Act κ ι)} (h : (unwrapped g).Run tr s) (hn : ∀ k, g.cltNonce k ≠ 0) {i : ι}
    {a : Rpcs.Act (Conn κ ι)} {m : Conn κ ι × Bytes} (hg : Rpcs.guard (g.srv i) (s.srv i) a)
    (hm : m ∈ (s.srv i).output a) : ∃ r : Reply, m.2 = frame r.buf ∧ Answers g s m.1.clt r := by
  have hs := sourced_srv h.of_restrict i
  cases a with
  | tx w j c b sz ok =>
      cases ok with
      | false => cases hm
      | true =>
          have hok := hs.workers w
          rw [hg.2.1] at hok
          obtain ⟨⟨r, hr, hsame, hheap, rfl⟩, hroute⟩ := hok
          obtain rfl := List.mem_singleton.mp hm
          refine ⟨_, congrArg frame (?_ : _ = (r.job.reply r.ret r.body).buf), ?_⟩
          · rw [Rpcs.contents_eq hheap]
            simp [Result.buf]
          · obtain ⟨i', r', hr', hq, heq⟩ := (traffic_of_run h).earned (valid_clt h) hs hr hsame hroute
            exact ⟨r'.job.req, hq, by rw [heq]; rfl, .inl (.inl ⟨i', r', hr', rfl⟩)⟩
  | txReply w j r ok =>
      cases ok with
      | false => cases hm
      | true =>
          have hok := hs.workers w
          rw [hg.2.1] at hok
          obtain ⟨hj, _⟩ := hok
          obtain ⟨_, hq, _⟩ := job_of_run h hj
          obtain rfl := List.mem_singleton.mp hm
          refine ⟨r, rfl, j.req, hq, ?_⟩
          rcases Rpcs.refusing_of_run (srv_run h.of_restrict i) w j r hg.2.1 with ⟨rfl, hold⟩ | ⟨rfl, hb⟩
          · exact ⟨rfl, .inl (.inr ⟨i, fun h0 => hold (.inl h0), fun h1 => hold (.inr h1)⟩)⟩
          · exact ⟨rfl, .inr (not_open_of_below h (hn _) hj hb)⟩
  | _ => cases hm

theorem Settled.clt_step {tr : List (Act κ ι)} (h : (unwrapped g).Run tr s) (hs : Settled g s) {k : κ}
    {a : Rpcc.Act (Conn κ ι)} (hg : guard g s (.clt k a)) (hu : (s.clt k).Unwrapped a) (hc : a ≠ .cancel) :
    Settled g (next g s (.clt k a)) := by
  have hl := later_next (g := g) s (.clt k a)
  refine ⟨fun m hm => ?_, fun k' => ?_⟩
  · have hm' : m ∈ s.down := mem_of_mem_take hm
    obtain ⟨r, hb, ha⟩ := hs.down m hm'
    exact ⟨r, hb, ha.mono hl (grows_clt s _ _)⟩
  · have hmono : (s.clt k').Settled (Done g (next g s (.clt k a)) k') :=
      (hs.callers k').mono fun x hx => hx.mono hl
    by_cases hk : k' = k
    · subst hk
      have hstep := hmono.step (e := g.clt k') (valid_clt h k') hg.1 hu hc fun c b ha hdr u hdec => by
        obtain ⟨hm, hck⟩ := hg.2.2 (c, b) (by rw [ha]; rfl)
        obtain ⟨r, hb, q, hq, hx, hans⟩ := hs.down _ hm
        obtain ⟨u', hdec', _⟩ := decodeReply_buf r
        simp only at hb
        rw [hb, hdec', Option.some.injEq, Prod.mk.injEq] at hdec
        have hck : c.clt = k' := hck
        rw [hck] at hq hans
        have hqx : q.xid = hdr.xid.toUInt32 := by rw [← hdec.1, ← hx]; rfl
        refine ⟨⟨q, hq, hqx⟩, fun ho => ?_⟩
        rcases hans with hcon | hno
        · exact ⟨q, hl.issued k' hq, hqx, hcon.mono hl⟩
        · exact absurd (hqx ▸ ho) hno
      simpa [next] using hstep
    · simpa [next, Function.update_of_ne hk] using hmono

theorem settled_of_run {tr : List (Act κ ι)} (h : ((unwrapped g).restrict Patient).Run tr s)
    (hn : ∀ k, g.cltNonce k ≠ 0) : Settled g s := by
  refine h.invariant (I := fun _ s => Settled g s) ?_ ?_
  · rintro s rfl
    refine ⟨fun m hm => (by cases hm), fun k => ⟨fun x hx => (by cases hx), fun x t hl => (by cases hl),
      fun t q hq => (by cases hq)⟩⟩
  · intro tr s a hr hs ⟨⟨hg, hu⟩, hp⟩
    have hrun := hr.of_restrict
    cases a with
    | clt k a =>
        apply hs.clt_step hrun hg hu
        rintro rfl
        exact hp
    | srv i a =>
        have hl := later_next (g := g) s (.srv i a)
        have hgrow := grows_clt (g := g) s (.srv i a)
        refine ⟨fun m hm => ?_, fun k => (hs.callers k).mono fun x hx => hx.mono hl⟩
        rcases List.mem_append.mp hm with hm | hm
        · obtain ⟨r, hb, ha⟩ := hs.down m hm
          exact ⟨r, hb, ha.mono hl (hgrow _)⟩
        · obtain ⟨r, hb, ha⟩ := answers_output hrun hn hg.1 hm
          exact ⟨r, hb, ha.mono hl (hgrow _)⟩

/-- A call that was made goes on, or is concluded. -/
theorem concluded_of_run {tr : List (Act κ ι)} (h : ((unwrapped g).restrict Patient).Run tr s)
    (hn : ∀ k, g.cltNonce k ≠ 0) (k : κ) : ∀ q ∈ (s.clt k).issued,
      (∃ t, s.inCall k t = some q) ∨ Concluded g s q := by
  refine h.invariant (I := fun _ s => ∀ q ∈ (s.clt k).issued,
    (∃ t, s.inCall k t = some q) ∨ Concluded g s q) ?_ ?_
  · rintro s rfl q hq
    cases hq
  · intro tr s a hr hs ⟨⟨hg, _⟩, hp⟩ q hq
    have hl := later_next (g := g) s a
    have hold : q ∈ (s.clt k).issued → (∀ t, s.inCall k t = some q → (next g s a).inCall k t = some q) →
        (∃ t, (next g s a).inCall k t = some q) ∨ Concluded g (next g s a) q := fun hq hin =>
      (hs q hq).imp (fun ⟨t, ht⟩ => ⟨t, hin t ht⟩) fun hc => hc.mono hl
    have hcs := callStep hg
    generalize hs' : next g s a = s' at hl hold hcs
    have hiss : q ∈ (s'.clt k).issued := hs' ▸ hq
    rw [show ((unwrapped g).restrict Patient).next s a = s' from hs']
    cases hcs with
    | other _ _ hi hin => exact hold (hi k ▸ hiss) fun t ht => (hin k t).trans ht
    | @begins k' t proc args q' _ _ hnone hsome ho hi =>
        rcases (hi k q).mp hiss with hold' | ⟨rfl, rfl⟩
        · refine hold hold' fun t' ht' => (ho k t' ?_).trans ht'
          intro heq
          cases heq
          rw [hnone] at ht'
          cases ht'
        · exact .inl ⟨t, hsome⟩
    | @ends k' t f r hsome hnone ho hi =>
        have hiss : q ∈ (s.clt k).issued := hi k ▸ hiss
        by_cases hcall : k = k' ∧ f.req = q
        · obtain ⟨rfl, rfl⟩ := hcall
          obtain ⟨q', hq', hx, hc⟩ := ((settled_of_run hr hn).callers k).done t f.req hsome hp
          have heq := (valid_clt hr.of_restrict k).unique hq' hiss hx
          exact .inr ((heq ▸ hc).mono hl)
        · refine hold hiss fun t' ht' => (ho k t' ?_).trans ht'
          intro heq
          cases heq
          exact hcall ⟨rfl, Option.some.inj (hsome.symm.trans ht')⟩

end RpcNet
end StanDfs
