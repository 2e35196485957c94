import StanDfs.Rpc.Lemmas.Counter

/-!
# The calls of a client

Each call has an xid of its own. It is in `calls_` from the moment its header is made until its thread
erases it, and `calls_` leads to that thread. The window of replies stands for the xids that were replied
to or erased, and no header carries an `xid_rep` beyond its front.
-/

namespace StanDfs

/-- The request of the call a thread is in. -/
def Thread.inCall {χ : Type*} : Thread χ → Option Request
  | .transmit f | .send f _ | .waiting f | .lost f | .leaving f | .returning f => some f.req
  | .idle | .binding _ => none

/-- The request of a call that is in `calls_`. -/
def Thread.active {χ : Type*} : Thread χ → Option Request
  | .transmit f | .send f _ | .waiting f | .lost f | .leaving f => some f.req
  | .returning _ | .idle | .binding _ => none

/-- The request that a thread has still to send. -/
def Thread.unsent {χ : Type*} : Thread χ → Option Request
  | .transmit f | .send f _ => some f.req
  | _ => none

namespace Rpcc

variable {χ : Type*} {e : Env} {s : Rpcc χ}

structure Valid (e : Env) (s : Rpcc χ) : Prop where
  issued : ∀ q ∈ s.issued, q.hdr.cltNonce = e.nonce ∧ q.xid ≠ 0 ∧ (s.xid = 0 ∨ q.xid < s.xid)
  distinct : s.issued.Pairwise fun q q' => q.xid ≠ q'.xid
  inCall : ∀ t q, (s.threads t).inCall = some q → q ∈ s.issued ∧ (s.callers t).xid = q.xid
  apart : ∀ t t' q, (s.threads t).inCall = some q → (s.threads t').inCall = some q → t = t'
  active : ∀ t q, (s.threads t).active = some q → s.calls.lookup q.xid = some t
  calls : ∀ x t, s.calls.lookup x = some t → ∃ q, (s.threads t).active = some q ∧ q.xid = x
  left : ∀ x ∈ s.left, s.calls.lookup x = none ∧ ∃ q ∈ s.issued, q.xid = x
  window : s.xidRepWindow.Reports fun x => x ∈ s.replied ∨ x ∈ s.left
  floor : ∀ q ∈ s.issued, q.hdr.xidRep.toUInt32 ≤ s.xidRepWindow.front
  sent : ∀ m ∈ s.sent, m.2 ∈ s.issued

theorem valid_init : Valid e (init : Rpcc χ) where
  issued q hq := by cases hq
  distinct := List.Pairwise.nil
  inCall t q hq := by cases hq
  apart t t' q hq := by cases hq
  active t q hq := by cases hq
  calls x t hx := by cases hx
  left x hx := by cases hx
  window := XidWindow.reports_init _
  floor q hq := by cases hq
  sent m hm := by cases hm

theorem active_inCall {p : Thread χ} {q : Request} (h : p.active = some q) : p.inCall = some q := by
  cases p <;> first | exact h | cases h

theorem Valid.unique {q q' : Request} (h : Valid e s) (hq : q ∈ s.issued) (hq' : q' ∈ s.issued)
    (hx : q.xid = q'.xid) : q = q' := by
  have hnd : (s.issued.map Request.xid).Nodup := List.pairwise_map.mpr h.distinct
  exact List.inj_on_of_nodup_map hnd hq hq' hx

theorem xid_request (s : Rpcc χ) (proc : UInt32) (args : Bytes) :
    (s.request e proc args).xid = s.xid := by
  simp [request, Request.xid]

/-- The next xid is not that of a call made before. -/
theorem Valid.not_issued (h : Valid e s) (hx : s.xid ≠ 0) : ∀ q ∈ s.issued, q.xid ≠ s.xid := by
  rintro q hq heq
  rcases (h.issued q hq).2.2 with h0 | hlt
  · exact hx h0
  · rw [heq] at hlt
    exact UInt32.lt_irrefl _ hlt

/-- What another thread has to do with calls stays. -/
theorem view_setThread {F : Thread χ → Option Request} {t t' : Tid} {p : Thread χ} {q : Request}
    (h : F ((s.setThread t p).threads t') = some q) :
    t' = t ∧ F p = some q ∨ t' ≠ t ∧ F (s.threads t') = some q := by
  by_cases ht : t' = t
  · subst ht
    exact .inl ⟨rfl, by simpa [Rpcc.setThread] using h⟩
  · exact .inr ⟨ht, by simpa [Rpcc.setThread, Function.update_of_ne ht] using h⟩

theorem view_setThread_eq {F : Thread χ → Option Request} {t : Tid} {p : Thread χ}
    (hp : F p = F (s.threads t)) (t' : Tid) : F ((s.setThread t p).threads t') = F (s.threads t') := by
  by_cases ht : t' = t
  · subst ht
    simpa [Rpcc.setThread] using hp
  · simp [Rpcc.setThread, Function.update_of_ne ht]

theorem Valid.setThread {t : Tid} {p : Thread χ} (h : Valid e s)
    (hc : p.inCall = (s.threads t).inCall) (ha : p.active = (s.threads t).active) :
    Valid e (s.setThread t p) := by
  have hi := view_setThread_eq hc
  have hac := view_setThread_eq ha
  exact { h with
    inCall := fun t' q hq => h.inCall t' q (by rw [← hi]; exact hq)
    apart := fun t₁ t₂ q h₁ h₂ => h.apart t₁ t₂ q (by rw [← hi]; exact h₁) (by rw [← hi]; exact h₂)
    active := fun t' q hq => h.active t' q (by rw [← hac]; exact hq)
    calls := fun x t' hx => by
      obtain ⟨q, hq, hx⟩ := h.calls x t' hx
      exact ⟨q, by rw [hac]; exact hq, hx⟩ }

/-- A thread that is not in `calls_` goes on after its call. -/
theorem Valid.endCall {t : Tid} {p : Thread χ} (h : Valid e s) (hc : p.inCall = none)
    (ha : (s.threads t).active = none) : Valid e (s.setThread t p) := by
  have hpa : p.active = none := by
    cases hp : p.active with
    | none => rfl
    | some q => rw [active_inCall hp] at hc; cases hc
  have hac := view_setThread_eq (F := Thread.active) (hpa.trans ha.symm)
  have hic : ∀ t' q, ((s.setThread t p).threads t').inCall = some q →
      (s.threads t').inCall = some q := by
    intro t' q hq
    rcases view_setThread hq with ⟨_, hq⟩ | ⟨_, hq⟩
    · rw [hc] at hq
      cases hq
    · exact hq
  exact { h with
    inCall := fun t' q hq => h.inCall t' q (hic t' q hq)
    apart := fun t₁ t₂ q h₁ h₂ => h.apart t₁ t₂ q (hic t₁ q h₁) (hic t₂ q h₂)
    active := fun t' q hq => h.active t' q (by rw [← hac]; exact hq)
    calls := fun x t' hx => by
      obtain ⟨q, hq, hx⟩ := h.calls x t' hx
      exact ⟨q, by rw [hac]; exact hq, hx⟩ }

/-- The new call is the last in the list of those made, and its xid the largest. -/
theorem Valid.issued_call1 {q : Request} (h : Valid e s) (hx : s.xid ≠ 0) (hn : q.hdr.cltNonce = e.nonce)
    (hq : q.xid = s.xid) : ∀ q' ∈ s.issued ++ [q], q'.hdr.cltNonce = e.nonce ∧ q'.xid ≠ 0 ∧
      (s.xid + 1 = 0 ∨ q'.xid < s.xid + 1) := by
  intro q' hq'
  rcases List.mem_append.mp hq' with hq' | hq'
  · obtain ⟨hn, h0, hlt⟩ := h.issued q' hq'
    refine ⟨hn, h0, ?_⟩
    grind
  · obtain rfl := List.mem_singleton.mp hq'
    refine ⟨hn, by rw [hq]; exact hx, ?_⟩
    rw [hq]
    grind

theorem Valid.call1 {t : Tid} {proc : UInt32} {args : Bytes} (h : Valid e s)
    (ht : s.threads t = .idle) (hx : s.refuses proc = false → s.xid ≠ 0) :
    Valid e (s.call1 e t proc args) := by
  rw [Rpcc.call1]
  split
  · exact h
  · rename_i hr
    replace hx := hx (by simpa using hr)
    have hxid := xid_request (e := e) s proc args
    have hfresh := h.not_issued hx
    have hold : ∀ t' q, (s.threads t').inCall = some q → q.xid ≠ s.xid :=
      fun t' q hq => hfresh q (h.inCall t' q hq).1
    have hnew : ∀ q, (Thread.transmit (⟨s.request e proc args, none⟩ : Call χ)).inCall = some q →
        q.xid = s.xid := by
      intro q hq
      exact Option.some.inj hq ▸ hxid
    exact
      { issued := h.issued_call1 hx rfl hxid
        distinct := by
          refine List.pairwise_append.mpr ⟨h.distinct, List.pairwise_singleton _ _, ?_⟩
          intro q hq q' hq'
          obtain rfl := List.mem_singleton.mp hq'
          rw [hxid]
          exact hfresh q hq
        inCall := fun t' q hq => by
          rcases view_setThread (F := Thread.inCall) hq with ⟨rfl, hp⟩ | ⟨htt, hq⟩
          · obtain rfl := Option.some.inj hp
            exact ⟨by simp, by simp [hxid]⟩
          · obtain ⟨hm, hcx⟩ := h.inCall t' q hq
            exact ⟨List.mem_append_left _ hm, by simpa [Function.update_of_ne htt] using hcx⟩
        apart := fun t₁ t₂ q h₁ h₂ => by
          rcases view_setThread (F := Thread.inCall) h₁ with ⟨ht₁, hp₁⟩ | ⟨_, h₁⟩
          · rcases view_setThread (F := Thread.inCall) h₂ with ⟨ht₂, _⟩ | ⟨_, h₂⟩
            · exact ht₁.trans ht₂.symm
            · exact absurd (hnew q hp₁) (hold t₂ q h₂)
          · rcases view_setThread (F := Thread.inCall) h₂ with ⟨_, hp₂⟩ | ⟨_, h₂⟩
            · exact absurd (hnew q hp₂) (hold t₁ q h₁)
            · exact h.apart t₁ t₂ q h₁ h₂
        active := fun t' q hq => by
          rcases view_setThread (F := Thread.active) hq with ⟨rfl, hp⟩ | ⟨_, hq⟩
          · rw [hnew q (active_inCall hp)]
            exact AList.lookup_insert _
          · rw [AList.lookup_insert_ne (hold t' q (active_inCall hq))]
            exact h.active t' q hq
        calls := fun x t' hl => by
          by_cases hxx : x = s.xid
          · subst hxx
            rw [AList.lookup_insert, Option.some.injEq] at hl
            subst hl
            exact ⟨_, by simp [Rpcc.setThread, Thread.active], hxid⟩
          · rw [AList.lookup_insert_ne hxx] at hl
            obtain ⟨q, hq, hqx⟩ := h.calls x t' hl
            have htt : t' ≠ t := by
              rintro rfl
              simp [ht, Thread.active] at hq
            exact ⟨q, by simpa [Rpcc.setThread, Function.update_of_ne htt] using hq, hqx⟩
        left := fun x hm => by
          obtain ⟨hl, q, hq, hqx⟩ := h.left x hm
          refine ⟨?_, q, List.mem_append_left _ hq, hqx⟩
          rw [AList.lookup_insert_ne (hqx ▸ hfresh q hq)]
          exact hl
        window := h.window
        floor := fun q hq => by
          rcases List.mem_append.mp hq with hq | hq
          · exact h.floor q hq
          · obtain rfl := List.mem_singleton.mp hq
            simp only [request, UInt32.toUInt32_toInt32]
            exact UInt32.le_refl _
        sent := fun m hm => List.mem_append_left _ (h.sent m hm) }

/-- `got_pdu` and `cancel` change what callers got, but not their calls. -/
theorem Valid.setCallers {callers : Tid → Caller} (h : Valid e s)
    (hc : ∀ t, (callers t).xid = (s.callers t).xid) : Valid e { s with callers := callers } :=
  { h with
    inCall := fun t q hq => ⟨(h.inCall t q hq).1, (hc t).trans (h.inCall t q hq).2⟩ }

theorem Valid.take {t : Tid} {hdr : ReplyHeader} {u : Unmarshall} (h : Valid e s) :
    Valid e (s.take t hdr u) := by
  unfold Rpcc.take
  split
  · exact h
  · refine h.setCallers fun t' => ?_
    by_cases ht : t' = t
    · subst ht
      simp
    · rw [Function.update_of_ne ht]

/-- A reply moves the window on, and the floor of no request is above it. -/
theorem Valid.gotPdu {b : Bytes} (h : Valid e s) : Valid e (s.gotPdu b) := by
  unfold Rpcc.gotPdu
  split
  · exact h
  · rename_i hdr u _
    have h' : Valid e { s with
        xidRepWindow := updateXidRep s.xidRepWindow hdr.xid.toUInt32
        replied := s.replied ++ [hdr.xid.toUInt32] } :=
      { h with
        window := (updateXidRep_reports _ h.window).mono fun x hx => by
          rcases hx with hx | hx | hx
          · exact .inl (by simp [hx])
          · exact .inl (List.mem_append_left _ hx)
          · exact .inr hx
        floor := fun q hq => UInt32.le_trans (h.floor q hq) (le_updateXidRep _ h.window) }
    simp only
    split
    · exact h'
    · exact h'.take

theorem Valid.leave {t : Tid} {f : Call χ} (h : Valid e s) (ht : s.threads t = .leaving f) :
    Valid e (s.leave t f) := by
  have hact : (s.threads t).active = some f.req := by rw [ht]; rfl
  obtain ⟨hq, hx⟩ := h.inCall t f.req (active_inCall hact)
  have hl := h.active t f.req hact
  have hother : ∀ t' q, t' ≠ t → (s.threads t').active = some q → q.xid ≠ f.req.xid := by
    intro t' q ht' hq' heq
    have hl' := h.active t' q hq'
    rw [heq, hl, Option.some.injEq] at hl'
    exact ht' hl'.symm
  have hic : ∀ t' q, ((s.setThread t (.returning f)).threads t').inCall = some q →
      (s.threads t').inCall = some q := by
    intro t' q hq'
    rcases view_setThread hq' with ⟨ht', hp⟩ | ⟨_, hq'⟩
    · rw [ht', active_inCall hact]
      exact hp
    · exact hq'
  simp only [Rpcc.leave, hx]
  exact { h with
    inCall := fun t' q hq' => h.inCall t' q (hic t' q hq')
    apart := fun t₁ t₂ q h₁ h₂ => h.apart t₁ t₂ q (hic t₁ q h₁) (hic t₂ q h₂)
    active := fun t' q hq' => by
      rcases view_setThread (F := Thread.active) hq' with ⟨_, hp⟩ | ⟨ht', hq'⟩
      · cases hp
      · rw [AList.lookup_erase_ne (hother t' q ht' hq')]
        exact h.active t' q hq'
    calls := fun x t' hx' => by
      by_cases hxx : x = f.req.xid
      · subst hxx
        rw [AList.lookup_erase] at hx'
        cases hx'
      · rw [AList.lookup_erase_ne hxx] at hx'
        obtain ⟨q, hq', hqx⟩ := h.calls x t' hx'
        have ht' : t' ≠ t := by
          rintro rfl
          rw [hact, Option.some.injEq] at hq'
          exact hxx (hqx ▸ congrArg Request.xid hq'.symm)
        exact ⟨q, by simpa [Rpcc.setThread, Function.update_of_ne ht'] using hq', hqx⟩
    left := fun x hm => by
      rcases List.mem_append.mp hm with hm | hm
      · obtain ⟨hnone, hiss⟩ := h.left x hm
        refine ⟨?_, hiss⟩
        by_cases hxx : x = f.req.xid
        · subst hxx
          exact AList.lookup_erase ..
        · rw [AList.lookup_erase_ne hxx]
          exact hnone
      · obtain rfl := List.mem_singleton.mp hm
        exact ⟨AList.lookup_erase .., f.req, hq, rfl⟩
    window := (updateXidRep_reports _ h.window).mono fun x hx => by
      rcases hx with hx | hx | hx
      · exact .inr (by simp [hx])
      · exact .inl hx
      · exact .inr (List.mem_append_left _ hx)
    floor := fun q hq => UInt32.le_trans (h.floor q hq) (le_updateXidRep _ h.window) }

theorem Valid.ret {t : Tid} {f : Call χ} {r : Int32} (h : Valid e s)
    (ht : s.threads t = .returning f) : Valid e (s.ret t f r) := by
  have hact : (s.threads t).active = none := by rw [ht]; rfl
  unfold Rpcc.ret
  split
  · split
    · exact h.endCall rfl hact
    · exact h.endCall rfl hact
  · exact h.endCall rfl hact

section Step

variable [DecidableEq χ]

theorem Valid.getRefconn {t : Tid} {f : Call χ} {conn : Option χ} (h : Valid e s)
    (ht : s.threads t = .transmit f) : Valid e (s.getRefconn t f conn) := by
  have h' : Valid e { s with chan := if s.chanAlive then s.chan else conn } := { h with }
  simp only [Rpcc.getRefconn]
  split
  · exact h'.setThread (by simp [ht, Thread.inCall]) (by simp [ht, Thread.active])
  · exact h'.setThread (by simp [ht, Thread.inCall]) (by simp [ht, Thread.active])

theorem Valid.step {a : Act χ} (h : Valid e s) (hg : guard s a) (hu : s.Unwrapped a) :
    Valid e (s.next e a) := by
  cases a with
  | call1 t proc args => exact h.call1 hg hu
  | getRefconn t f conn => exact h.getRefconn hg.1
  | tx t f c ok =>
      have ht : s.threads t = .send f c := hg.1
      have hq : f.req ∈ s.issued := (h.inCall t f.req (by rw [ht]; rfl)).1
      refine { h.setThread (p := .waiting f) (by rw [ht]; rfl) (by rw [ht]; rfl) with
        sent := fun m hm => ?_ }
      cases ok with
      | false => exact h.sent m hm
      | true =>
          rcases List.mem_append.mp hm with hm | hm
          · exact h.sent m hm
          · rw [List.mem_singleton.mp hm]
            exact hq
  | giveup t f =>
      have ht : s.threads t = .waiting f := hg
      exact h.setThread (by rw [ht]; rfl) (by rw [ht]; rfl)
  | woken t f => exact h.setThread (by rw [hg.1]; rfl) (by rw [hg.1]; rfl)
  | timedout t f => exact h.setThread (by rw [hg.1]; rfl) (by rw [hg.1]; rfl)
  | isdead t f =>
      have ht : s.threads t = .lost f := hg
      rcases isdead_cases (e := e) s t f with heq | ⟨_, heq⟩
      · rw [next, heq]
        exact h.setThread (by rw [ht]; rfl) (by rw [ht]; rfl)
      · rw [next, heq]
        exact h.setThread (by rw [ht]; rfl) (by rw [ht]; rfl)
  | leave t f => exact h.leave hg
  | ret t f r => exact h.ret hg.1
  | bound t r =>
      have ht : s.threads t = .binding r := hg
      exact { h.endCall (p := .idle) rfl (by rw [ht]; rfl) with }
  | gotPdu c b => exact h.gotPdu
  | cancel =>
      have hxid : ∀ t, (s.cancel.callers t).xid = (s.callers t).xid := fun t => by
        simp only [Rpcc.cancel]
        split <;> rfl
      exact { h.setCallers hxid with }
  | die c => exact { h with }

theorem valid_of_run {tr : List (Act χ)} (h : (unwrapped e).Run tr s) : Valid e s := by
  refine h.invariant (I := fun _ s => Valid e s) ?_ ?_
  · rintro s rfl
    exact valid_init
  · intro tr s a _ hs hg
    exact hs.step hg.1 hg.2

end Step

/-! ## Without retransmission -/

/-- How often a request of the call went out. -/
def copies (s : Rpcc χ) (x : UInt32) : Nat := s.sent.countP fun m => m.2.xid == x

/-- No call went out twice, and none that is still to be sent. -/
structure SentOnce (s : Rpcc χ) : Prop where
  le : ∀ x, s.copies x ≤ 1
  unsent : ∀ t q, (s.threads t).unsent = some q → s.copies q.xid = 0

theorem unsent_active {p : Thread χ} {q : Request} (h : p.unsent = some q) : p.active = some q := by
  cases p <;> first | exact h | cases h

theorem SentOnce.setThread {t : Tid} {p : Thread χ} (h : SentOnce s)
    (hp : ∀ q, p.unsent = some q → s.copies q.xid = 0) : SentOnce (s.setThread t p) where
  le := h.le
  unsent t' q hq := by
    rcases view_setThread hq with ⟨_, hq⟩ | ⟨_, hq⟩
    · exact hp q hq
    · exact h.unsent t' q hq

theorem SentOnce.call1 {t : Tid} {proc : UInt32} {args : Bytes} (h : SentOnce s) (hv : Valid e s)
    (hx : s.refuses proc = false → s.xid ≠ 0) : SentOnce (s.call1 e t proc args) := by
  rw [Rpcc.call1]
  split
  · exact h
  · rename_i hr
    replace hx := hx (by simpa using hr)
    refine { h.setThread (t := t) (p := .transmit ⟨s.request e proc args, none⟩) ?_ with }
    intro q hq
    obtain rfl : s.request e proc args = q := Option.some.inj hq
    rw [copies, List.countP_eq_zero]
    intro m hm
    simpa [xid_request] using hv.not_issued hx _ (hv.sent m hm)

theorem SentOnce.tx {t : Tid} {f : Call χ} {c : χ} (h : SentOnce s) (hv : Valid e s)
    (ht : s.threads t = .send f c) :
    SentOnce { s.setThread t (.waiting f) with sent := s.sent ++ [(c, f.req)] } := by
  have h0 := h.unsent t f.req (by rw [ht]; rfl)
  have hcopies : ∀ x, (s.sent ++ [(c, f.req)]).countP (fun m => m.2.xid == x)
      = s.copies x + if f.req.xid = x then 1 else 0 := by
    intro x
    simp [copies, List.countP_append, List.countP_singleton]
  refine ⟨fun x => ?_, fun t' q hq => ?_⟩
  · rw [copies, hcopies]
    have hle := h.le x
    split
    · rename_i hx
      rw [← hx, h0]
    · exact hle
  · rcases view_setThread (F := Thread.unsent) hq with ⟨_, hp⟩ | ⟨htt, hq⟩
    · cases hp
    · have hne : f.req.xid ≠ q.xid := by
        intro heq
        have h₁ := hv.active t f.req (by rw [ht]; rfl)
        have h₂ := hv.active t' q (unsent_active hq)
        rw [heq, h₂, Option.some.injEq] at h₁
        exact htt h₁
      rw [copies, hcopies, if_neg hne, Nat.add_zero]
      exact h.unsent t' q hq

theorem SentOnce.step [DecidableEq χ] {a : Act χ} (h : SentOnce s) (hv : Valid e s) (hr : e.retrans = false)
    (hg : guard s a) (hu : s.Unwrapped a) : SentOnce (s.next e a) := by
  have hnil {p : Thread χ} (hp : p.unsent = none) :
      ∀ q, p.unsent = some q → s.copies q.xid = 0 := by
    intro q hq
    rw [hp] at hq
    cases hq
  cases a with
  | call1 t proc args => exact h.call1 hv hu
  | getRefconn t f conn =>
      have h' : SentOnce { s with chan := if s.chanAlive then s.chan else conn } := { h with }
      have h0 := h.unsent t f.req (by rw [hg.1]; rfl)
      simp only [next, Rpcc.getRefconn]
      split
      · refine h'.setThread fun q hq => ?_
        obtain rfl : f.req = q := Option.some.inj hq
        exact h0
      · exact h'.setThread (fun q hq => by cases hq)
  | tx t f c ok =>
      cases ok with
      | true => exact h.tx hv hg.1
      | false => exact { h.setThread (p := .waiting f) (hnil rfl) with }
  | giveup t f => exact h.setThread (hnil rfl)
  | woken t f => exact h.setThread (hnil rfl)
  | timedout t f => exact h.setThread (hnil rfl)
  | isdead t f =>
      rcases isdead_cases (e := e) s t f with heq | ⟨h', _⟩
      · rw [next, heq]
        exact h.setThread (hnil rfl)
      · rw [hr] at h'
        cases h'
  | leave t f => exact { h.setThread (p := .returning f) (hnil rfl) with }
  | ret t f r =>
      simp only [next, Rpcc.ret]
      split
      · split
        · exact h.setThread (hnil rfl)
        · exact h.setThread (hnil rfl)
      · exact h.setThread (hnil rfl)
  | bound t r => exact { h.setThread (p := .idle) (hnil rfl) with }
  | gotPdu c b =>
      simp only [next, Rpcc.gotPdu]
      split
      · exact h
      · split
        · exact { h with }
        · rw [Rpcc.take]
          split <;> exact { h with }
  | cancel => exact { h with }
  | die c => exact { h with }

/-- A client that does not retransmit sends each call at most once. -/
theorem copies_le_one [DecidableEq χ] {tr : List (Act χ)} (h : (unwrapped e).Run tr s)
    (hr : e.retrans = false) (x : UInt32) : s.copies x ≤ 1 := by
  have hs : SentOnce s := by
    refine h.invariant (I := fun _ s => SentOnce s) ?_ ?_
    · rintro s rfl
      exact ⟨fun x => Nat.zero_le 1, fun t q hq => by cases hq⟩
    · intro tr s a hrun hs hg
      exact hs.step (valid_of_run hrun) hr hg.1 hg.2
  exact hs.le x

/-! ## What callers got -/

/-- A caller that is done with a good value has it from a reply that satisfies `P`. -/
def Answered (P : UInt32 → Int32 → Unmarshall → Prop) (callers : Tid → Caller) : Prop :=
  ∀ t, (callers t).done = true → 0 ≤ (callers t).intret →
    P (callers t).xid (callers t).intret (callers t).un

variable {P : UInt32 → Int32 → Unmarshall → Prop}

theorem Answered.update {callers : Tid → Caller} {t : Tid} {ca : Caller} (h : Answered P callers)
    (hc : ca.done = true → 0 ≤ ca.intret → P ca.xid ca.intret ca.un) :
    Answered P (Function.update callers t ca) := by
  intro t'
  by_cases ht : t' = t
  · subst ht
    rw [Function.update_self]
    exact hc
  · rw [Function.update_of_ne ht]
    exact h t'

theorem Answered.take {t : Tid} {hdr : ReplyHeader} {u : Unmarshall} (h : Answered P s.callers)
    (hx : (s.callers t).xid = hdr.xid.toUInt32) (hp : 0 ≤ hdr.ret → P hdr.xid.toUInt32 hdr.ret u) :
    Answered P (s.take t hdr u).callers := by
  unfold Rpcc.take
  split
  · exact h
  · refine h.update fun _ hret => ?_
    rw [hx]
    exact hp hret

theorem Answered.cancel (h : Answered P s.callers) : Answered P s.cancel.callers := by
  intro t hd hret
  simp only [Rpcc.cancel] at hd hret ⊢
  split at hret
  · have hneg : ¬ 0 ≤ RpcConst.cancelFailure := by decide
    exact absurd hret hneg
  · rename_i hl
    rw [if_neg hl] at hd ⊢
    exact h t hd hret

/-- Callers get what comes in replies. -/
theorem Answered.step [DecidableEq χ] {a : Act χ} (h : Answered P s.callers) (hv : Valid e s)
    (hp : ∀ c b, a = .gotPdu c b → ∀ hdr u, decodeReply b = some (hdr, u) → 0 ≤ hdr.ret →
      P hdr.xid.toUInt32 hdr.ret u) : Answered P (s.next e a).callers := by
  cases a with
  | call1 t proc args =>
      simp only [next, Rpcc.call1]
      split
      · exact h
      · exact h.update fun hd => by cases hd
  | getRefconn t f conn =>
      simp only [next, Rpcc.getRefconn]
      split <;> exact h
  | tx t f c ok => exact h
  | giveup t f => exact h
  | woken t f => exact h
  | timedout t f => exact h
  | isdead t f =>
      rcases isdead_cases (e := e) s t f with heq | ⟨_, heq⟩
      · rw [next, heq]
        exact h
      · rw [next, heq]
        exact h
  | leave t f => exact h
  | ret t f r =>
      simp only [next, Rpcc.ret]
      split
      · split <;> exact h
      · exact h
  | bound t r => exact h
  | gotPdu c b =>
      simp only [next, Rpcc.gotPdu]
      split
      · exact h
      · rename_i hdr u hdec
        split
        · exact h
        · rename_i t hl
          obtain ⟨q, hq, hqx⟩ := hv.calls _ t hl
          have hx : (s.callers t).xid = hdr.xid.toUInt32 :=
            (hv.inCall t q (active_inCall hq)).2.trans hqx
          exact Answered.take h hx (hp c b rfl hdr u hdec)
  | cancel => exact h.cancel
  | die c => exact h

end Rpcc
end StanDfs
