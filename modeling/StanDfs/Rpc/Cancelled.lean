import StanDfs.Rpc.Cancel

/-!
# What a cancel does to the calls

A call in `calls_` when `cancel` takes `m_` is still there when it is made to fail, and nothing changes its
result after that. New calls are refused from then on, if there was a call to wait for.
-/

namespace StanDfs

/-- How many steps the thread takes at most until it returns, once its caller is done. -/
def Thread.rank {χ : Type*} : Thread χ → Nat
  | .lost _ => 6
  | .transmit _ => 5
  | .send _ _ => 4
  | .waiting _ => 3
  | .leaving _ => 2
  | .returning _ => 1
  | .idle => 0
  | .binding _ => 0

namespace Rpcc

section

variable {χ : Type*} {s s' : Rpcc χ} {t : Tid}

/-! ## What the steps of a client leave -/

/-- What the steps of others leave of a thread in a call: where it is, and its result if it has one. -/
structure Keeps (t : Tid) (s s' : Rpcc χ) : Prop where
  thread : s'.threads t = s.threads t
  xid : (s'.callers t).xid = (s.callers t).xid
  caller : (s.callers t).done = true → s'.callers t = s.callers t

theorem Keeps.refl (t : Tid) (s : Rpcc χ) : Keeps t s s := ⟨rfl, rfl, fun _ => rfl⟩

theorem keeps_setThread {t' : Tid} (hne : t ≠ t') {p : Thread χ}
    (hth : s'.threads = Function.update s.threads t' p) (hc : s'.callers = s.callers) : Keeps t s s' where
  thread := by rw [hth, Function.update_of_ne hne]
  xid := by rw [hc]
  caller _ := by rw [hc]

/-- A reply changes the caller that it is for, unless that is done. -/
theorem gotPdu_eq (s : Rpcc χ) (b : Bytes) : ∃ w r cs,
    s.gotPdu b = { s with xidRepWindow := w, replied := r, callers := cs } ∧
      ∀ t, (cs t).xid = (s.callers t).xid ∧ ((s.callers t).done = true → cs t = s.callers t) := by
  have hsame : ∀ t, (s.callers t).xid = (s.callers t).xid ∧ ((s.callers t).done = true → s.callers t = s.callers t) :=
    fun _ => ⟨rfl, fun _ => rfl⟩
  unfold gotPdu
  split
  · exact ⟨_, _, _, rfl, hsame⟩
  · simp only
    split
    · exact ⟨_, _, _, rfl, hsame⟩
    · rename_i t' _
      unfold take
      split
      · exact ⟨_, _, _, rfl, hsame⟩
      · rename_i hnot
        refine ⟨_, _, _, rfl, fun t => ?_⟩
        by_cases ht : t = t'
        · subst ht
          rw [Function.update_self]
          exact ⟨rfl, fun hdone => absurd hdone hnot⟩
        · rw [Function.update_of_ne ht]
          exact ⟨rfl, fun _ => rfl⟩

theorem keeps_gotPdu (t : Tid) (s : Rpcc χ) (b : Bytes) : Keeps t s (s.gotPdu b) := by
  obtain ⟨w, r, cs, heq, hc⟩ := gotPdu_eq s b
  rw [heq]
  exact ⟨rfl, (hc t).1, (hc t).2⟩

theorem refuses_eq (s : Rpcc χ) (proc : UInt32) : s.refuses proc = (s.refusal proc).isSome := by
  unfold refuses refusal
  by_cases hp : proc = RpcConst.bind <;> cases s.bindDone <;> cases s.destroyWait <;> simp [hp]

theorem refusal_of_destroyWait (h : s.destroyWait = true) (proc : UInt32) :
    s.refusal proc = some RpcConst.cancelFailure ∨ s.refusal proc = some RpcConst.bindFailure := by
  rw [refusal, if_pos h]
  split
  · exact .inr rfl
  · exact .inl rfl

/-- Without the flag some call is registered. -/
theorem exists_refusal_none (h : s.destroyWait = false) : ∃ proc, s.refusal proc = none := by
  cases hb : s.bindDone with
  | false => exact ⟨RpcConst.bind, by simp [refusal, hb, h]⟩
  | true => exact ⟨RpcConst.bind + 1, by simp [refusal, hb, h]⟩

theorem inCall_of_active {p : Thread χ} (h : p.active ≠ none) : p.inCall ≠ none := by
  cases p <;> first | exact h | exact absurd rfl h

/-- The steps of the thread itself: it goes on in its call, or returns. -/
inductive CallerStep (t : Tid) (s s' : Rpcc χ) : Act χ → Prop
  | goes {a} : (s.threads t).active ≠ none → (s'.threads t).active ≠ none →
      ((s.callers t).done = true → (s'.threads t).rank < (s.threads t).rank) → a.locks = false →
      s'.callers = s.callers → CallerStep t s s' a
  | leaves {f} : (s.threads t) = .leaving f → s'.threads t = .returning f → s'.callers = s.callers →
      CallerStep t s s' (.leave t f)
  | returns {f r} : s.threads t = .returning f → r = result (s.callers t) → (s'.threads t).rank = 0 →
      CallerStep t s s' (.ret t f r)

end

variable {χ : Type*} [DecidableEq χ] {e : Env} {s : Rpcc χ} {a : Act χ} {t : Tid}

/-- What a step does to the flag, to `calls_`, which changes where a call begins and where it leaves, and to
the threads. -/
structure StepFrame (s : Rpcc χ) (a : Act χ) (s' : Rpcc χ) : Prop where
  flag : s'.destroyWait = s.destroyWait
  calls : s'.calls = s.calls ∨
    (∃ t proc args, a = .call1 t proc args ∧ s'.calls = s.calls.insert s.xid t) ∨
      ∃ t f, a = .leave t f ∧ s'.calls = s.calls.erase (s.callers t).xid
  threads : s'.threads = s.threads ∨ ∃ t p, s'.threads = Function.update s.threads t p

theorem stepFrame (h : a ≠ .cancel) : StepFrame s a (s.next e a) := by
  cases a with
  | cancel => exact absurd rfl h
  | call1 t proc args =>
      simp only [next, call1]
      split
      · exact ⟨rfl, .inl rfl, .inl rfl⟩
      · exact ⟨rfl, .inr (.inl ⟨t, proc, args, rfl, rfl⟩), .inr ⟨_, _, rfl⟩⟩
  | getRefconn t f conn =>
      simp only [next, getRefconn]
      split <;> exact ⟨rfl, .inl rfl, .inr ⟨_, _, rfl⟩⟩
  | leave t f => exact ⟨rfl, .inr (.inr ⟨t, f, rfl, rfl⟩), .inr ⟨_, _, rfl⟩⟩
  | ret t f r =>
      simp only [next, ret]
      split
      · split <;> exact ⟨rfl, .inl rfl, .inr ⟨_, _, rfl⟩⟩
      · exact ⟨rfl, .inl rfl, .inr ⟨_, _, rfl⟩⟩
  | gotPdu c b =>
      obtain ⟨w, r, cs, heq, _⟩ := gotPdu_eq s b
      rw [next, heq]
      exact ⟨rfl, .inl rfl, .inl rfl⟩
  | tx | giveup | woken | timedout | isdead | bound => exact ⟨rfl, .inl rfl, .inr ⟨_, _, rfl⟩⟩
  | die => exact ⟨rfl, .inl rfl, .inl rfl⟩

theorem keeps_next (hg : Cancelling.clientGuard s a) (hcall : (s.threads t).inCall ≠ none)
    (ha : a.caller ≠ some t) : Keeps t s (s.next e a) := by
  cases a with
  | cancel => exact hg.elim
  | call1 t' proc args =>
      have hne : t ≠ t' := by
        rintro rfl
        have ht : s.threads t = .idle := hg
        rw [ht] at hcall
        exact hcall rfl
      simp only [next, call1]
      split
      · exact .refl t s
      · refine ⟨Function.update_of_ne hne _ _, ?_, fun _ => Function.update_of_ne hne _ _⟩
        show (Function.update s.callers t' _ t).xid = _
        rw [Function.update_of_ne hne]
  | getRefconn t' f conn =>
      have hne : t ≠ t' := fun heq => ha (heq ▸ rfl)
      simp only [next, getRefconn]
      split <;> exact keeps_setThread hne rfl rfl
  | tx t' f c ok => exact keeps_setThread (fun heq => ha (heq ▸ rfl)) rfl rfl
  | giveup t' f => exact keeps_setThread (fun heq => ha (heq ▸ rfl)) rfl rfl
  | woken t' f => exact keeps_setThread (fun heq => ha (heq ▸ rfl)) rfl rfl
  | timedout t' f => exact keeps_setThread (fun heq => ha (heq ▸ rfl)) rfl rfl
  | isdead t' f => exact keeps_setThread (fun heq => ha (heq ▸ rfl)) rfl rfl
  | leave t' f => exact keeps_setThread (fun heq => ha (heq ▸ rfl)) rfl rfl
  | ret t' f r =>
      have hne : t ≠ t' := fun heq => ha (heq ▸ rfl)
      simp only [next, ret]
      split
      · split <;> exact keeps_setThread hne rfl rfl
      · exact keeps_setThread hne rfl rfl
  | bound t' r =>
      have hne : t ≠ t' := by
        rintro rfl
        have ht : s.threads t = .binding r := hg
        rw [ht] at hcall
        exact hcall rfl
      exact keeps_setThread hne rfl rfl
  | gotPdu c b => exact keeps_gotPdu t s b
  | die c => exact ⟨rfl, rfl, fun _ => rfl⟩

/-! ## The steps of a thread in its call -/

theorem callerStep (hg : Cancelling.clientGuard s a) (ha : a.caller = some t) :
    CallerStep t s (s.next e a) a := by
  cases a with
  | getRefconn t' f conn =>
      cases ha
      have ht : s.threads t = .transmit f := hg.1
      simp only [next, getRefconn]
      split
      · refine .goes ?_ ?_ (fun _ => ?_) rfl rfl <;> simp [setThread, ht, Thread.active, Thread.rank]
      · refine .goes ?_ ?_ (fun _ => ?_) rfl rfl <;> simp [setThread, ht, Thread.active, Thread.rank]
  | tx t' f c ok =>
      cases ha
      have ht : s.threads t = .send f c := hg.1
      refine .goes ?_ ?_ (fun _ => ?_) rfl rfl <;> simp [next, setThread, ht, Thread.active, Thread.rank]
  | giveup t' f =>
      cases ha
      have ht : s.threads t = .waiting f := hg
      refine .goes ?_ ?_ (fun _ => ?_) rfl rfl <;> simp [next, setThread, ht, Thread.active, Thread.rank]
  | woken t' f =>
      cases ha
      have ht : s.threads t = .waiting f := hg.1
      refine .goes ?_ ?_ (fun _ => ?_) rfl rfl <;> simp [next, setThread, ht, Thread.active, Thread.rank]
  | timedout t' f =>
      cases ha
      have ht : s.threads t = .waiting f := hg.1
      have hnot : (s.callers t).done = false := hg.2
      exact .goes (by simp [ht, Thread.active]) (by simp [next, setThread, Thread.active])
        (fun h => absurd h (by simp [hnot])) rfl rfl
  | isdead t' f =>
      cases ha
      have ht : s.threads t = .lost f := hg
      rcases isdead_cases (e := e) s t f with heq | ⟨_, heq⟩
      · rw [next, heq]
        refine .goes ?_ ?_ (fun _ => ?_) rfl rfl <;> simp [setThread, ht, Thread.active, Thread.rank]
      · rw [next, heq]
        refine .goes ?_ ?_ (fun _ => ?_) rfl rfl <;> simp [setThread, ht, Thread.active, Thread.rank]
  | leave t' f =>
      cases ha
      exact .leaves hg (Function.update_self _ _ _) rfl
  | ret t' f r =>
      cases ha
      refine .returns hg.1 hg.2 ?_
      simp only [next, ret]
      split
      · split <;> simp [setThread, Thread.rank]
      · simp [setThread, Thread.rank]
  | call1 | bound | gotPdu | cancel | die => cases ha

/-! ## The calls in calls_ -/

/-- `calls_` leads to threads that have not left it. -/
def Registered (s : Rpcc χ) : Prop :=
  ∀ x t, s.calls.lookup x = some t → (s.threads t).active ≠ none ∧ (s.callers t).xid = x

theorem Registered.next (h : Registered s) (hg : Cancelling.clientGuard s a) : Registered (s.next e a) := by
  have hne : a ≠ .cancel := by
    rintro rfl
    exact hg
  -- An entry that was there before is still one of its thread, unless the thread leaves.
  have hkeep : ∀ x t, s.calls.lookup x = some t → (∀ f, a ≠ .leave t f) →
      ((s.next e a).threads t).active ≠ none ∧ ((s.next e a).callers t).xid = x := by
    intro x t hx hl
    obtain ⟨hact, hxid⟩ := h x t hx
    by_cases ha : a.caller = some t
    · cases callerStep (e := e) hg ha with
      | goes _ hact' _ _ hc => exact ⟨hact', by rw [hc]; exact hxid⟩
      | leaves _ _ _ => exact absurd rfl (hl _)
      | returns hr _ _ => simp [hr, Thread.active] at hact
    · have hk := keeps_next (e := e) hg (inCall_of_active hact) ha
      exact ⟨by rw [hk.thread]; exact hact, by rw [hk.xid]; exact hxid⟩
  intro x t hx
  rcases (stepFrame (s := s) (e := e) hne).calls with hc | ⟨t', proc, args, rfl, hc⟩ | ⟨t', f, rfl, hc⟩
  · refine hkeep x t (hc ▸ hx) fun f hf => ?_
    have hxid := (h x t (hc ▸ hx)).2
    subst hf
    have herase : (s.next e (.leave t f)).calls = s.calls.erase (s.callers t).xid := rfl
    rw [herase, hxid, AList.lookup_erase] at hx
    cases hx
  · rw [hc] at hx
    by_cases hxx : x = s.xid
    · subst hxx
      rw [AList.lookup_insert] at hx
      cases hx
      simp only [next, call1] at hc ⊢
      split
      · rename_i hr
        rw [if_pos hr] at hc
        exact h s.xid t (by rw [hc, AList.lookup_insert])
      · simp [setThread, Thread.active]
    · rw [AList.lookup_insert_ne hxx] at hx
      exact hkeep x t hx fun f hf => by cases hf
  · rw [hc] at hx
    by_cases hxx : x = (s.callers t').xid
    · rw [hxx, AList.lookup_erase] at hx
      cases hx
    · rw [AList.lookup_erase_ne hxx] at hx
      refine hkeep x t hx fun f' hf => hxx ?_
      cases hf
      exact (h x t hx).2.symm

end Rpcc

namespace Cancelling

section

variable {χ : Type*}

theorem signal_rpcc (s : Cancelling χ) (a : Rpcc.Act χ) : (s.signal a).rpcc = s.rpcc := by
  unfold signal
  split
  · split <;> rfl
  · rfl

/-- Where `cancel` is after a client's step: it may have been woken. -/
theorem signal_pc (s : Cancelling χ) (a : Rpcc.Act χ) : (s.signal a).pc = s.pc ∨
    ∃ t f, a = .leave t f ∧ s.rpcc.destroyWait = true ∧ (s.signal a).pc = wake s.pc := by
  unfold signal
  split
  · split
    · rename_i t f hd
      exact .inr ⟨t, f, rfl, hd, rfl⟩
    · exact .inl rfl
  · exact .inl rfl

theorem signal_holds (s : Cancelling χ) (a : Rpcc.Act χ) (h : s.pc.holds = true) : (s.signal a).pc = s.pc := by
  rcases signal_pc s a with hp | ⟨t, f, rfl, _, hp⟩
  · exact hp
  · rw [hp]
    cases hpc : s.pc with
    | marking l => rfl
    | out | waiting | returned => rw [hpc] at h; cases h

/-- While `cancel` waits, leaving callers are to signal, and there is one unless it has been woken. -/
structure Awaits (s : Cancelling χ) : Prop where
  flag : ∀ w, s.pc = .waiting w → s.rpcc.destroyWait = true
  calls : s.pc = .waiting false → s.rpcc.calls.entries ≠ []

theorem awaits_of_ne {s : Cancelling χ} (h : ∀ w, s.pc ≠ .waiting w) : Awaits s where
  flag w hw := absurd hw (h w)
  calls hw := absurd hw (h false)

end

variable {χ : Type*} [DecidableEq χ] {e : Rpcc.Env} {s : Cancelling χ} {a : Act χ} {t : Tid}

theorem stepFrame_client {s : Rpcc χ} {a : Rpcc.Act χ} (h : clientGuard s a) :
    Rpcc.StepFrame s a (s.next e a) := by
  apply Rpcc.stepFrame
  rintro rfl
  exact h

theorem rpcc_client (e : Rpcc.Env) (s : Cancelling χ) (a : Rpcc.Act χ) :
    (next e s (.client a)).rpcc = s.rpcc.next e a := signal_rpcc _ _

/-! ## The calls in calls_ -/

theorem registered_of_run {tr : List (Act χ)} (h : (lts e).Run tr s) : s.rpcc.Registered := by
  refine Lts.Run.invariant (I := fun _ s => s.rpcc.Registered) ?_ ?_ h
  · rintro _ rfl x t hx
    cases hx
  · rintro _ s a _ hr hg
    cases a with
    | client a =>
        show (next e s (.client a)).rpcc.Registered
        rw [rpcc_client]
        exact hr.next hg.1
    | cancel => exact hr
    | mark =>
        obtain ⟨t', l, hpc⟩ := hg
        intro x t hx
        simp only [lts, next, mark, hpc] at hx ⊢
        refine ⟨(hr x t hx).1, ?_⟩
        by_cases ht : t = t'
        · rw [ht, Function.update_self]
          exact ht ▸ (hr x t hx).2
        · rw [Function.update_of_ne ht]
          exact (hr x t hx).2
    | check =>
        simp only [lts, next, check]
        split <;> exact hr
    | spurious => exact hr

/-! ## The wait of cancel -/

theorem entries_next {s : Rpcc χ} {a : Rpcc.Act χ} (hg : clientGuard s a) (h : s.calls.entries ≠ [])
    (hl : ∀ t f, a ≠ .leave t f) : (s.next e a).calls.entries ≠ [] := by
  rcases (stepFrame_client hg).calls with hc | ⟨t, proc, args, rfl, hc⟩ | ⟨t, f, rfl, _⟩
  · rw [hc]
    exact h
  · rw [hc, AList.entries_insert]
    exact List.cons_ne_nil _ _
  · exact absurd rfl (hl t f)

theorem Awaits.client {a : Rpcc.Act χ} (h : Awaits s) (hg : clientGuard s.rpcc a) :
    Awaits (next e s (.client a)) := by
  have hd : (s.rpcc.next e a).destroyWait = s.rpcc.destroyWait := (stepFrame_client hg).flag
  rcases signal_pc ({ s with rpcc := s.rpcc.next e a }) a with hp | ⟨t, f, rfl, hdw, hp⟩
  · refine ⟨fun w hw => ?_, fun hw => ?_⟩
    · rw [rpcc_client]
      exact hd.trans (h.flag w (hp.symm.trans hw))
    · rw [rpcc_client]
      apply entries_next hg (h.calls (hp.symm.trans hw))
      rintro t f rfl
      -- A leaving caller signals, and then the wait is over.
      have hdw : (s.rpcc.next e (.leave t f)).destroyWait = true := hd.trans (h.flag _ (hp.symm.trans hw))
      have hpc : s.pc = .waiting false := hp.symm.trans hw
      simp only [next, signal, hdw, if_true, hpc, wake] at hw
      cases hw
  · refine ⟨fun w _ => by rw [rpcc_client]; exact hdw, fun hw => ?_⟩
    replace hw := hp.symm.trans hw
    cases hpc : s.pc <;> simp [wake, hpc] at hw

theorem awaits_of_run {tr : List (Act χ)} (h : (lts e).Run tr s) : Awaits s := by
  refine Lts.Run.invariant (I := fun _ s => Awaits s) ?_ ?_ h
  · rintro _ rfl
    exact awaits_of_ne fun w hw => by cases hw
  · rintro _ s a _ hi hg
    cases a with
    | client a => exact hi.client hg.1
    | cancel => exact awaits_of_ne fun w hw => by cases hw
    | mark =>
        obtain ⟨t', l, hpc⟩ := hg
        simp only [lts, next, mark, hpc]
        exact awaits_of_ne fun w hw => by cases hw
    | check =>
        simp only [lts, next, check]
        split
        · rename_i hlen
          exact ⟨fun _ _ => rfl, fun _ => List.length_pos_iff.mp hlen⟩
        · exact awaits_of_ne fun w hw => by cases hw
    | spurious =>
        obtain ⟨w, hpc⟩ := hg
        exact ⟨fun _ _ => hi.flag w hpc, fun hw => nomatch hw⟩

/-! ## A call that is made to fail -/

/-- The thread is in its call, and is to return `cancel_failure`: it was marked, or is to be while it cannot
leave `calls_`. -/
structure Doomed (t : Tid) (s : Cancelling χ) : Prop where
  inCall : (s.rpcc.threads t).inCall ≠ none
  fails : ((s.rpcc.callers t).done = true ∧ (s.rpcc.callers t).intret = RpcConst.cancelFailure) ∨
    ∃ l, s.pc = .marking l ∧ t ∈ l ∧ (s.rpcc.threads t).active ≠ none

theorem Doomed.client {a : Rpcc.Act χ} (h : Doomed t s) (hg : guard s (.client a))
    (hret : ∀ f r, a ≠ .ret t f r) : Doomed t (next e s (.client a)) := by
  obtain ⟨hg, hlock⟩ := hg
  refine ⟨?_, ?_⟩
  · rw [rpcc_client]
    by_cases ha : a.caller = some t
    · cases Rpcc.callerStep (e := e) hg ha with
      | goes _ hact _ _ _ => exact Rpcc.inCall_of_active hact
      | leaves _ hth _ => simp [hth, Thread.inCall]
      | returns _ _ _ => exact absurd rfl (hret _ _)
    · rw [(Rpcc.keeps_next (e := e) hg h.inCall ha).thread]
      exact h.inCall
  · rw [rpcc_client]
    rcases h.fails with ⟨hdone, hint⟩ | ⟨l, hpc, hl, hact⟩
    · left
      have hc : (s.rpcc.next e a).callers t = s.rpcc.callers t := by
        by_cases ha : a.caller = some t
        · cases Rpcc.callerStep (e := e) hg ha with
          | goes _ _ _ _ hc => rw [hc]
          | leaves _ _ hc => rw [hc]
          | returns _ _ _ => exact absurd rfl (hret _ _)
        · exact (Rpcc.keeps_next (e := e) hg h.inCall ha).caller hdone
      rw [hc]
      exact ⟨hdone, hint⟩
    · right
      have hh : s.pc.holds = true := by rw [hpc]; rfl
      have hnl : a.locks = false := by
        cases hla : a.locks with
        | false => rfl
        | true => exact absurd (hlock hla) (by simp [hh])
      refine ⟨l, (signal_holds { s with rpcc := s.rpcc.next e a } a hh).trans hpc, hl, ?_⟩
      by_cases ha : a.caller = some t
      · cases Rpcc.callerStep (e := e) hg ha with
        | goes _ hact _ _ _ => exact hact
        | leaves _ _ _ => cases hnl
        | returns _ _ _ => exact absurd rfl (hret _ _)
      · rw [(Rpcc.keeps_next (e := e) hg h.inCall ha).thread]
        exact hact

theorem Doomed.step (h : Doomed t s) (hg : guard s a) (hret : ∀ f r, a ≠ .client (.ret t f r)) :
    Doomed t (next e s a) := by
  cases a with
  | client a => exact h.client hg fun f r heq => hret f r (heq ▸ rfl)
  | cancel =>
      refine ⟨h.inCall, .inl ?_⟩
      rcases h.fails with hd | ⟨l, hpc, _⟩
      · exact hd
      · cases (hg : s.pc = .out).symm.trans hpc
  | mark =>
      obtain ⟨t', l, hpc⟩ := hg
      simp only [next, mark, hpc]
      refine ⟨h.inCall, ?_⟩
      by_cases ht : t = t'
      · left
        simp [ht]
      · simp only [Function.update_of_ne ht]
        rcases h.fails with hd | ⟨l', hpc', hl, hact⟩
        · exact .inl hd
        · cases hpc.symm.trans hpc'
          exact .inr ⟨l, rfl, List.mem_of_ne_of_mem ht hl, hact⟩
  | check =>
      have hd : (s.rpcc.callers t).done = true ∧ (s.rpcc.callers t).intret = RpcConst.cancelFailure := by
        rcases h.fails with hd | ⟨l, hpc, hl, _⟩
        · exact hd
        · rcases hg with hpc' | hpc'
          · cases hpc.symm.trans hpc'
            cases hl
          · cases hpc.symm.trans hpc'
      simp only [next, check]
      split <;> exact ⟨h.inCall, .inl hd⟩
  | spurious =>
      obtain ⟨w, hpc⟩ := hg
      refine ⟨h.inCall, .inl ?_⟩
      rcases h.fails with hd | ⟨l, hpc', _⟩
      · exact hd
      · cases hpc.symm.trans hpc'

theorem Doomed.result {f : Call χ} {r : Int32} (h : Doomed t s) (hg : guard s (.client (.ret t f r))) :
    r = RpcConst.cancelFailure := by
  obtain ⟨⟨hth, hr⟩, _⟩ := hg
  rcases h.fails with ⟨hdone, hint⟩ | ⟨l, _, _, hact⟩
  · rw [hr, Rpcc.result, if_pos hdone, hint]
  · rw [hth] at hact
    exact absurd rfl hact

/-- A thread whose caller is done goes on, and comes nearer to its return with each step of its own. -/
theorem Doomed.returns (h : Doomed t s) (hpc : s.pc.holds = false) :
    (∃ a : Rpcc.Act χ, a.caller = some t ∧ guard s (.client a)) ∧
      ∀ a : Rpcc.Act χ, guard s (.client a) →
        (a.caller = some t → ((s.rpcc.next e a).threads t).rank < (s.rpcc.threads t).rank) ∧
          (a.caller ≠ some t → (s.rpcc.next e a).threads t = s.rpcc.threads t) := by
  have hdone : (s.rpcc.callers t).done = true := by
    rcases h.fails with hd | ⟨l, hm, _⟩
    · exact hd.1
    · rw [hm] at hpc
      cases hpc
  refine ⟨?_, fun a hg => ⟨fun ha => ?_, fun ha => (Rpcc.keeps_next hg.1 h.inCall ha).thread⟩⟩
  · have hcall := h.inCall
    cases hth : s.rpcc.threads t with
    | idle | binding => exact absurd (by rw [hth]; rfl) hcall
    | transmit f => exact ⟨.getRefconn t f none, rfl, ⟨hth, fun _ => rfl⟩, fun hl => by cases hl⟩
    | send f c => exact ⟨.tx t f c false, rfl, ⟨hth, fun hok => by cases hok⟩, fun hl => by cases hl⟩
    | waiting f => exact ⟨.woken t f, rfl, ⟨hth, hdone⟩, fun hl => by cases hl⟩
    | lost f => exact ⟨.isdead t f, rfl, hth, fun hl => by cases hl⟩
    | leaving f => exact ⟨.leave t f, rfl, hth, fun _ => hpc⟩
    | returning f => exact ⟨.ret t f _, rfl, ⟨hth, rfl⟩, fun hl => by cases hl⟩
  · cases Rpcc.callerStep (e := e) hg.1 ha with
    | goes _ _ hr _ _ => exact hr hdone
    | leaves hth hth' _ => rw [hth, hth']; exact Nat.lt_succ_self 1
    | returns hth _ hr => rw [hth, hr]; exact Nat.one_pos

/-! ## Calls are refused -/

/-- Any call that has `m_` next is refused. -/
def Refusing (s : Cancelling χ) : Prop :=
  (∃ l, s.pc = .marking l ∧ s.rpcc.calls.entries ≠ []) ∨ s.rpcc.destroyWait = true

theorem Refusing.step (h : Refusing s) (hg : guard s a) : Refusing (next e s a) := by
  cases a with
  | client a =>
      have hf := stepFrame_client (e := e) hg.1
      unfold Refusing
      rw [rpcc_client]
      rcases h with ⟨l, hpc, hcalls⟩ | hd
      · left
        have hh : s.pc.holds = true := by rw [hpc]; rfl
        refine ⟨l, (signal_holds { s with rpcc := s.rpcc.next e a } a hh).trans hpc, ?_⟩
        rcases hf.calls with hc | ⟨_, _, _, rfl, _⟩ | ⟨_, _, rfl, _⟩
        · rw [hc]
          exact hcalls
        · exact absurd (hg.2 rfl) (by simp [hh])
        · exact absurd (hg.2 rfl) (by simp [hh])
      · exact .inr (hf.flag.trans hd)
  | cancel =>
      rcases h with ⟨l, hpc, _⟩ | hd
      · cases (hg : s.pc = .out).symm.trans hpc
      · exact .inr hd
  | mark =>
      obtain ⟨t', l, hpc⟩ := hg
      simp only [next, mark, hpc]
      rcases h with ⟨_, _, hcalls⟩ | hd
      · exact .inl ⟨l, rfl, hcalls⟩
      · exact .inr hd
  | check =>
      simp only [next, check]
      split
      · exact .inr rfl
      · rename_i hlen
        rcases h with ⟨_, _, hcalls⟩ | hd
        · exact absurd (List.length_pos_iff.mpr hcalls) hlen
        · exact .inr hd
  | spurious =>
      obtain ⟨w, hpc⟩ := hg
      rcases h with ⟨l, hpc', _⟩ | hd
      · cases hpc.symm.trans hpc'
      · exact .inr hd

theorem next_call1 {proc : UInt32} {args : Bytes} {r : Int32} (h : s.rpcc.refusal proc = some r) :
    next e s (.client (.call1 t proc args)) = s := by
  have hr : s.rpcc.refuses proc = true := by rw [Rpcc.refuses_eq, h]; rfl
  simp only [next, Rpcc.next, Rpcc.call1, hr, if_true, signal]

theorem destroyWait_of_run {tr : List (Act χ)} (h : (lts e).Run tr s) (hpc : s.pc = .out) :
    s.rpcc.destroyWait = false := by
  revert hpc
  refine Lts.Run.invariant (I := fun _ s => s.pc = .out → s.rpcc.destroyWait = false) ?_ ?_ h
  · rintro _ rfl _
    rfl
  · intro _ s a _ hi hg hpc
    cases a with
    | client a =>
        have hout : s.pc = .out := by
          rcases signal_pc ({ s with rpcc := s.rpcc.next e a }) a with hp | ⟨t, f, rfl, _, hp⟩
          · exact hp.symm.trans hpc
          · have hw : wake s.pc = .out := hp.symm.trans hpc
            cases hs : s.pc <;> rw [hs] at hw <;> first | rfl | cases hw
        show (next e s (.client a)).rpcc.destroyWait = false
        rw [rpcc_client]
        exact (stepFrame_client hg.1).flag.trans (hi hout)
    | cancel => cases hpc
    | mark =>
        obtain ⟨t', l, hm⟩ := hg
        simp only [lts, next, mark, hm] at hpc
        cases hpc
    | check =>
        simp only [lts, next, check] at hpc
        split at hpc <;> cases hpc
    | spurious => cases hpc

/-- Only finitely many threads have ever called. -/
theorem exists_idle {tr : List (Act χ)} (h : (lts e).Run tr s) : ∃ t, s.rpcc.threads t = .idle := by
  have hfin : ∃ n, ∀ t ≥ n, s.rpcc.threads t = .idle := by
    refine Lts.Run.invariant (I := fun _ s => ∃ n, ∀ t ≥ n, s.rpcc.threads t = .idle) ?_ ?_ h
    · rintro _ rfl
      exact ⟨0, fun _ _ => rfl⟩
    · rintro _ s a _ ⟨n, hn⟩ hg
      cases a with
      | client a =>
          show ∃ n, ∀ t ≥ n, (next e s (.client a)).rpcc.threads t = .idle
          rw [rpcc_client]
          rcases (stepFrame_client hg.1).threads with hth | ⟨t', p, hth⟩
          · exact ⟨n, fun t ht => by rw [hth]; exact hn t ht⟩
          · refine ⟨max n (t' + 1), fun t ht => ?_⟩
            have hne : t ≠ t' := Nat.ne_of_gt (lt_of_lt_of_le (Nat.lt_succ_self t') (le_of_max_le_right ht))
            rw [hth, Function.update_of_ne hne]
            exact hn t (le_of_max_le_left ht)
      | cancel | spurious => exact ⟨n, hn⟩
      | mark =>
          obtain ⟨t', l, hpc⟩ := hg
          simp only [lts, next, mark, hpc]
          exact ⟨n, hn⟩
      | check =>
          simp only [lts, next, check]
          split <;> exact ⟨n, hn⟩
  obtain ⟨n, hn⟩ := hfin
  exact ⟨n, hn n le_rfl⟩

/-! ## The whole of it -/

/-- The call of the thread is in `calls_`. -/
def InCalls (s : Cancelling χ) (t : Tid) : Prop := ∃ x, s.rpcc.calls.lookup x = some t

/-- `cancel` took `m_` in the state `s`, and after the actions `late`, newest first, the state is `s'`. -/
structure Cancels (e : Rpcc.Env) (s : Cancelling χ) (late : List (Act χ)) (s' : Cancelling χ) : Prop where
  /-- A call that was registered returns `cancel_failure`. -/
  fails : ∀ t, s.InCalls t → ∀ f r late₀, late = .client (.ret t f r) :: late₀ →
    (∀ f r, .client (.ret t f r) ∉ late₀) → r = RpcConst.cancelFailure
  /-- It returns: once the callers are marked its thread can go on, and does so a few times at most. -/
  returns : ∀ t, s.InCalls t → (∀ f r, .client (.ret t f r) ∉ late) → s'.pc.holds = false →
    (∃ a : Rpcc.Act χ, a.caller = some t ∧ guard s' (.client a)) ∧
      ∀ a : Rpcc.Act χ, guard s' (.client a) →
        (a.caller = some t → ((s'.rpcc.next e a).threads t).rank < (s'.rpcc.threads t).rank) ∧
          (a.caller ≠ some t → (s'.rpcc.next e a).threads t = s'.rpcc.threads t)
  /-- When `cancel` returns there is no call. -/
  emptied : ∀ late₀, late = .check :: late₀ → s'.pc = .returned → s'.rpcc.calls.entries = []
  /-- While it waits, and no signal is pending, there is one. -/
  waits : s'.pc = .waiting false → s'.rpcc.calls.entries ≠ []
  /-- A call that takes `m_` now is not registered, and fails. -/
  refused : ∀ t proc args, guard s' (.client (.call1 t proc args)) →
    next e s' (.client (.call1 t proc args)) = s' ∧
      (s'.rpcc.refusal proc = some RpcConst.cancelFailure ∨ s'.rpcc.refusal proc = some RpcConst.bindFailure)

theorem doomed_of_run {tr late : List (Act χ)} {s' : Cancelling χ} (h : (lts e).Run tr s)
    (h' : (lts e).Run (late ++ .cancel :: tr) s') (ht : s.InCalls t)
    (hret : ∀ f r, .client (.ret t f r) ∉ late) : Doomed t s' := by
  revert hret
  refine Lts.Run.since (I := fun late s' => (∀ f r, .client (.ret t f r) ∉ late) → Doomed t s') ?_ ?_ h'
  · intro s₁ h₁ _
    obtain ⟨_, rfl⟩ := h.step_of_cons (by rintro s s' rfl rfl; rfl) h₁
    obtain ⟨x, hx⟩ := ht
    have hact := (registered_of_run h x t hx).1
    refine ⟨Rpcc.inCall_of_active hact, .inr ⟨_, rfl, ?_, hact⟩⟩
    exact List.mem_map.mpr ⟨⟨x, t⟩, AList.mem_lookup_iff.mp hx, rfl⟩
  · intro late s₀ a _ hi hg hret
    refine (hi fun f r hm => hret f r (List.mem_cons_of_mem _ hm)).step hg fun f r heq => ?_
    exact hret f r (heq ▸ List.mem_cons_self)

theorem refusing_of_run {tr late : List (Act χ)} {s' : Cancelling χ} (h : (lts e).Run tr s)
    (hcalls : s.rpcc.calls.entries ≠ []) (h' : (lts e).Run (late ++ .cancel :: tr) s') : Refusing s' := by
  refine Lts.Run.since (I := fun _ s' => Refusing s') ?_ (fun _ _ _ _ hi hg => hi.step hg) h'
  intro s₁ h₁
  obtain ⟨_, rfl⟩ := h.step_of_cons (by rintro s s' rfl rfl; rfl) h₁
  exact .inl ⟨_, rfl, hcalls⟩

/-- What a cancel promises holds whatever comes after, if and only if it finds a call in `calls_`. -/
theorem cancels_iff {tr : List (Act χ)} (h : (lts e).Run tr s) (hpc : s.pc = .out) :
    (∀ late s', (lts e).Run (late ++ .cancel :: tr) s' → Cancels e s late s') ↔
      s.rpcc.calls.entries ≠ [] := by
  constructor
  · intro hall hempty
    obtain ⟨t, ht⟩ := exists_idle h
    obtain ⟨proc, hproc⟩ := Rpcc.exists_refusal_none (destroyWait_of_run h hpc)
    have h₁ : (lts e).Run (.cancel :: tr) ⟨s.rpcc, .marking []⟩ := by
      have h₁ := Lts.Run.step h (show (lts e).guard s .cancel from hpc)
      simpa only [lts, next, hempty, List.map_nil] using h₁
    have h₂ : (lts e).Run (.check :: .cancel :: tr) ⟨s.rpcc, .returned⟩ := by
      have h₂ := Lts.Run.step h₁ (show (lts e).guard _ .check from .inl rfl)
      simpa only [lts, next, check, hempty, List.length_nil, lt_irrefl, if_false] using h₂
    have hr := ((hall [.check] _ h₂).refused t proc [] ⟨ht, fun _ => rfl⟩).2
    rw [hproc] at hr
    rcases hr with hr | hr <;> cases hr
  · intro hcalls late s' h'
    refine ⟨?_, ?_, ?_, (awaits_of_run h').calls, ?_⟩
    · rintro t ht f r late₀ rfl hret
      obtain ⟨s₀, h₀, hg, rfl⟩ := h'.uncons
      exact (doomed_of_run h h₀ ht hret).result hg
    · exact fun t ht hret hh => (doomed_of_run h h' ht hret).returns hh
    · rintro late₀ rfl hp
      obtain ⟨s₀, h₀, hg, rfl⟩ := h'.uncons
      simp only [lts, next, check] at hp ⊢
      split at hp
      · cases hp
      · rename_i hlen
        rw [if_neg hlen]
        exact List.length_eq_zero_iff.mp (Nat.eq_zero_of_not_pos hlen)
    · intro t proc args hg
      have hd : s'.rpcc.destroyWait = true := by
        rcases refusing_of_run h hcalls h' with ⟨l, hpc', _⟩ | hd
        · exact absurd (hg.2 rfl) (by rw [hpc']; simp [CancelPc.holds])
        · exact hd
      have hr := Rpcc.refusal_of_destroyWait hd proc
      refine ⟨?_, hr⟩
      rcases hr with hr | hr
      · exact next_call1 hr
      · exact next_call1 hr

/-- `cancel` finds two calls. The first returns `cancel_failure` while it waits for the second. -/
theorem cancels_iff_one : ∃ (tr late : List (Act Unit)) (s s' : Cancelling Unit) (f : Call Unit) (r : Int32),
    (lts ⟨1, true⟩).Run tr s ∧ s.rpcc.calls.entries.length = 2 ∧
      (lts ⟨1, true⟩).Run ((.client (.ret 0 f r) :: late) ++ .cancel :: tr) s' ∧
      r = RpcConst.cancelFailure ∧ s'.pc = .waiting true ∧ s'.rpcc.calls.lookup 2 = some 1 := by
  have h0 : (lts ⟨1, true⟩).Run [] (init : Cancelling Unit) := .init rfl
  have h1 : (lts ⟨1, true⟩).Run [.client (.call1 0 RpcConst.bind [])] _ := .step h0 ⟨rfl, fun _ => rfl⟩
  have h2 : (lts ⟨1, true⟩).Run [.client (.call1 1 RpcConst.bind []), _] _ := .step h1 ⟨rfl, fun _ => rfl⟩
  have h3 : (lts ⟨1, true⟩).Run [.cancel, _, _] _ := .step h2 rfl
  have h4 : (lts ⟨1, true⟩).Run [.mark, .mark, .cancel, _, _] _ := .step (.step h3 ⟨1, [0], rfl⟩) ⟨0, [], rfl⟩
  have h5 : (lts ⟨1, true⟩).Run [.check, .mark, .mark, .cancel, _, _] _ := .step h4 (.inl rfl)
  have h6 : (lts ⟨1, true⟩).Run
      ([.client (.leave 0 _), .client (.woken 0 _), .client (.getRefconn 0 _ none), .check, .mark, .mark] ++
        .cancel :: [_, _]) _ :=
    .step (.step (.step h5 ⟨⟨rfl, fun _ => rfl⟩, fun _ => rfl⟩) ⟨⟨rfl, rfl⟩, fun _ => rfl⟩) ⟨rfl, fun _ => rfl⟩
  have h7 : (lts ⟨1, true⟩).Run
      ((.client (.ret 0 _ _) :: [.client (.leave 0 _), .client (.woken 0 _), .client (.getRefconn 0 _ none),
        .check, .mark, .mark]) ++ .cancel :: [_, _]) _ := .step h6 ⟨⟨rfl, rfl⟩, fun _ => rfl⟩
  have hc := (cancels_iff h2 rfl).mpr (by decide) _ _ h7
  have hr := hc.fails 0 ⟨1, rfl⟩ _ _ _ rfl fun f r => by simp
  exact ⟨_, _, _, _, _, _, h2, rfl, h7, hr, rfl, rfl⟩

/-- Nothing is in `calls_` when `cancel` takes `m_`, and the next call goes out. -/
theorem cancel_finds_none : ∃ (f f' : Call Unit) (s' : Cancelling Unit),
    (lts ⟨1, true⟩).Run ([.client (.tx 0 f' () true), .client (.getRefconn 0 f (some ())),
      .client (.call1 0 RpcConst.bind []), .check] ++ .cancel :: []) s' ∧
      s'.rpcc.sent = [((), f.req)] ∧
      ¬ Cancels ⟨1, true⟩ init [.client (.tx 0 f' () true), .client (.getRefconn 0 f (some ())),
        .client (.call1 0 RpcConst.bind []), .check] s' := by
  have h0 : (lts ⟨1, true⟩).Run [] (init : Cancelling Unit) := .init rfl
  have h1 : (lts ⟨1, true⟩).Run [.cancel] _ := .step h0 rfl
  have h2 : (lts ⟨1, true⟩).Run [.check, _] _ := .step h1 (.inl rfl)
  have h3 : (lts ⟨1, true⟩).Run [.client (.call1 0 RpcConst.bind []), _, _] _ :=
    .step h2 ⟨rfl, fun _ => rfl⟩
  have h4 : (lts ⟨1, true⟩).Run [.client (.getRefconn 0 _ (some ())), _, _, _] _ :=
    .step h3 ⟨⟨rfl, fun h => by cases h⟩, fun _ => rfl⟩
  have h5 : (lts ⟨1, true⟩).Run [.client (.tx 0 _ () true), _, _, _, _] _ :=
    .step h4 ⟨⟨rfl, fun _ => by decide⟩, fun _ => rfl⟩
  refine ⟨_, _, _, h5, rfl, fun hc => ?_⟩
  rcases (hc.refused 1 RpcConst.bind [] ⟨rfl, fun _ => rfl⟩).2 with hr | hr
  · cases hr
  · cases hr

end Cancelling
end StanDfs
