import Mathlib.Data.Finset.Card
import StanDfs.Connection.PollMgr

/-!
# Senders on a dead connection

`write_cb` and `read_cb` signal `send_complete_` when they find the connection dead; `closeconn` does
not. A thread waiting on `send_wait_` is woken by the thread whose buffer is in `wpdu_`, when its
`send` returns.
-/

namespace StanDfs

/-- The thread is in the wait on `send_wait_`. -/
def SendPc.Waiting (p : SendPc) : Prop := ∃ b w, p = .waiting b w

namespace Sender

/-- Every thread that waits on a dead connection is looked after, apart from the thread `o`, which is
about to leave its wait: `waiters_` counts those on `send_wait_`, a thread there without a wakeup has
another one's buffer before it, and the owner of that buffer is not left on `send_complete_`. -/
structure Attended (s : Sender) (o : Option Tid) : Prop where
  counted : ∃ W : Finset Tid,
    (∀ t, t ∈ W ↔ some t ≠ o ∧ (s.threads t).Waiting) ∧ W.card = s.waiters
  owned : ∀ t b, some t ≠ o → s.threads t = .waiting b false → ∃ t', (s.threads t').Owner
  signalled : s.dead = true → ∀ t b, s.threads t ≠ .completing b false

/-- The waits end only by a wakeup, and no `closeconn` kills the connection under a sender that waits
on `send_complete_` without one. -/
def ClosesWoken (s : Sender) : Act → Prop
  | .closeconn => s.dead = false → ∀ t b, s.threads t ≠ .completing b false
  | .spurious _ => False
  | _ => True

theorem setThread_self (s : Sender) (t : Tid) (p : SendPc) : (s.setThread t p).threads t = p := by
  simp [setThread]

theorem setThread_of_ne (s : Sender) {t t' : Tid} (p : SendPc) (h : t' ≠ t) :
    (s.setThread t p).threads t' = s.threads t' := by
  simp [setThread, h]

theorem Attended.but {s : Sender} {t : Tid} (h : s.Attended none) (ht : ¬ (s.threads t).Waiting) :
    s.Attended (some t) := by
  obtain ⟨⟨W, hW, hcard⟩, howned, hsig⟩ := h
  refine ⟨⟨W, fun t' => ?_, hcard⟩, fun t' b _ => howned t' b (by simp), hsig⟩
  rw [hW t']
  constructor
  · rintro ⟨_, hw⟩
    refine ⟨?_, hw⟩
    rintro ⟨⟩
    exact ht hw
  · rintro ⟨_, hw⟩
    exact ⟨by simp, hw⟩

theorem Attended.leave {s : Sender} {t : Tid} (h : s.Attended none) (ht : (s.threads t).Waiting) :
    ({ s with waiters := s.waiters - 1 } : Sender).Attended (some t) := by
  obtain ⟨⟨W, hW, hcard⟩, howned, hsig⟩ := h
  have hmem : t ∈ W := (hW t).mpr ⟨by simp, ht⟩
  refine ⟨⟨W.erase t, fun t' => ?_, by rw [Finset.card_erase_of_mem hmem, hcard]⟩,
    fun t' b _ => howned t' b (by simp), hsig⟩
  rw [Finset.mem_erase, hW t']
  constructor
  · rintro ⟨hne, _, hw⟩
    exact ⟨by simpa using hne, hw⟩
  · rintro ⟨hne, hw⟩
    exact ⟨by simpa using hne, by simp, hw⟩

theorem Attended.enter {s : Sender} {t : Tid} {b : Pdu} (h : s.Attended (some t))
    (hd : s.dead = false) (hown : ∃ t', t' ≠ t ∧ (s.threads t').Owner) :
    ({ s.setThread t (.waiting b false) with waiters := s.waiters + 1 } : Sender).Attended none := by
  obtain ⟨⟨W, hW, hcard⟩, _, _⟩ := h
  have hmem : t ∉ W := fun hm => ((hW t).mp hm).1 rfl
  obtain ⟨t₀, hne, hown⟩ := hown
  refine ⟨⟨insert t W, fun t' => ?_, by rw [Finset.card_insert_of_notMem hmem, hcard]⟩, ?_, ?_⟩
  · rw [Finset.mem_insert, hW t']
    by_cases ht : t' = t
    · subst ht
      simp [setThread, SendPc.Waiting]
    · simp [setThread, ht]
  · intro _ _ _ _
    exact ⟨t₀, by simpa [setThread, Function.update_of_ne hne] using hown⟩
  · intro hd'
    exact absurd (hd.symm.trans hd') (by simp)

theorem Attended.wait {s : Sender} {t : Tid} {p : SendPc} (h : s.Attended none) (hd : s.dead = false)
    (hp : p.Waiting ↔ (s.threads t).Waiting) (hown : ∃ t', ((s.setThread t p).threads t').Owner) :
    (s.setThread t p).Attended none := by
  obtain ⟨W, hW, hcard⟩ := h.counted
  refine ⟨⟨W, fun t' => ?_, hcard⟩, fun _ _ _ _ => hown, fun hd' => absurd (hd.symm.trans hd') (by simp)⟩
  rw [hW t']
  by_cases ht : t' = t
  · rw [ht, setThread_self, hp]
  · rw [setThread_of_ne s p ht]

/-! ## The critical sections of `send` -/

theorem finish_threads_self (s : Sender) (t : Tid) (b : Pdu) : (s.finish t b).threads t = .idle := by
  simp only [finish]
  split <;> simp [setThread]

theorem finish_threads_of_ne (s : Sender) {t t' : Tid} (b : Pdu) (h : t' ≠ t) :
    (s.finish t b).threads t' = if s.waiters > 0 then s.broadcastWait.threads t' else s.threads t' := by
  simp only [finish]
  split <;> simp [setThread, Function.update_of_ne h, broadcastWait]

theorem finish_waiters (s : Sender) (t : Tid) (b : Pdu) : (s.finish t b).waiters = s.waiters := by
  simp only [finish]
  split <;> rfl

theorem broadcastWait_waiting (s : Sender) (t : Tid) :
    (s.broadcastWait.threads t).Waiting ↔ (s.threads t).Waiting := by
  simp only [broadcastWait, SendPc.Waiting]
  split <;> simp_all

theorem Attended.finish_woken {s : Sender} {t : Tid} (h : s.Attended (some t)) (b : Pdu) {t' : Tid}
    (hne : t' ≠ t) {b' : Pdu} {w : Bool} (hw : s.threads t' = .waiting b' w) :
    (s.finish t b).threads t' = .waiting b' true := by
  obtain ⟨W, hW, hcard⟩ := h.counted
  have hmem : t' ∈ W := (hW t').mpr ⟨by simpa using hne, _, _, hw⟩
  have hpos : s.waiters > 0 := hcard ▸ Finset.card_pos.mpr ⟨t', hmem⟩
  rw [finish_threads_of_ne s b hne, if_pos hpos]
  simp [broadcastWait, hw]

theorem finish_waiting {s : Sender} {t t' : Tid} (b : Pdu) (hne : t' ≠ t) :
    ((s.finish t b).threads t').Waiting ↔ (s.threads t').Waiting := by
  rw [finish_threads_of_ne s b hne]
  split
  · exact broadcastWait_waiting s t'
  · rfl

theorem Attended.finish {s : Sender} {t : Tid} (h : s.Attended (some t)) (b : Pdu) :
    (s.finish t b).Attended none := by
  obtain ⟨W, hW, hcard⟩ := h.counted
  refine ⟨⟨W, fun t' => ?_, hcard.trans (finish_waiters s t b).symm⟩, ?_, ?_⟩
  · rw [hW t']
    by_cases ht : t' = t
    · subst ht
      simp [finish_threads_self, SendPc.Waiting]
    · simp [finish_waiting b ht, ht]
  · intro t' b' _ hw
    by_cases ht : t' = t
    · rw [ht, finish_threads_self] at hw
      cases hw
    · obtain ⟨b'', w, hw'⟩ := (finish_waiting b ht).mp ⟨_, _, hw⟩
      have := hw.symm.trans (h.finish_woken b ht hw')
      cases this
  · intro hd t' b' hp
    rw [finish_dead] at hd
    by_cases ht : t' = t
    · rw [ht, finish_threads_self] at hp
      cases hp
    · rw [finish_threads_of_ne s b ht] at hp
      split at hp
      · simp only [broadcastWait] at hp
        split at hp
        · cases hp
        · exact h.signalled hd _ _ hp
      · exact h.signalled hd _ _ hp

/-- Where a thread is moved that is not counted, the others are looked after as before. -/
theorem Attended.move {s : Sender} {t : Tid} {p : SendPc} (h : s.Attended (some t))
    (hp : ¬ p.Waiting) (hown : ¬ (s.threads t).Owner) (hsig : s.dead = true → ∀ b, p ≠ .completing b false) :
    (s.setThread t p).Attended none := by
  obtain ⟨⟨W, hW, hcard⟩, howned, hsig'⟩ := h
  refine ⟨⟨W, fun t' => ?_, hcard⟩, ?_, ?_⟩
  · rw [hW t']
    by_cases ht : t' = t
    · subst ht
      simp [setThread, hp]
    · simp [setThread, ht]
  · intro t' b' _ hw
    by_cases ht : t' = t
    · subst ht
      exact absurd ⟨b', false, by simpa [setThread] using hw⟩ hp
    · rw [setThread_of_ne s p ht] at hw
      obtain ⟨t₀, h₀⟩ := howned t' b' (by simpa using ht) hw
      have hne : t₀ ≠ t := by
        rintro rfl
        exact hown h₀
      exact ⟨t₀, by rwa [setThread_of_ne s p hne]⟩
  · intro hd t' b' hw
    by_cases ht : t' = t
    · subst ht
      exact hsig hd b' (by simpa [setThread] using hw)
    · rw [setThread_of_ne s p ht] at hw
      exact hsig' hd t' b' hw

theorem Attended.begin {s : Sender} {t : Tid} (h : s.Attended (some t))
    (hno : s.dead = false → ∀ t', ¬ (s.threads t').Owner) (ht : ¬ (s.threads t).Owner) (b : Pdu)
    (r : WriteResult) : (s.begin t b r).Attended none := by
  cases hd : s.dead with
  | true =>
      simp only [Sender.begin, hd, ↓reduceIte]
      exact h.move (by simp [SendPc.Waiting]) ht (by simp)
  | false =>
      simp only [Sender.begin, hd, Bool.false_eq_true, ↓reduceIte]
      -- What `begin` puts into `wpdu_` and on the stream does not matter here.
      have hs : ∀ w o st, ({ s with dead := false, wpdu := w, out := o, started := st } : Sender).Attended
          (some t) := fun _ _ _ => ⟨h.counted, h.owned, by simp⟩
      split
      · have h' := (hs (writepdu b.1 b.1.length 0 r).2.1 (s.out ++ (writepdu b.1 b.1.length 0 r).2.2)
          (s.started ++ [b])).move (p := .removing b) (by simp [SendPc.Waiting]) ht (by simp)
        refine ⟨h'.counted, h'.owned, ?_⟩
        intro _ t' b' hp
        by_cases hne : t' = t
        · simp [hne, setThread] at hp
        · apply hno hd t'
          have hp' : s.threads t' = .completing b' false := by simpa [setThread, hne] using hp
          rw [hp']
          trivial
      · split
        · exact (hs _ _ _).finish b
        · exact (hs _ _ _).move (p := .completing b false) (by simp [SendPc.Waiting]) ht (by simp)

theorem owner_of_mustWait {s : Sender} (h : s.Inv) (hm : s.mustWait = true) :
    ∃ t, (s.threads t).Owner := by
  simp only [mustWait, Bool.and_eq_true, Bool.not_eq_eq_eq_not, Bool.not_true] at hm
  obtain ⟨hd, hw⟩ := hm
  cases h with
  | idle _ hw' => simp [hw', Charbuf.empty] at hw
  | busy _ _ _ _ _ _ hp _ => exact ⟨_, by rw [hp]; trivial⟩
  | down h₁ => exact absurd (hd.symm.trans h₁) (by simp)

theorem not_owner_of_not_mustWait {s : Sender} (h : s.Inv) (hm : s.mustWait = false) (hd : s.dead = false)
    (t : Tid) : ¬ (s.threads t).Owner := by
  cases h with
  | idle _ _ _ _ hown => exact hown t
  | busy _ _ _ hw => simp [mustWait, hd, hw] at hm
  | down h₁ => exact absurd (hd.symm.trans h₁) (by simp)

theorem signalComplete_waiting (s : Sender) (t : Tid) {b : Pdu} {w : Bool} :
    s.signalComplete.threads t = .waiting b w ↔ s.threads t = .waiting b w := by
  simp only [signalComplete]
  split <;> simp_all

theorem signalComplete_owner (s : Sender) (t : Tid) :
    (s.signalComplete.threads t).Owner ↔ (s.threads t).Owner := by
  simp only [signalComplete]
  split <;> simp_all [SendPc.Owner]

theorem signalComplete_completing (s : Sender) (t : Tid) (b : Pdu) :
    s.signalComplete.threads t ≠ .completing b false := by
  simp only [signalComplete]
  split
  · simp
  · rename_i hp
    exact hp b false

theorem Attended.signalComplete {s : Sender} (h : s.Attended none) : s.signalComplete.Attended none := by
  obtain ⟨⟨W, hW, hcard⟩, howned, _⟩ := h
  refine ⟨⟨W, fun t => ?_, hcard⟩, ?_, fun _ => signalComplete_completing s⟩
  · simp only [hW t, SendPc.Waiting, signalComplete_waiting]
  · intro t b hn hw
    obtain ⟨t', ht'⟩ := howned t b hn ((signalComplete_waiting s t).mp hw)
    exact ⟨t', (signalComplete_owner s t').mpr ht'⟩

theorem Attended.die {s : Sender} (h : s.Attended none) (hsig : ∀ t b, s.threads t ≠ .completing b false) :
    ({ s with dead := true } : Sender).Attended none :=
  ⟨h.counted, h.owned, fun _ => hsig⟩

theorem Attended.step {s : Sender} {a : Act} (h : s.Attended none) (hi : s.Inv) (hg : s.guard a)
    (hc : s.ClosesWoken a) : (s.next a).Attended none := by
  cases a with
  | send t b r =>
      have ht : s.threads t = .idle := hg.2
      have hbut := h.but (t := t) (by simp [ht, SendPc.Waiting])
      simp only [next]
      split
      · rename_i hm
        obtain ⟨t', ht'⟩ := owner_of_mustWait hi hm
        have hd : s.dead = false := by simp_all [mustWait]
        refine hbut.enter hd ⟨t', ?_, ht'⟩
        rintro rfl
        simp [ht, SendPc.Owner] at ht'
      · rename_i hm
        exact hbut.begin (not_owner_of_not_mustWait hi (by simpa using hm)) (by simp [ht, SendPc.Owner]) b r
  | resume t r =>
      obtain ⟨b, ht⟩ := hg.2
      have hbut := h.leave (t := t) ⟨b, true, ht⟩
      simp only [next, ht]
      split
      · rename_i hm
        obtain ⟨t', ht'⟩ := owner_of_mustWait hi hm
        have hd : s.dead = false := by simp_all [mustWait]
        refine h.wait hd (by simp [ht, SendPc.Waiting]) ⟨t', ?_⟩
        have hne : t' ≠ t := by
          rintro rfl
          simp [ht, SendPc.Owner] at ht'
        rwa [setThread_of_ne s _ hne]
      · rename_i hm
        have hno := not_owner_of_not_mustWait hi (by simpa using hm)
        exact hbut.begin hno (by simp [ht, SendPc.Owner]) b r
  | complete t =>
      obtain ⟨b, ht⟩ := hg.2
      simp only [next, ht]
      split
      · have hd : s.dead = false := by simp_all
        refine h.wait hd (by simp [ht, SendPc.Waiting]) ⟨t, ?_⟩
        rw [setThread_self]
        trivial
      · exact (h.but (t := t) (by simp [ht, SendPc.Waiting])).finish b
  | removed t =>
      obtain ⟨b, ht⟩ := hg.2
      simp only [next, ht]
      exact (h.but (t := t) (by simp [ht, SendPc.Waiting])).finish b
  | writeCb r =>
      have hs : ∀ w o, ({ s with wpdu := w, out := o } : Sender).Attended none :=
        fun _ _ => ⟨h.counted, h.owned, h.signalled⟩
      simp only [next]
      split
      · exact ⟨h.counted, h.owned, h.signalled⟩
      · split
        · exact h
        · split
          · exact ⟨h.counted, h.owned, h.signalled⟩
          · split
            · exact (hs _ _).signalComplete.die (signalComplete_completing _)
            · split
              · exact hs _ _
              · exact (hs _ _).signalComplete
  | closeconn =>
      refine h.die fun t b => ?_
      cases hd : s.dead with
      | true => exact h.signalled hd t b
      | false => exact hc hd t b
  | readFailed => exact h.signalComplete.die (signalComplete_completing s)
  | spurious t => exact absurd hc id

theorem attended_of_run {tr : List Act} {s : Sender} (h : (lts.restrict ClosesWoken).Run tr s) :
    s.Attended none := by
  refine h.invariant (I := fun _ s => s.Attended none) ?_ ?_
  · rintro s rfl
    exact ⟨⟨∅, by simp [init, SendPc.Waiting], rfl⟩, by simp [init], by simp [init]⟩
  · intro tr s a hr hs hg
    exact hs.step (inv_of_run hr.of_restrict) hg.1 hg.2

end Sender

namespace Polled

/-- The condition waits of the action end only by a wakeup. -/
def Signalled : Act → Prop
  | .spurious _ => False
  | .spuriousRemove _ => False
  | _ => True

/-- A `closeconn` that kills the connection finds no sender on `send_complete_` without a wakeup. -/
def ClosesWoken (s : Polled) : Act → Prop
  | .closeconn _ => s.conn.dead = false → ∀ t b, s.conn.threads t ≠ .completing b false
  | _ => True

/-- The thread's `send` owns `wpdu_` and is not blocked for good: it has been woken on
`send_complete_`, or is in `block_remove_fd`, whose wait the poll loop is about to end. -/
def Running (s : Polled) (t : Tid) : Prop :=
  (∃ b, s.conn.threads t = .completing b true) ∨
    (∃ b, s.conn.threads t = .removing b) ∧ (s.removals t = .blocked false → s.pendingChange = true)

/-- No sender is stranded: on a dead connection every wait on `send_complete_` has its wakeup, and so
has every one on `send_wait_`, unless a running `send` is going to wake it before it returns. -/
def NoneStranded (s : Polled) : Prop :=
  s.conn.dead = true → ∀ t,
    (∀ b, s.conn.threads t ≠ .completing b false) ∧
    ∀ b, s.conn.threads t = .waiting b false →
      ∃ t', s.Running t' ∧ ∀ b', (s.conn.finish t' b').threads t = .waiting b true

theorem sender_closesWoken {s : Polled} {a : Act} {b : Sender.Act} (hc : Signalled a ∧ s.ClosesWoken a)
    (hp : sending a = some b) : s.conn.ClosesWoken b := by
  cases a with
  | closeconn t =>
      cases hp
      exact hc.2
  | spurious t => exact absurd hc.1 id
  | readCb succ =>
      cases succ with
      | true => cases hp
      | false =>
          cases hp
          trivial
  | send | resume | complete | removed | writeCb =>
      cases hp
      trivial
  | _ => cases hp

/-! ## The wait in `block_remove_fd` -/

theorem blocked_of_setRemoval {s : Polled} {t t' : Tid} {p : RemovePc} (hp : p ≠ .blocked false)
    (h : (s.setRemoval t p).removals t' = .blocked false) : s.removals t' = .blocked false := by
  by_cases ht : t' = t
  · subst ht
    exact absurd (by simpa [setRemoval] using h) hp
  · simpa [setRemoval, ht] using h

theorem blocked_of_sent {s : Polled} {t t' : Tid} {c : Sender}
    (h : (s.sent t c).removals t' = .blocked false) : s.removals t' = .blocked false := by
  simp only [sent] at h
  split at h
  · exact h
  · exact blocked_of_setRemoval (by simp) h
  · exact h

theorem pendingChange_sent (s : Polled) (t : Tid) (c : Sender) :
    (s.sent t c).pendingChange = s.pendingChange := by
  simp only [sent]
  split <;> rfl

/-- A thread that waits without a wakeup waits for a pending change. -/
theorem blocked_step {s : Polled} {a : Act}
    (h : ∀ t, s.removals t = .blocked false → s.pendingChange = true) {t : Tid}
    (ht : (s.next a).removals t = .blocked false) : (s.next a).pendingChange = true := by
  cases a with
  | send t' b r => exact (pendingChange_sent s t' _).trans (h t (blocked_of_sent ht))
  | resume t' r => exact (pendingChange_sent s t' _).trans (h t (blocked_of_sent ht))
  | closeconn t' =>
      simp only [next] at ht ⊢
      split
      · rename_i hd
        rw [if_pos hd] at ht
        exact h t ht
      · rename_i hd
        rw [if_neg hd] at ht
        exact h t (blocked_of_setRemoval (by simp) ht)
  | blockRemove | removeOther => rfl
  | unblock t' => exact h t (blocked_of_setRemoval (by simp) ht)
  | spuriousRemove t' => exact h t (blocked_of_setRemoval (by simp) ht)
  | checkPending =>
      simp only [next] at ht ⊢
      split at ht
      · simp only [broadcastChange] at ht
        split at ht
        · cases ht
        · rename_i hp
          exact absurd ht (hp false)
      · rename_i hp
        exact absurd (h t ht) hp
  | complete | removed | snapshot | select | spurious => exact h t ht
  | checkRead | checkWrite =>
      simp only [next] at ht ⊢
      split at ht <;> exact h t ht
  | readCb succ =>
      simp only [next] at ht ⊢
      split at ht
      · split at ht
        all_goals
          rename_i hds
          simp only [hds, ↓reduceIte]
          exact h t ht
      · exact h t ht
  | writeCb r =>
      simp only [next] at ht ⊢
      repeat' split
      all_goals exact h t (by simp_all [delWrite, delReadWrite])

/-- The poll loop will wake a thread that waits in `block_remove_fd`. -/
theorem pendingChange_of_blocked {tr : List Act} {s : Polled} (h : lts.Run tr s) {t : Tid}
    (ht : s.removals t = .blocked false) : s.pendingChange = true := by
  refine h.invariant (I := fun _ s => ∀ t, s.removals t = .blocked false → s.pendingChange = true)
    ?_ ?_ t ht
  · intro s h₀ t ht
    exact absurd ((h₀.removals t).symm.trans ht) (by simp)
  · intro tr s a _ hs _ t ht
    exact blocked_step hs ht

/-! ## The result -/

/-- Where the waits end only by a wakeup and no `closeconn` comes in the way of a sender that is
without one on `send_complete_`, no sender is ever stranded. -/
theorem none_stranded {tr : List Act} {s : Polled}
    (h : (lts.restrict fun s a => Signalled a ∧ s.ClosesWoken a).Run tr s) : s.NoneStranded := by
  have hsend := h.component (sender_component.restrict fun s a b hc hp => sender_closesWoken hc hp)
  have hatt := Sender.attended_of_run hsend
  intro hd t
  refine ⟨hatt.signalled hd t, fun b hw => ?_⟩
  obtain ⟨t', ht'⟩ := hatt.owned t b (by simp) hw
  have hne : t ≠ t' := by
    rintro rfl
    simp [hw, SendPc.Owner] at ht'
  have hbut : s.conn.Attended (some t') := hatt.but fun hw' => by
    obtain ⟨b', w, hw'⟩ := hw'
    simp [hw', SendPc.Owner] at ht'
  refine ⟨t', ?_, fun b' => hbut.finish_woken b' hne hw⟩
  cases hp : s.conn.threads t' with
  | idle | waiting => simp [hp, SendPc.Owner] at ht'
  | completing b' w =>
      cases w with
      | true => exact .inl ⟨b', hp⟩
      | false => exact absurd hp (hatt.signalled hd t' b')
  | removing b' => exact .inr ⟨⟨b', hp⟩, pendingChange_of_blocked h.of_restrict⟩

/-! ## The sender that `closeconn` strands -/

theorem finish_completing (c : Sender) {t t' : Tid} (b : Pdu) {b' : Pdu} {w : Bool} (hne : t ≠ t')
    (hp : c.threads t = .completing b' w) : (c.finish t' b).threads t = .completing b' w := by
  rw [Sender.finish_threads_of_ne c b hne]
  split
  · simp [Sender.broadcastWait, hp]
  · exact hp

/-- On a dead connection nobody signals `send_complete_`. -/
theorem stranded_step {c : Sender} {a : Sender.Act} {t : Tid} {b : Pdu} (hd : c.dead = true)
    (hp : c.threads t = .completing b false) (hg : c.guard a) (ha : ∀ t, a ≠ .spurious t) :
    (c.next a).dead = true ∧ (c.next a).threads t = .completing b false := by
  have hm : c.mustWait = false := by simp [Sender.mustWait, hd]
  cases a with
  | send t' b' r =>
      have ht' : c.threads t' = .idle := hg.2
      have hne : t ≠ t' := by
        rintro rfl
        simp [hp] at ht'
      simp only [Sender.next, hm, Sender.begin, hd, Bool.false_eq_true, ↓reduceIte]
      exact ⟨hd, (Sender.setThread_of_ne c _ hne).trans hp⟩
  | resume t' r =>
      obtain ⟨b', ht'⟩ := hg.2
      have hne : t ≠ t' := by
        rintro rfl
        simp [hp] at ht'
      simp only [Sender.next, ht', hm, Sender.begin, hd, Bool.false_eq_true, ↓reduceIte]
      exact ⟨rfl, (Sender.setThread_of_ne _ _ hne).trans hp⟩
  | complete t' =>
      obtain ⟨b', ht'⟩ := hg.2
      have hne : t ≠ t' := by
        rintro rfl
        simp [hp] at ht'
      simp only [Sender.next, ht', hd, Bool.not_true, Bool.false_and, Bool.false_eq_true, ↓reduceIte]
      exact ⟨Sender.finish_dead.trans hd, finish_completing c b' hne hp⟩
  | removed t' =>
      obtain ⟨b', ht'⟩ := hg.2
      have hne : t ≠ t' := by
        rintro rfl
        simp [hp] at ht'
      simp only [Sender.next, ht']
      exact ⟨Sender.finish_dead.trans hd, finish_completing c b' hne hp⟩
  | writeCb r =>
      simp only [Sender.next, hd, ↓reduceIte]
      exact ⟨trivial, hp⟩
  | closeconn => exact ⟨rfl, hp⟩
  | readFailed => exact absurd (hd.symm.trans hg.2) (by simp)
  | spurious t' => exact absurd rfl (ha t')

/-- The steps that follow a state. -/
def after (s : Polled) : Lts Polled Act := { lts with init := fun s' => s' = s }

/-- A sender that is without a wakeup on `send_complete_` when the connection is dead stays there. -/
theorem stranded_for_ever {s s' : Polled} {t : Tid} {b : Pdu} (hd : s.conn.dead = true)
    (hp : s.conn.threads t = .completing b false) {late : List Act}
    (h : (s.after.restrict fun _ a => Signalled a).Run late s') :
    s'.conn.dead = true ∧ s'.conn.threads t = .completing b false := by
  refine h.invariant (I := fun _ s => s.conn.dead = true ∧ s.conn.threads t = .completing b false) ?_ ?_
  · rintro s' rfl
    exact ⟨hd, hp⟩
  · rintro tr s a _ ⟨hd, hp⟩ ⟨hg, ha⟩
    cases hs : sending a with
    | none =>
        have hn := sender_component.stays s a hg hs
        exact ⟨(congrArg Sender.dead hn).trans hd, (congrFun (congrArg Sender.threads hn) t).trans hp⟩
    | some a' =>
        obtain ⟨hg', hn⟩ := sender_component.moves s a a' hg hs
        have ha' : ∀ t, a' ≠ .spurious t := by
          rintro t' rfl
          cases a with
          | spurious => exact ha
          | readCb succ => cases succ <;> cases hs
          | _ => cases hs
        obtain ⟨hd', hp'⟩ := stranded_step hd hp hg' ha'
        exact ⟨(congrArg Sender.dead hn).trans hd', (congrFun (congrArg Sender.threads hn) t).trans hp'⟩

/-- A send has written ten bytes of 24 when another thread closes the connection. -/
theorem closeconn_strands : ∃ tr s, (lts.restrict fun _ a => Signalled a).Run tr s ∧
    ¬ s.NoneStranded ∧ ∃ b, ∀ late s', (s.after.restrict fun _ a => Signalled a).Run late s' →
      s'.conn.threads 0 = .completing b false := by
  obtain ⟨s, h, hs⟩ := Lts.run_of_exec (M := lts) (l := [.send 0 header (.wrote 10), .closeconn 1])
    (f := fun s => decide (s.conn.dead = true ∧ s.conn.threads 0 = .completing header false))
    init_fresh (by decide)
  obtain ⟨hd, hp⟩ := of_decide_eq_true hs
  refine ⟨_, s, h.restrict_of_forall (by simp [Signalled]), ?_, header, ?_⟩
  · intro hn
    exact (hn hd 0).1 header hp
  · intro late s' h'
    exact (stranded_for_ever hd hp h').2

/-- The end of the stream kills the connection under one thread that waits on `send_complete_` and one
that waits on `send_wait_`. -/
theorem none_stranded_read : ∃ tr s, (lts.restrict fun s a => Signalled a ∧ s.ClosesWoken a).Run tr s ∧
    s.conn.dead = true ∧ s.conn.threads 1 = .waiting header false ∧ s.NoneStranded := by
  obtain ⟨s, h, hs⟩ := Lts.run_of_exec (M := lts)
    (l := [.send 0 header (.wrote 10), .send 1 header (.wrote 0), .checkPending, .snapshot,
      .select true false, .checkRead, .readCb false])
    (f := fun s => decide (s.conn.dead = true ∧ s.conn.threads 1 = .waiting header false))
    init_fresh (by decide)
  obtain ⟨hd, hp⟩ := of_decide_eq_true hs
  have hr := h.restrict_of_forall (C := fun s a => Signalled a ∧ s.ClosesWoken a)
    (by simp [Signalled, ClosesWoken])
  exact ⟨_, s, hr, hd, hp, none_stranded hr⟩

end Polled
end StanDfs
