import StanDfs.Connection.PollMgr

/-!
# `write_cb` on a dead connection

`write_cb` asserts that the connection is not dead. A connection dies under the poll loop's feet when
`closeconn`, or a failed `write` in `send`, sets `dead_` while `CB_WRONLY` is still watched from an
earlier buffer, or while the round the poll loop is in still comes to the descriptor.
-/

namespace StanDfs
namespace Polled

/-- The descriptor is not watched for writing, nor to be written in the round the poll loop is in. -/
def Unwritten (s : Polled) : Prop := s.wfd = false ∧ s.poll.toWrite = false

/-- A thread that kills the connection finds it unwritten. -/
def DiesUnwritten (s : Polled) : Act → Prop
  | .closeconn _ => s.conn.dead = false → s.Unwritten
  | .send _ _ (.fail .other) => s.conn.dead = false → s.conn.mustWait = false → s.Unwritten
  | .resume _ (.fail .other) => s.conn.dead = false → s.conn.mustWait = false → s.Unwritten
  | _ => True

/-- Once the connection is dead, it is unwritten or has no callback. -/
def Shut (s : Polled) : Prop :=
  s.wfd = false ∧ (s.poll.toWrite = false ∨ s.callback = false ∧ s.poll ≠ .inWrite)

theorem Unwritten.shut {s : Polled} (h : s.Unwritten) : s.Shut := ⟨h.1, .inl h.2⟩

theorem Shut.not_inWrite {s : Polled} (h : s.Shut) : s.poll ≠ .inWrite := by
  rcases h.2 with hw | ⟨_, hw⟩
  · intro hp
    simp [hp, PollPc.toWrite] at hw
  · exact hw

/-! ## What a critical section of `send` does to the connection -/

/-- After `send` is past its first wait the connection is dead if it was, or if `write` failed. -/
theorem begin_dead {c : Sender} {t : Tid} {b : Pdu} {r : WriteResult} (hb : (c.begin t b r).dead = true) :
    (c.dead = true ∧ (c.begin t b r).threads t = .idle) ∨
      c.dead = false ∧ r = .fail .other ∧ (c.begin t b r).threads t = .removing b := by
  cases hd : c.dead with
  | true => exact .inl ⟨rfl, by simp [Sender.begin, Sender.setThread, hd]⟩
  | false =>
      have hlen : 4 ≤ b.1.length := b.2.1
      simp only [Sender.begin, hd, Bool.false_eq_true, ↓reduceIte] at hb ⊢
      rcases r with n | (_ | _)
      all_goals simp only [writepdu, show ¬ (0 : Int) = b.1.length by omega, ↓reduceIte, Bool.not_true,
        Bool.not_false, Bool.false_eq_true] at hb ⊢
      · split at hb
        · rw [Sender.finish_dead] at hb
          cases hb
        · cases hb
      · cases hb
      · exact .inr ⟨trivial, trivial, by simp [Sender.setThread]⟩

theorem dead_of_mustWait {c : Sender} (h : c.mustWait = true) : c.dead = false := by
  simp only [Sender.mustWait, Bool.and_eq_true, Bool.not_eq_eq_eq_not, Bool.not_true] at h
  exact h.1

/-- A call of `send`, or one that wakes from its first wait, waits or goes on to `begin`. -/
theorem next_entering {c : Sender} {a : Sender.Act} {t : Tid} {b : Pdu} {r : WriteResult}
    (ha : a = .send t b r ∨ a = .resume t r ∧ ∃ w, c.threads t = .waiting b w) :
    (c.mustWait = true ∧ (c.next a).dead = c.dead ∧ (c.next a).threads t = .waiting b false) ∨
      c.mustWait = false ∧ ∃ n, c.next a = { c with waiters := n }.begin t b r := by
  cases hm : c.mustWait with
  | true =>
      left
      rcases ha with rfl | ⟨rfl, w, ht⟩
      · simp [Sender.next, hm, Sender.setThread]
      · simp [Sender.next, ht, hm, Sender.setThread]
  | false =>
      right
      rcases ha with rfl | ⟨rfl, w, ht⟩
      · exact ⟨rfl, c.waiters, by simp [Sender.next, hm]⟩
      · exact ⟨rfl, c.waiters - 1, by simp [Sender.next, ht, hm]⟩

theorem entering_dead {c : Sender} {a : Sender.Act} {t : Tid} {b : Pdu} {r : WriteResult}
    (ha : a = .send t b r ∨ a = .resume t r ∧ ∃ w, c.threads t = .waiting b w)
    (h : (c.next a).dead = true) :
    (c.dead = true ∧ (c.next a).threads t = .idle) ∨
      c.dead = false ∧ c.mustWait = false ∧ r = .fail .other ∧ (c.next a).threads t = .removing b := by
  rcases next_entering ha with ⟨hm, hd, _⟩ | ⟨hm, n, hn⟩
  · rw [hd, dead_of_mustWait hm] at h
    cases h
  · rw [hn] at h ⊢
    rcases begin_dead h with h | ⟨hd, h⟩
    · exact .inl h
    · exact .inr ⟨hd, hm, h⟩

theorem next_writeCb_aborted {c : Sender} (h : c.Inv) (hd : c.dead = false) (r : WriteResult) :
    (c.next (.writeCb r)).aborted = c.aborted := by
  cases h with
  | down h₁ => exact absurd (hd.symm.trans h₁) (by simp)
  | idle _ hw => simp [Sender.next, hd, hw, Charbuf.empty]
  | busy _ _ _ hw =>
      simp only [Sender.next, hd, hw, Bool.false_eq_true, ↓reduceIte]
      repeat' split
      all_goals rfl

/-! ## The dead connection is shut -/

theorem Shut.sent {s : Polled} {t : Tid} {c : Sender} (h : s.Shut) (hc : ∀ b w, c.threads t ≠ .completing b w) :
    (s.sent t c).Shut := by
  simp only [Polled.sent]
  split
  · rename_i hp
    exact absurd hp (hc _ _)
  · exact h
  · exact h

/-- The poll loop goes on without coming nearer to `write_cb`. -/
theorem Shut.move {s : Polled} {p : PollPc} (h : s.Shut)
    (hp : p.toWrite = true → s.poll.toWrite = true) (hne : p ≠ .inWrite) :
    ({ s with poll := p } : Polled).Shut := by
  refine ⟨h.1, ?_⟩
  rcases h.2 with hw | ⟨hcb, _⟩
  · left
    cases hp' : p.toWrite with
    | false => rfl
    | true => exact absurd (hw.symm.trans (hp hp')) (by simp)
  · exact .inr ⟨hcb, hne⟩

theorem next_complete_dead (c : Sender) (t : Tid) : (c.next (.complete t)).dead = c.dead := by
  simp only [Sender.next]
  split
  · split
    · rfl
    · exact Sender.finish_dead
  · rfl

theorem next_removed_dead (c : Sender) (t : Tid) : (c.next (.removed t)).dead = c.dead := by
  simp only [Sender.next]
  split
  · exact Sender.finish_dead
  · rfl

theorem next_spurious_dead (c : Sender) (t : Tid) : (c.next (.spurious t)).dead = c.dead := by
  simp only [Sender.next]
  split <;> rfl

/-- A step keeps a dead connection shut, and one that kills it shuts it. -/
theorem shut_step {s : Polled} {a : Act} (h : s.conn.dead = true → s.Shut) (hg : s.guard a)
    (hc : s.DiesUnwritten a) (hd : (s.next a).conn.dead = true) : (s.next a).Shut := by
  obtain ⟨_, hg⟩ := hg
  cases a with
  | send t b r =>
      rw [next, conn_sent] at hd
      rcases entering_dead (.inl rfl) hd with ⟨hd', hp⟩ | ⟨hd', hm, rfl, hp⟩
      · exact (h hd').sent (by simp [hp])
      · exact (hc hd' hm).shut.sent (by simp [hp])
  | resume t r =>
      obtain ⟨b, ht⟩ := hg.2
      rw [next, conn_sent] at hd
      rcases entering_dead (.inr ⟨rfl, _, ht⟩) hd with ⟨hd', hp⟩ | ⟨hd', hm, rfl, hp⟩
      · exact (h hd').sent (by simp [hp])
      · exact (hc hd' hm).shut.sent (by simp [hp])
  | complete t => exact h ((next_complete_dead s.conn t).symm.trans hd)
  | removed t => exact h ((next_removed_dead s.conn t).symm.trans hd)
  | closeconn t =>
      simp only [next] at hd ⊢
      split
      · rename_i hd'
        exact h hd'
      · rename_i hd'
        exact (hc (by simpa using hd')).shut
  | blockRemove t => exact ⟨rfl, (h hd).2⟩
  | unblock t => exact ⟨(h hd).1, .inr ⟨rfl, (h hd).not_inWrite⟩⟩
  | removeOther => exact h hd
  | checkPending =>
      simp only [next] at hd ⊢
      split at hd
      all_goals
        rename_i hp
        simp only [hp, ↓reduceIte]
        exact (h hd).move (p := .clearing) (by simp [PollPc.toWrite]) (by simp)
  | snapshot =>
      have hw := (h hd).1
      exact (h hd).move (by simp [PollPc.toWrite, hw]) (by simp)
  | select r w =>
      obtain ⟨r', w', hp, _, hw⟩ := hg
      exact (h hd).move (by simpa [PollPc.toWrite, hp] using hw) (by simp)
  | checkRead =>
      obtain ⟨r, w, hp⟩ := hg
      simp only [next, hp] at hd ⊢
      split
      all_goals exact (h hd).move (by simp [PollPc.toWrite, hp]) (by simp)
  | readCb succ =>
      obtain ⟨⟨w, hp⟩, _⟩ := hg
      simp only [next, hp] at hd ⊢
      split
      · rename_i hds
        rw [if_pos hds] at hd
        exact (h hd).move (by simp [PollPc.toWrite, hp]) (by simp)
      · exact ⟨rfl, .inr ⟨rfl, by simp [delReadWrite]⟩⟩
  | checkWrite =>
      obtain ⟨w, hp⟩ := hg
      simp only [next, hp] at hd ⊢
      have hs := h hd
      have hwc : (w && s.callback) = false := by
        rcases hs.2 with hw | ⟨hcb, _⟩
        · simp only [hp, PollPc.toWrite] at hw
          simp [hw]
        · simp [hcb]
      rw [hwc, if_neg (by simp)]
      exact hs.move (by simp [PollPc.toWrite]) (by simp)
  | writeCb r =>
      cases hd' : s.conn.dead with
      | true => exact absurd hg (h hd').not_inWrite
      | false =>
          rw [conn_writeCb] at hd
          simp only [next, hd', hd, Bool.false_eq_true, ↓reduceIte]
          split
          · rename_i hz
            simp [Sender.next, hd', hz] at hd
          · exact ⟨rfl, .inl rfl⟩
  | spurious t => exact h ((next_spurious_dead s.conn t).symm.trans hd)
  | spuriousRemove t => exact h hd

theorem shut_of_run {tr : List Act} {s : Polled} (h : (lts.restrict DiesUnwritten).Run tr s) :
    s.conn.dead = true → s.Shut := by
  refine h.invariant (I := fun _ s => s.conn.dead = true → s.Shut) ?_ ?_
  · intro s h₀ hd
    rw [h₀.conn] at hd
    cases hd
  · intro tr s a _ hs hg
    exact shut_step hs hg.1 hg.2

/-! ## A live connection keeps its callback -/

/-- While the connection is alive it is watched for reading, and nobody removes its descriptor. -/
structure Kept (s : Polled) : Prop where
  rfd : s.rfd = true
  callback : s.callback = true
  removals : ∀ t, s.removals t = .out

theorem Kept.sent {s : Polled} {t : Tid} {c : Sender} (h : s.Kept) (hc : ∀ b, c.threads t ≠ .removing b) :
    (s.sent t c).Kept := by
  simp only [Polled.sent]
  split
  · exact ⟨h.rfd, rfl, h.removals⟩
  · rename_i hp
    exact absurd hp (hc _)
  · exact ⟨h.rfd, h.callback, h.removals⟩

theorem begin_live {c : Sender} {t : Tid} {b : Pdu} {r : WriteResult} (hd : (c.begin t b r).dead = false) :
    c.dead = false ∧ ∀ b', (c.begin t b r).threads t ≠ .removing b' := by
  cases hdc : c.dead with
  | true => simp [Sender.begin, Sender.setThread, hdc] at hd
  | false =>
      refine ⟨rfl, fun b' hp => ?_⟩
      simp only [Sender.begin, hdc, Bool.false_eq_true, ↓reduceIte] at hd hp
      split at hd
      · cases hd
      · rename_i hsucc
        rw [if_neg hsucc] at hp
        split at hp
        · simp only [Sender.finish] at hp
          split at hp <;> simp [Sender.setThread] at hp
        · simp [Sender.setThread] at hp

theorem entering_live {c : Sender} {a : Sender.Act} {t : Tid} {b : Pdu} {r : WriteResult}
    (ha : a = .send t b r ∨ a = .resume t r ∧ ∃ w, c.threads t = .waiting b w)
    (hd : (c.next a).dead = false) : c.dead = false ∧ ∀ b', (c.next a).threads t ≠ .removing b' := by
  rcases next_entering ha with ⟨_, hd', ht⟩ | ⟨_, n, hn⟩
  · exact ⟨hd'.symm.trans hd, by simp [ht]⟩
  · rw [hn] at hd ⊢
    exact begin_live hd

theorem dead_of_writeCb {c : Sender} {r : WriteResult} (h : (c.next (.writeCb r)).dead = false) :
    c.dead = false := by
  cases hd : c.dead with
  | false => rfl
  | true => simp [Sender.next, hd] at h

theorem Kept.step {s : Polled} {a : Act} (h : s.conn.dead = false → s.Kept) (hg : s.guard a)
    (hd : (s.next a).conn.dead = false) : (s.next a).Kept := by
  obtain ⟨_, hg⟩ := hg
  cases a with
  | send t b r =>
      rw [next, conn_sent] at hd
      obtain ⟨hd', hp⟩ := entering_live (.inl rfl) hd
      exact (h hd').sent hp
  | resume t r =>
      obtain ⟨b, ht⟩ := hg.2
      rw [next, conn_sent] at hd
      obtain ⟨hd', hp⟩ := entering_live (.inr ⟨rfl, _, ht⟩) hd
      exact (h hd').sent hp
  | complete t =>
      obtain ⟨hr, hcb, hrem⟩ := h ((next_complete_dead s.conn t).symm.trans hd)
      exact ⟨hr, hcb, hrem⟩
  | removed t =>
      obtain ⟨hr, hcb, hrem⟩ := h ((next_removed_dead s.conn t).symm.trans hd)
      exact ⟨hr, hcb, hrem⟩
  | closeconn t =>
      simp only [next] at hd
      split at hd
      · rename_i hd'
        exact absurd (hd.symm.trans hd') (by simp)
      · cases hd
  | blockRemove t => exact absurd (((h hd).removals t).symm.trans hg) (by simp)
  | unblock t => exact absurd (((h hd).removals t).symm.trans hg) (by simp)
  | removeOther =>
      obtain ⟨hr, hcb, hrem⟩ := h hd
      exact ⟨hr, hcb, hrem⟩
  | checkPending =>
      simp only [next] at hd ⊢
      split at hd
      all_goals
        rename_i hp
        obtain ⟨hr, hcb, hrem⟩ := h hd
        simp only [hp, ↓reduceIte]
        exact ⟨hr, hcb, fun t => by simp [broadcastChange, hrem t]⟩
  | snapshot | select =>
      obtain ⟨hr, hcb, hrem⟩ := h hd
      exact ⟨hr, hcb, hrem⟩
  | checkRead | checkWrite =>
      simp only [next] at hd ⊢
      split at hd
      all_goals
        obtain ⟨hr, hcb, hrem⟩ := h hd
        exact ⟨hr, hcb, hrem⟩
  | readCb succ =>
      obtain ⟨⟨w, hp⟩, _⟩ := hg
      simp only [next, hp] at hd ⊢
      split at hd
      · rename_i hds
        obtain ⟨hr, hcb, hrem⟩ := h hd
        rw [if_pos hds]
        exact ⟨hr, hcb, hrem⟩
      · cases hd
  | writeCb r =>
      rw [conn_writeCb] at hd
      have hd' := dead_of_writeCb hd
      obtain ⟨hr, hcb, hrem⟩ := h hd'
      simp only [next, hd', hd, Bool.false_eq_true, ↓reduceIte]
      split
      · exact ⟨hr, by simp [delWrite, hr, hcb], hrem⟩
      · exact ⟨hr, hcb, hrem⟩
  | spurious t =>
      obtain ⟨hr, hcb, hrem⟩ := h ((next_spurious_dead s.conn t).symm.trans hd)
      exact ⟨hr, hcb, hrem⟩
  | spuriousRemove t =>
      obtain ⟨w, hw⟩ := hg
      exact absurd (((h hd).removals t).symm.trans hw) (by simp)

/-- The comment in `wait_loop`: nobody takes a live connection's callback away. -/
theorem kept_of_run {tr : List Act} {s : Polled} (h : lts.Run tr s) (hd : s.conn.dead = false) :
    s.Kept := by
  refine h.invariant (I := fun _ s => s.conn.dead = false → s.Kept) ?_ ?_ hd
  · intro s h₀ _
    exact ⟨h₀.rfd, h₀.callback, h₀.removals⟩
  · intro tr s a _ hs hg
    exact Kept.step hs hg

/-! ## From a bad death to `write_cb` -/

/-- The next action of the poll loop. -/
def loopAct : PollPc → Act
  | .top => .checkPending
  | .clearing => .snapshot
  | .selecting r w => .select r w
  | .reading _ _ => .checkRead
  | .inRead _ => .readCb true
  | .writing _ => .checkWrite
  | .inWrite => .writeCb (.wrote 0)

/-- How many more steps the poll loop needs at most to enter `write_cb` if the descriptor is watched
for writing. -/
def stepsToWrite : PollPc → Nat
  | .inWrite => 0
  | .writing true => 1
  | .inRead true => 2
  | .reading _ true => 3
  | .selecting _ true => 4
  | .clearing => 5
  | .top => 6
  | .writing false => 7
  | .inRead false => 8
  | .reading _ false => 9
  | .selecting _ false => 10

/-- A dead connection whose callback is still there and which is not unwritten. -/
structure Doomed (s : Polled) : Prop where
  dead : s.conn.dead = true
  aborted : s.conn.aborted = false
  callback : s.callback = true
  written : s.wfd = true ∨ s.poll.toWrite = true

theorem Doomed.step {s : Polled} (h : s.Doomed) (hp : s.poll ≠ .inWrite) :
    s.guard (loopAct s.poll) ∧ (s.next (loopAct s.poll)).Doomed ∧
      stepsToWrite (s.next (loopAct s.poll)).poll < stepsToWrite s.poll := by
  obtain ⟨hd, ha, hcb, hw⟩ := h
  cases hpoll : s.poll with
  | top =>
      simp only [hpoll, PollPc.toWrite, Bool.false_eq_true, or_false] at hw
      refine ⟨⟨ha, hpoll⟩, ?_⟩
      simp only [loopAct, next]
      split
      · exact ⟨⟨hd, ha, hcb, .inl hw⟩, by simp [broadcastChange, stepsToWrite]⟩
      · exact ⟨⟨hd, ha, hcb, .inl hw⟩, by simp [stepsToWrite]⟩
  | clearing =>
      simp only [hpoll, PollPc.toWrite, Bool.false_eq_true, or_false] at hw
      refine ⟨⟨ha, hpoll⟩, ⟨hd, ha, hcb, .inl hw⟩, ?_⟩
      simp [loopAct, next, hw, stepsToWrite]
  | selecting r w =>
      refine ⟨⟨ha, r, w, hpoll, id, id⟩, ⟨hd, ha, hcb, ?_⟩, ?_⟩
      · simpa [loopAct, next, hpoll, PollPc.toWrite] using hw
      · cases w <;> simp [loopAct, next, stepsToWrite]
  | reading r w =>
      simp only [hpoll, PollPc.toWrite] at hw
      refine ⟨⟨ha, r, w, hpoll⟩, ?_⟩
      simp only [loopAct, next, hpoll, hcb, Bool.and_true]
      cases r with
      | true => exact ⟨⟨hd, ha, rfl, hw⟩, by cases w <;> simp [stepsToWrite]⟩
      | false => exact ⟨⟨hd, ha, rfl, hw⟩, by cases w <;> simp [stepsToWrite]⟩
  | inRead w =>
      simp only [hpoll, PollPc.toWrite] at hw
      refine ⟨⟨ha, ⟨w, hpoll⟩, fun _ => rfl⟩, ?_⟩
      simp only [loopAct, next, hpoll, Bool.or_true, ↓reduceIte]
      exact ⟨⟨hd, ha, hcb, hw⟩, by cases w <;> simp [stepsToWrite]⟩
  | writing w =>
      simp only [hpoll, PollPc.toWrite] at hw
      refine ⟨⟨ha, w, hpoll⟩, ?_⟩
      simp only [loopAct, next, hpoll, hcb, Bool.and_true]
      cases w with
      | true => exact ⟨⟨hd, ha, rfl, .inr rfl⟩, by simp [stepsToWrite]⟩
      | false => exact ⟨⟨hd, ha, rfl, .inl (by simpa using hw)⟩, by simp [stepsToWrite]⟩
  | inWrite => exact absurd hpoll hp

theorem Doomed.reaches {tr : List Act} {s : Polled} (h : s.Doomed) (hr : lts.Run tr s) :
    ∃ late s', lts.Run (late ++ tr) s' ∧ s'.poll = .inWrite ∧ s'.conn.dead = true := by
  induction hn : stepsToWrite s.poll using Nat.strong_induction_on generalizing tr s with
  | h n ih =>
      by_cases hp : s.poll = .inWrite
      · exact ⟨[], s, hr, hp, h.dead⟩
      · obtain ⟨hg, h', hlt⟩ := h.step hp
        obtain ⟨late, s', hr', hs'⟩ := ih _ (hn ▸ hlt) h' (hr.step hg) rfl
        exact ⟨late ++ [loopAct s.poll], s', by simpa using hr', hs'⟩

theorem begin_fail {c : Sender} (hd : c.dead = false) (t : Tid) (b : Pdu) :
    (c.begin t b (.fail .other)).dead = true ∧ (c.begin t b (.fail .other)).aborted = c.aborted ∧
      (c.begin t b (.fail .other)).threads t = .removing b := by
  have hlen : 4 ≤ b.1.length := b.2.1
  simp only [Sender.begin, hd, writepdu, show ¬ (0 : Int) = b.1.length by omega, Bool.false_eq_true,
    ↓reduceIte, Bool.not_false]
  exact ⟨trivial, rfl, by simp [Sender.setThread]⟩

theorem Kept.doomed {s : Polled} {t : Tid} {b : Pdu} {c : Sender} (h : s.Kept)
    (hw : ¬ s.Unwritten) (hd : c.dead = true) (ha : c.aborted = false) (ht : c.threads t = .removing b) :
    (s.sent t c).Doomed := by
  have hw : s.wfd = true ∨ s.poll.toWrite = true := by
    simpa [Unwritten, Classical.or_iff_not_imp_left] using hw
  simp only [Polled.sent, ht]
  exact ⟨hd, ha, h.callback, hw⟩

/-- A thread that kills a connection which is not unwritten dooms it. -/
theorem doomed_of_death {tr : List Act} {s : Polled} {a : Act} (h : lts.Run tr s) (hg : s.guard a)
    (hc : ¬ s.DiesUnwritten a) : (s.next a).Doomed := by
  obtain ⟨hab, hg⟩ := hg
  cases a with
  | closeconn t =>
      simp only [DiesUnwritten, Classical.not_imp] at hc
      obtain ⟨hd, hw⟩ := hc
      have hw : s.wfd = true ∨ s.poll.toWrite = true := by
        simpa [Unwritten, Classical.or_iff_not_imp_left] using hw
      simp only [next, hd, Bool.false_eq_true, ↓reduceIte]
      exact ⟨rfl, hab, (kept_of_run h hd).callback, hw⟩
  | send t b r =>
      rcases r with n | (_ | _)
      · exact absurd trivial hc
      · exact absurd trivial hc
      · simp only [DiesUnwritten, Classical.not_imp] at hc
        obtain ⟨hd, hm, hw⟩ := hc
        obtain ⟨hd', ha', ht⟩ := begin_fail hd t b
        simp only [next, Sender.next, hm, Bool.false_eq_true, ↓reduceIte]
        exact (kept_of_run h hd).doomed hw hd' (ha'.trans hab) ht
  | resume t r =>
      obtain ⟨b, ht⟩ := hg.2
      rcases r with n | (_ | _)
      · exact absurd trivial hc
      · exact absurd trivial hc
      · simp only [DiesUnwritten, Classical.not_imp] at hc
        obtain ⟨hd, hm, hw⟩ := hc
        obtain ⟨hd', ha', ht'⟩ := begin_fail (c := { s.conn with waiters := s.conn.waiters - 1 }) hd t b
        simp only [next, Sender.next, ht, hm, Bool.false_eq_true, ↓reduceIte]
        exact (kept_of_run h hd).doomed hw hd' (ha'.trans hab) ht'
  | _ => exact absurd trivial hc

/-! ## No assertion of `write_cb` fails -/

theorem begin_aborted (c : Sender) (t : Tid) (b : Pdu) (r : WriteResult) :
    (c.begin t b r).aborted = c.aborted := by
  simp only [Sender.begin, Sender.finish]
  repeat' split
  all_goals rfl

theorem finish_aborted (c : Sender) (t : Tid) (b : Pdu) : (c.finish t b).aborted = c.aborted := by
  simp only [Sender.finish]
  split <;> rfl

/-- Only `write_cb` has assertions. -/
theorem next_aborted (c : Sender) {a : Sender.Act} (ha : ∀ r, a ≠ .writeCb r) :
    (c.next a).aborted = c.aborted := by
  cases a with
  | send t b r =>
      simp only [Sender.next]
      split
      · rfl
      · exact begin_aborted c t b r
  | resume t r =>
      simp only [Sender.next]
      split
      · split
        · rfl
        · exact begin_aborted _ t _ r
      · rfl
  | complete t =>
      simp only [Sender.next]
      split
      · split
        · rfl
        · exact finish_aborted c t _
      · rfl
  | removed t =>
      simp only [Sender.next]
      split
      · exact finish_aborted c t _
      · rfl
  | spurious t =>
      simp only [Sender.next]
      split <;> rfl
  | closeconn | readFailed => rfl
  | writeCb r => exact absurd rfl (ha r)

/-! ## The result -/

theorem inWrite_live {tr : List Act} {s : Polled} (h : (lts.restrict DiesUnwritten).Run tr s)
    (hp : s.poll = .inWrite) : s.conn.dead = false := by
  cases hd : s.conn.dead with
  | false => rfl
  | true => exact absurd hp (shut_of_run h hd).not_inWrite

/-- If every thread that kills the connection finds its descriptor unwritten, `write_cb` never starts
on a dead connection, and none of its assertions fails. -/
theorem write_cb_live {tr : List Act} {s : Polled} (h : (lts.restrict DiesUnwritten).Run tr s) :
    (s.poll = .inWrite → s.conn.dead = false) ∧ s.conn.aborted = false := by
  refine ⟨inWrite_live h, ?_⟩
  refine h.invariant (I := fun _ s => s.conn.aborted = false) ?_ ?_
  · intro s h₀
    rw [h₀.conn]
    rfl
  · intro tr s a h hs hg
    cases hp : sending a with
    | none => exact (congrArg Sender.aborted (sender_component.stays s a hg.1 hp)).trans hs
    | some b =>
        have hn := (sender_component.moves s a b hg.1 hp).2
        refine (congrArg Sender.aborted hn).trans (Eq.trans ?_ hs)
        cases b with
        | writeCb r =>
            have hd : s.conn.dead = false := by
              cases a with
              | writeCb r' => exact inWrite_live h hg.1.2
              | readCb succ => cases succ <;> cases hp
              | _ => cases hp
            exact next_writeCb_aborted (Sender.inv_of_run (h.of_restrict.component sender_component)) hd r
        | _ => exact next_aborted s.conn (by simp)

/-- Where a thread finds it otherwise, the poll loop can go on to `write_cb` on the dead connection. -/
theorem dead_write_of_death {tr : List Act} {s : Polled} {a : Act} (h : lts.Run tr s) (hg : s.guard a)
    (hc : ¬ s.DiesUnwritten a) :
    ∃ late s', lts.Run (late ++ a :: tr) s' ∧ s'.poll = .inWrite ∧ s'.conn.dead = true :=
  (doomed_of_death h hg hc).reaches (h.step hg)

/-! ## The stale interest -/

/-- A round in which the descriptor is found writable. -/
def round : List Act := [.checkPending, .snapshot, .select false true, .checkRead, .checkWrite]

/-- A `send` whose first `write` takes ten bytes; `write_cb` writes the rest. -/
def slowSend : List Act :=
  .send 0 header (.wrote 10) :: round ++ [.writeCb (.wrote 14), .complete 0]

/-- The send is over, another thread closes the connection, and the poll loop's next round calls
`write_cb`. -/
theorem write_cb_on_dead : ∃ tr s, lts.Run tr s ∧ s.poll = .inWrite ∧ s.conn.dead = true := by
  obtain ⟨s, h, hs⟩ := Lts.run_of_exec (M := lts) (l := slowSend ++ .closeconn 1 :: round)
    (f := fun s => decide (s.poll = .inWrite ∧ s.conn.dead = true)) init_fresh (by decide)
  exact ⟨_, s, h, of_decide_eq_true hs⟩

instance (s : Polled) (a : Act) : Decidable (s.DiesUnwritten a) := by
  unfold DiesUnwritten Unwritten
  apply @Act.casesOn _ a
  case send =>
      intro _ _ r
      apply @WriteResult.casesOn _ r
      · intros
        infer_instance
      · intro err
        apply @Errno.casesOn _ err <;> infer_instance
  case resume =>
      intro _ r
      apply @WriteResult.casesOn _ r
      · intros
        infer_instance
      · intro err
        apply @Errno.casesOn _ err <;> infer_instance
  all_goals
    intros
    infer_instance

/-- One more round lets `write_cb` drop its interest; then the connection can be closed. -/
theorem write_cb_live_quiet : ∃ tr s, (lts.restrict DiesUnwritten).Run tr s ∧ s.conn.dead = true ∧
    s.poll = .top ∧ (s.poll = .inWrite → s.conn.dead = false) ∧ s.conn.aborted = false := by
  obtain ⟨s, h, hs⟩ := Lts.run_of_exec (M := lts.restrict DiesUnwritten)
    (l := slowSend ++ round ++ .writeCb (.wrote 0) :: .closeconn 1 ::
      [.checkPending, .snapshot, .select false false, .checkRead, .checkWrite])
    (f := fun s => decide (s.conn.dead = true ∧ s.poll = .top)) init_fresh (by decide)
  obtain ⟨hd, hp⟩ := of_decide_eq_true hs
  exact ⟨_, s, h, hd, hp, write_cb_live h⟩

end Polled
end StanDfs
