import StanDfs.Connection.Basic
import StanDfs.Lib.Lts

/-!
# The sending end of a connection

Any number of threads call `send`; the poll thread calls `write_cb`. A step is a critical section of
`m_`. A thread waits on `send_wait_` while another one's buffer is in `wpdu_`, and on `send_complete_`
while its own buffer is only partly written.
-/

namespace StanDfs

open Memory (put)

/-- What `send` can take: a buffer with room for its size, which is an `int`. -/
abbrev Pdu := { b : Bytes // 4 ≤ b.length ∧ b.length < 2 ^ 31 }

/-- Where a thread is in `send`; `woken` says that the wait it is in has been signalled. -/
inductive SendPc
  | idle
  | waiting (b : Pdu) (woken : Bool)
  | completing (b : Pdu) (woken : Bool)
  /-- In `block_remove_fd`, with `m_` released. -/
  | removing (b : Pdu)
  deriving DecidableEq

/-- A connection as its senders see it. `aborted` says that an assertion of `write_cb` failed. `out` is
every byte the kernel has taken, `started` every buffer put into `wpdu_`, and `completed` every buffer
whose `send` returned true. -/
structure Sender where
  dead : Bool
  wpdu : Charbuf
  waiters : Nat
  threads : Tid → SendPc
  aborted : Bool
  out : Bytes
  started : List Pdu
  completed : List Pdu

namespace Sender

inductive Act
  /-- A thread calls `send`; the first `write` gives `r`, if it comes to that. -/
  | send (t : Tid) (b : Pdu) (r : WriteResult)
  /-- A thread woken on `send_wait_` looks again. -/
  | resume (t : Tid) (r : WriteResult)
  /-- A thread woken on `send_complete_` looks again. -/
  | complete (t : Tid)
  /-- `block_remove_fd` returns to the thread whose `write` failed. -/
  | removed (t : Tid)
  | writeCb (r : WriteResult)
  | closeconn
  /-- The connection's own `read_cb` found the connection dead. -/
  | readFailed
  /-- A condition wait of the thread ends for no reason. -/
  | spurious (t : Tid)
  deriving DecidableEq

def init : Sender := ⟨false, .empty, 0, fun _ => .idle, false, [], [], []⟩

def setThread (s : Sender) (t : Tid) (p : SendPc) : Sender :=
  { s with threads := Function.update s.threads t p }

/-- `pthread_cond_broadcast(&send_wait_)` -/
def broadcastWait (s : Sender) : Sender :=
  { s with threads := fun t =>
      match s.threads t with
      | .waiting b _ => .waiting b true
      | p => p }

/-- `pthread_cond_signal(&send_complete_)`, on which the owner of `wpdu_` alone can wait. -/
def signalComplete (s : Sender) : Sender :=
  { s with threads := fun t =>
      match s.threads t with
      | .completing b _ => .completing b true
      | p => p }

/-- The end of `send`, from the computation of `ret` on. -/
def finish (s : Sender) (t : Tid) (b : Pdu) : Sender :=
  let ret := !s.dead && decide (s.wpdu.solong = s.wpdu.sz)
  let s := { s with wpdu := .empty, completed := if ret then s.completed ++ [b] else s.completed }
  let s := if s.waiters > 0 then s.broadcastWait else s
  s.setThread t .idle

/-- `send` after the wait on `send_wait_`. -/
def begin (s : Sender) (t : Tid) (b : Pdu) (r : WriteResult) : Sender :=
  if s.dead then s.setThread t .idle
  else
    let (succ, w, bs) := writepdu b.1 b.1.length 0 r
    let s := { s with wpdu := w, out := s.out ++ bs, started := s.started ++ [b] }
    if !succ then { s.setThread t (.removing b) with dead := true }
    else if w.solong = w.sz then s.finish t b
    else s.setThread t (.completing b false)

/-- The condition of the wait on `send_wait_`. -/
def mustWait (s : Sender) : Bool := !s.dead && s.wpdu.buf.isSome

def next (s : Sender) : Act → Sender
  | .send t b r =>
    if s.mustWait then { s.setThread t (.waiting b false) with waiters := s.waiters + 1 }
    else s.begin t b r
  | .resume t r =>
    match s.threads t with
    | .waiting b _ =>
      if s.mustWait then s.setThread t (.waiting b false)
      else { s with waiters := s.waiters - 1 }.begin t b r
    | _ => s
  | .complete t =>
    match s.threads t with
    | .completing b _ =>
      if !s.dead && decide (0 ≤ s.wpdu.solong) && decide (s.wpdu.solong < s.wpdu.sz) then
        s.setThread t (.completing b false)
      else s.finish t b
    | _ => s
  | .removed t =>
    match s.threads t with
    | .removing b => s.finish t b
    | _ => s
  | .writeCb r =>
    if s.dead then { s with aborted := true }
    else if s.wpdu.sz = 0 then s
    else
      match s.wpdu.buf with
      | none => { s with aborted := true }
      | some b =>
        let (succ, w, bs) := writepdu b s.wpdu.sz s.wpdu.solong r
        let s := { s with wpdu := w, out := s.out ++ bs }
        if !succ then { s.signalComplete with dead := true }
        else if w.solong < w.sz then s
        else s.signalComplete
  | .closeconn => { s with dead := true }
  | .readFailed => { s.signalComplete with dead := true }
  | .spurious t =>
    match s.threads t with
    | .waiting b _ => s.setThread t (.waiting b true)
    | .completing b _ => s.setThread t (.completing b true)
    | _ => s

def guard (s : Sender) (a : Act) : Prop :=
  s.aborted = false ∧
  match a with
  | .send t _ _ => s.threads t = .idle
  | .resume t _ => ∃ b, s.threads t = .waiting b true
  | .complete t => ∃ b, s.threads t = .completing b true
  | .removed t => ∃ b, s.threads t = .removing b
  | .writeCb _ => True
  | .closeconn => True
  | .readFailed => s.dead = false
  | .spurious _ => True

instance : (p : SendPc) → Decidable (∃ b, p = .waiting b true)
  | .waiting b true => isTrue ⟨b, rfl⟩
  | .waiting _ false | .idle | .completing _ _ | .removing _ => isFalse (by simp)

instance : (p : SendPc) → Decidable (∃ b, p = .completing b true)
  | .completing b true => isTrue ⟨b, rfl⟩
  | .completing _ false | .idle | .waiting _ _ | .removing _ => isFalse (by simp)

instance : (p : SendPc) → Decidable (∃ b, p = .removing b)
  | .removing b => isTrue ⟨b, rfl⟩
  | .idle | .waiting _ _ | .completing _ _ => isFalse (by simp)

instance (s : Sender) (a : Act) : Decidable (guard s a) := by
  unfold guard
  cases a <;> infer_instance

/-- The runs of the sending end. -/
def lts : Lts Sender Act where
  init s := s = init
  guard := guard
  next := next

/-! ## What `writepdu` writes -/

/-- The bytes of some buffers as `writepdu` writes them, one after the other. -/
def frames (l : List Pdu) : Bytes := (l.map fun b => frame b.1).flatten

theorem frames_append (l l' : List Pdu) : frames (l ++ l') = frames l ++ frames l' := by
  simp [frames]

theorem frames_singleton (b : Pdu) : frames [b] = frame b.1 := by
  simp [frames]

theorem frames_mono {l l' : List Pdu} (h : l <+: l') : frames l <+: frames l' := by
  obtain ⟨r, rfl⟩ := h
  exact ⟨frames r, (frames_append l r).symm⟩

end Sender

theorem length_frame (b : Pdu) : (frame b.1).length = b.1.length := by
  have hb : 4 ≤ b.1.length := b.2.1
  exact Memory.length_put (by simp [sizeBytes]; omega)

/-- Filling in the size twice changes nothing. -/
theorem frame_put (b : Pdu) : put (frame b.1) 0 (sizeBytes b.1.length) = frame b.1 := by
  have hb : 4 ≤ b.1.length := b.2.1
  have hl : (sizeBytes b.1.length).length = 4 := rfl
  rw [frame, put, put, hl]
  simp [hl]

/-- Writing a buffer from position `k` on either fails or writes the next bytes of its frame. -/
theorem writepdu_frame (b : Pdu) {b₀ : Bytes} {k : Nat} (r : WriteResult)
    (hb : b₀ = b.1 ∧ k = 0 ∨ b₀ = frame b.1) (hk : k ≤ b.1.length) :
    (∃ n, k + n ≤ b.1.length ∧ writepdu b₀ b.1.length k r
      = (true, ⟨some (frame b.1), b.1.length, (k + n : Nat)⟩, ((frame b.1).drop k).take n)) ∨
    ∃ b', writepdu b₀ b.1.length k r = (false, ⟨some b', 0, -1⟩, []) := by
  have hlen : 4 ≤ b.1.length := b.2.1
  by_cases hend : (k : Int) = b.1.length
  · refine .inl ⟨0, by omega, ?_⟩
    have hb₀ : b₀ = frame b.1 := by
      rcases hb with ⟨_, rfl⟩ | hb
      · omega
      · exact hb
    simp [writepdu, hend, hb₀]
  · have hfill : (if (k : Int) = 0 then put b₀ 0 (sizeBytes b.1.length) else b₀) = frame b.1 := by
      rcases hb with ⟨rfl, rfl⟩ | rfl
      · rfl
      · rw [frame_put, ite_self]
    simp only [writepdu, hend, ↓reduceIte, hfill]
    cases r with
    | wrote n =>
        refine .inl ⟨min n (b.1.length - k), by omega, ?_⟩
        have htk : ((b.1.length : Int) - k).toNat = b.1.length - k := by omega
        simp [htk]
    | fail e =>
        cases e with
        | eagain => exact .inl ⟨0, by omega, by simp⟩
        | other => exact .inr ⟨_, rfl⟩

/-- The thread has its buffer in `wpdu_`. -/
def SendPc.Owner : SendPc → Prop
  | .completing _ _ => True
  | .removing _ => True
  | _ => False

namespace Sender

/-! ## The invariant of the sending end -/

/-- What is on the stream. Nothing is being sent and every started buffer is on it; or one thread's
buffer is, up to `solong`; or the connection is dead and the stream stopped somewhere. -/
inductive Inv (s : Sender) : Prop
  | idle : s.dead = false → s.wpdu = .empty → s.completed = s.started → s.out = frames s.started →
      (∀ t, ¬ (s.threads t).Owner) → Inv s
  | busy {l : List Pdu} {b : Pdu} {k : Nat} {t : Tid} {w : Bool} : s.dead = false →
      s.started = l ++ [b] → s.completed = l → s.wpdu = ⟨some (frame b.1), b.1.length, k⟩ →
      k ≤ b.1.length → s.out = frames l ++ (frame b.1).take k → s.threads t = .completing b w →
      (∀ t', (s.threads t').Owner → t' = t) → Inv s
  | down : s.dead = true → s.completed <+: s.started → frames s.completed <+: s.out →
      s.out <+: frames s.started → Inv s

theorem out_prefix_frames {s : Sender} (h : s.Inv) : s.out <+: frames s.started := by
  cases h with
  | idle _ _ _ ho _ => exact ho ▸ List.prefix_rfl
  | busy _ hs _ _ _ ho _ _ =>
      rw [ho, hs, frames_append, frames_singleton]
      exact (List.prefix_append_right_inj _).mpr (List.take_prefix _ _)
  | down _ _ _ ho => exact ho

theorem frames_prefix_out {s : Sender} (h : s.Inv) : frames s.completed <+: s.out := by
  cases h with
  | idle _ _ hc ho _ => rw [ho, hc]
  | busy _ _ hc _ _ ho _ _ =>
      rw [ho, hc]
      exact List.prefix_append _ _
  | down _ _ hc _ => exact hc

/-- When every started buffer was sent, the stream is their frames. -/
theorem out_of_completed {s : Sender} (h : s.Inv) (hc : s.completed = s.started) :
    s.out = frames s.started := by
  have hp := frames_prefix_out h
  rw [hc] at hp
  exact (out_prefix_frames h).eq_of_length_le hp.length_le

theorem Inv.die {s s' : Sender} (h : s.Inv) (hd : s'.dead = true) (hs : s'.started = s.started)
    (hc : s'.completed = s.completed) (ho : s'.out = s.out) : s'.Inv := by
  refine .down hd ?_ (by rw [hc, ho]; exact frames_prefix_out h) (by rw [hs, ho]; exact out_prefix_frames h)
  rw [hc, hs]
  cases h with
  | idle _ _ hc _ _ => rw [hc]
  | busy _ hs hc _ _ _ _ _ =>
      rw [hc, hs]
      exact List.prefix_append _ _
  | down _ h _ _ => exact h

/-- Steps that only move a thread between `idle` and `waiting`, or wake threads, keep the invariant. -/
theorem Inv.threads {s s' : Sender} (h : s.Inv) (hd : s'.dead = s.dead) (hw : s'.wpdu = s.wpdu)
    (hs : s'.started = s.started) (hc : s'.completed = s.completed) (ho : s'.out = s.out)
    (hown : ∀ t, (s'.threads t).Owner → (s.threads t).Owner)
    (hcomp : ∀ t b w, s.threads t = .completing b w → ∃ w', s'.threads t = .completing b w') :
    s'.Inv := by
  cases h with
  | idle h₁ h₂ h₃ h₄ h₅ =>
      exact .idle (hd.trans h₁) (hw.trans h₂) (hc.trans (h₃.trans hs.symm)) (by rw [ho, hs, h₄])
        fun t ht => h₅ t (hown t ht)
  | busy h₁ h₂ h₃ h₄ h₅ h₆ h₇ h₈ =>
      obtain ⟨w', hw'⟩ := hcomp _ _ _ h₇
      exact .busy (hd.trans h₁) (hs.trans h₂) (hc.trans h₃) (hw.trans h₄) h₅ (ho.trans h₆) hw'
        fun t' ht' => h₈ t' (hown t' ht')
  | down h₁ h₂ h₃ h₄ =>
      exact .down (hd.trans h₁) (by rw [hc, hs]; exact h₂) (by rw [hc, ho]; exact h₃)
        (by rw [ho, hs]; exact h₄)

theorem Inv.waiters {s : Sender} (h : s.Inv) (n : Nat) : ({ s with waiters := n } : Sender).Inv :=
  h.threads rfl rfl rfl rfl rfl (fun _ ht => ht) fun _ _ w hp => ⟨w, hp⟩

/-- A thread moves; it neither becomes the owner of `wpdu_` nor stops being it. -/
theorem Inv.moveThread {s : Sender} (h : s.Inv) {t : Tid} {p : SendPc}
    (hown : p.Owner → (s.threads t).Owner)
    (hcomp : ∀ b w, s.threads t = .completing b w → ∃ w', p = .completing b w') :
    (s.setThread t p).Inv := by
  refine h.threads rfl rfl rfl rfl rfl ?_ ?_
  · intro t' ht'
    by_cases heq : t' = t
    · subst heq
      exact hown (by simpa [setThread] using ht')
    · simpa [setThread, Function.update_of_ne heq] using ht'
  · intro t' b w hp
    by_cases heq : t' = t
    · subst heq
      simpa [setThread] using hcomp b w hp
    · exact ⟨w, by simpa [setThread, Function.update_of_ne heq] using hp⟩

theorem finish_dead {s : Sender} {t : Tid} {b : Pdu} : (s.finish t b).dead = s.dead := by
  simp only [finish]
  split <;> rfl

theorem finish_started {s : Sender} {t : Tid} {b : Pdu} : (s.finish t b).started = s.started := by
  simp only [finish]
  split <;> rfl

theorem finish_out {s : Sender} {t : Tid} {b : Pdu} : (s.finish t b).out = s.out := by
  simp only [finish]
  split <;> rfl

theorem finish_wpdu {s : Sender} {t : Tid} {b : Pdu} : (s.finish t b).wpdu = .empty := by
  simp only [finish]
  split <;> rfl

theorem finish_completed {s : Sender} {t : Tid} {b : Pdu} : (s.finish t b).completed
    = if s.dead = false ∧ s.wpdu.solong = s.wpdu.sz then s.completed ++ [b] else s.completed := by
  simp only [finish]
  split <;> simp [setThread, broadcastWait]

/-- After `send` returns, the thread owns nothing, and no other thread has become an owner. -/
theorem finish_owner {s : Sender} {t t' : Tid} {b : Pdu} (h : ((s.finish t b).threads t').Owner) :
    t' ≠ t ∧ (s.threads t').Owner := by
  simp only [finish] at h
  by_cases ht : t' = t
  · subst ht
    simp [setThread, SendPc.Owner] at h
  · refine ⟨ht, ?_⟩
    split at h
    · simp only [setThread, broadcastWait, Function.update_of_ne ht] at h
      split at h
      · exact absurd h (by simp [SendPc.Owner])
      · exact h
    · simpa only [setThread, Function.update_of_ne ht] using h

theorem Inv.finish_down {s : Sender} (h : s.Inv) (hd : s.dead = true) (t : Tid) (b : Pdu) :
    (s.finish t b).Inv :=
  h.die (finish_dead.trans hd) finish_started (by rw [finish_completed]; simp [hd]) finish_out

theorem Inv.begin {s : Sender} (h : s.Inv) (hm : s.mustWait = false) (t : Tid) (b : Pdu)
    (r : WriteResult) : (s.begin t b r).Inv := by
  cases hd : s.dead with
  | true =>
      simp only [Sender.begin, hd, ↓reduceIte]
      exact h.die hd rfl rfl rfl
  | false =>
      have hb : 4 ≤ b.1.length := b.2.1
      cases h with
      | down h₁ => exact absurd (hd.symm.trans h₁) (by simp)
      | busy _ _ _ hw => simp [mustWait, hd, hw] at hm
      | idle _ hw hc ho hown =>
          simp only [Sender.begin, hd, Bool.false_eq_true, ↓reduceIte]
          rcases writepdu_frame b (k := 0) r (.inl ⟨rfl, rfl⟩) (Nat.zero_le _)
            with ⟨n, hn, hr⟩ | ⟨b', hr⟩
          · simp only [Nat.cast_zero] at hr
            simp only [hr, Bool.not_true, Bool.false_eq_true, ↓reduceIte, List.drop_zero]
            by_cases hend : ((0 + n : Nat) : Int) = b.1.length
            · rw [if_pos hend]
              have hn' : n = (frame b.1).length := by rw [length_frame]; omega
              refine .idle (finish_dead.trans rfl) finish_wpdu ?_ ?_ ?_
              · rw [finish_completed, if_pos ⟨rfl, hend⟩, finish_started, hc]
              · rw [finish_out, finish_started, frames_append, frames_singleton, ← ho, hn',
                  List.take_length]
              · intro t' ht'
                exact hown t' (finish_owner ht').2
            · rw [if_neg hend]
              refine .busy (l := s.started) (b := b) (k := 0 + n) (t := t) (w := false) rfl rfl hc rfl
                hn ?_ (by simp [setThread]) ?_
              · rw [Nat.zero_add, ← ho]
                rfl
              · intro t' ht'
                by_contra hne
                exact hown t' (by simpa [setThread, Function.update_of_ne hne] using ht')
          · simp only [Nat.cast_zero] at hr
            simp only [hr, Bool.not_false, ↓reduceIte, List.append_nil]
            refine .down rfl ?_ ?_ ?_
            · exact hc ▸ List.prefix_append _ _
            · show frames s.completed <+: s.out
              rw [ho, hc]
            · exact ho ▸ frames_mono (List.prefix_append _ _)

/-- The owner of `wpdu_` stops waiting: its buffer is written, or the connection is dead. -/
theorem Inv.finish {s : Sender} (h : s.Inv) {t : Tid} {b : Pdu} (ht : (s.threads t).Owner)
    (hb : ∀ b' w, s.threads t = .completing b' w → b' = b)
    (hend : s.dead = true ∨ s.wpdu.solong = s.wpdu.sz) : (s.finish t b).Inv := by
  cases h with
  | idle _ _ _ _ hown => exact absurd ht (hown t)
  | down h₁ h₂ h₃ h₄ => exact (Inv.down h₁ h₂ h₃ h₄).finish_down h₁ t b
  | @busy l b₀ k t₀ w hd hs hc hw hk ho hp hown =>
      obtain rfl := hown t ht
      obtain rfl := hb _ _ hp
      have hend : (k : Int) = b₀.1.length := by simpa [hd, hw] using hend
      have hk' : k = (frame b₀.1).length := by rw [length_frame]; omega
      refine .idle (finish_dead.trans hd) finish_wpdu ?_ ?_ ?_
      · rw [finish_completed, if_pos ⟨hd, by rw [hw]; exact hend⟩, finish_started, hc, hs]
      · rw [finish_out, finish_started, hs, frames_append, frames_singleton, ho, hk',
          List.take_length]
      · intro t' ht'
        obtain ⟨hne, ht'⟩ := finish_owner ht'
        exact hne (hown t' ht')

theorem Inv.writeCb {s : Sender} (h : s.Inv) (r : WriteResult) : (s.next (.writeCb r)).Inv := by
  cases h with
  | down h₁ h₂ h₃ h₄ =>
      simp only [next, h₁, ↓reduceIte]
      exact .down rfl h₂ h₃ h₄
  | idle h₁ h₂ h₃ h₄ h₅ =>
      simp only [next, h₁, h₂, Charbuf.empty, Bool.false_eq_true, ↓reduceIte]
      exact .idle h₁ h₂ h₃ h₄ h₅
  | @busy l b k t w hd hs hc hw hk ho hp hown =>
      have hb : 4 ≤ b.1.length := b.2.1
      have hz : ¬ ((b.1.length : Int) = 0) := by omega
      simp only [next, hd, hw, hz, Bool.false_eq_true, ↓reduceIte]
      rcases writepdu_frame b r (.inr rfl) hk with ⟨n, hn, hr⟩ | ⟨b', hr⟩
      · simp only [hr, Bool.not_true, Bool.false_eq_true, ↓reduceIte]
        have hout : s.out ++ ((frame b.1).drop k).take n
            = frames l ++ (frame b.1).take (k + n) := by
          rw [ho, List.append_assoc, List.take_add]
        split
        · exact .busy rfl hs hc rfl hn hout hp hown
        · refine .busy rfl hs hc rfl hn hout (t := t) (w := true) ?_ ?_
          · simp [signalComplete, hp]
          · intro t' ht'
            refine hown t' ?_
            simp only [signalComplete] at ht'
            split at ht'
            · rename_i heq
              rw [heq]
              trivial
            · exact ht'
      · simp only [hr, Bool.not_false, ↓reduceIte, List.append_nil]
        have hinv : s.Inv := .busy hd hs hc hw hk ho hp hown
        exact hinv.die rfl rfl rfl rfl

theorem Inv.step {s : Sender} {a : Act} (h : s.Inv) (hg : s.guard a) : (s.next a).Inv := by
  cases a with
  | send t b r =>
      have ht : s.threads t = .idle := hg.2
      simp only [next]
      split
      · exact (h.moveThread (fun hp => absurd hp id) fun b' w hp => by simp [ht] at hp).waiters _
      · rename_i hm
        exact h.begin (by simpa using hm) t b r
  | resume t r =>
      obtain ⟨b, ht⟩ := hg.2
      simp only [next, ht]
      split
      · exact h.moveThread (fun hp => absurd hp id) fun b' w hp => by simp [ht] at hp
      · rename_i hm
        exact (h.waiters (s.waiters - 1)).begin (by simpa [mustWait] using hm) t b r
  | complete t =>
      obtain ⟨b, ht⟩ := hg.2
      simp only [next, ht]
      split
      · exact h.moveThread (fun _ => by rw [ht]; trivial) fun b' w hp => by
          rw [ht] at hp
          cases hp
          exact ⟨_, rfl⟩
      · rename_i hc
        refine h.finish (by rw [ht]; trivial) (fun b' w hp => ?_) ?_
        · rw [ht] at hp
          cases hp
          rfl
        · cases h with
          | down h₁ => exact .inl h₁
          | idle _ hw => exact .inr (by rw [hw]; rfl)
          | busy hd _ _ hw hk =>
              refine .inr ?_
              simp only [hd, hw, Bool.not_false, Bool.true_and, Bool.and_eq_true,
                decide_eq_true_eq, not_and, not_lt] at hc ⊢
              omega
  | removed t =>
      obtain ⟨b, ht⟩ := hg.2
      simp only [next, ht]
      cases h with
      | down h₁ h₂ h₃ h₄ => exact (Inv.down h₁ h₂ h₃ h₄).finish_down h₁ t b
      | idle _ _ _ _ hown => exact absurd (by rw [ht]; trivial) (hown t)
      | busy _ _ _ _ _ _ hp hown =>
          have heq := hown t (by rw [ht]; trivial)
          subst heq
          rw [hp] at ht
          cases ht
  | writeCb r => exact h.writeCb r
  | closeconn => exact h.die rfl rfl rfl rfl
  | readFailed => exact h.die rfl rfl rfl rfl
  | spurious t =>
      simp only [next]
      split
      · rename_i b w ht
        exact h.moveThread (fun hp => absurd hp id) fun b' w hp => by simp [ht] at hp
      · rename_i b w ht
        exact h.moveThread (fun _ => by rw [ht]; trivial) fun b' w hp => by
          rw [ht] at hp
          cases hp
          exact ⟨_, rfl⟩
      · exact h

theorem inv_of_run {tr : List Act} {s : Sender} (h : lts.Run tr s) : s.Inv := by
  refine h.invariant (I := fun _ s => s.Inv) ?_ ?_
  · rintro s rfl
    exact .idle rfl rfl rfl rfl fun _ ht => ht
  · intro tr s a _ hs hg
    exact hs.step hg

theorem begin_out (s : Sender) (t : Tid) (b : Pdu) (r : WriteResult) :
    s.out <+: (s.begin t b r).out := by
  simp only [Sender.begin]
  split
  · exact List.prefix_rfl
  · split
    · exact List.prefix_append _ _
    · split
      · rw [finish_out]
        exact List.prefix_append _ _
      · exact List.prefix_append _ _

theorem next_out (s : Sender) (a : Act) : s.out <+: (s.next a).out := by
  cases a with
  | send t b r =>
      simp only [next]
      split
      · exact List.prefix_rfl
      · exact begin_out s t b r
  | resume t r =>
      simp only [next]
      split
      · split
        · exact List.prefix_rfl
        · exact begin_out { s with waiters := s.waiters - 1 } t _ r
      · exact List.prefix_rfl
  | complete t =>
      simp only [next]
      split
      · split
        · exact List.prefix_rfl
        · rw [finish_out]
      · exact List.prefix_rfl
  | removed t =>
      simp only [next]
      split
      · rw [finish_out]
      · exact List.prefix_rfl
  | writeCb r =>
      simp only [next]
      split
      · exact List.prefix_rfl
      · split
        · exact List.prefix_rfl
        · split
          · exact List.prefix_rfl
          · split
            · exact List.prefix_append _ _
            · split <;> exact List.prefix_append _ _
  | closeconn => exact List.prefix_rfl
  | readFailed => exact List.prefix_rfl
  | spurious t =>
      simp only [next]
      split <;> exact List.prefix_rfl

end Sender
end StanDfs
