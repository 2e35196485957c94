import StanDfs.PollMgr.Select

/-!
# The pipe that wakes the poll loop

`select` has no timeout. A change of the watched sets writes a byte to a pipe that the loop watches, and the
loop reads one byte in a round. So the loop does not sleep through a change, and wakes a thread in
`block_remove_fd` at the end of the round. Only the reading end of the pipe is non-blocking: when the pipe is
full, the writer waits for the loop with the mutexes that the loop needs for its next round.
-/

namespace StanDfs

/-- A `PollMgr`, with the number of bytes in its pipe. `writer` is the call that waits in `write` for room. It
has `PollMgr::m_` and `SelectAIO::m_`, so nobody sees what it has changed before. -/
structure Piped (κ : Type*) where
  mgr : PollMgr κ
  pipe : Nat
  writer : Option (PollMgr.Act κ)

namespace PollMgr

variable {κ : Type*}

/-- The step writes to the pipe: `watch_fd` does, and `unwatch_fd` for `CB_RDWR`. -/
def Act.writes : Act κ → Bool
  | .addCallback fd _ _ => fd < maxPollFds
  | .delCallback _ .rdwr => true
  | .blockRemove _ _ => true
  | _ => false

/-- The step takes one of the mutexes. -/
def Act.locks : Act κ → Bool
  | .addCallback fd _ _ => fd < maxPollFds
  | .delCallback _ _ => true
  | .blockRemove _ _ => true
  | .removed _ => true
  | .checkPending => true
  | .snapshot => true
  | _ => false

/-- Nobody but the loop has to do with the pipe. -/
def Act.Outside (pipefd : Nat) : Act κ → Prop
  | .addCallback fd flag _ => fd ≠ pipefd ∧ flag.Proper
  | .delCallback fd flag => fd ≠ pipefd ∧ flag.Proper
  | .blockRemove _ fd => fd ≠ pipefd
  | _ => True

end PollMgr

namespace Piped

variable {κ : Type*}

inductive Act (κ : Type*)
  | run (a : PollMgr.Act κ)
  /-- There is room for the byte of the writer that waits, and its call goes on. -/
  | wrote

def Act.polls : Act κ → Bool
  | .run a => a.polls
  | .wrote => false

def init (pipefd : Nat) : Piped κ := ⟨.init pipefd, 0, none⟩

def pipeNext (pipefd : Nat) (s : Piped κ) (a : PollMgr.Act κ) : Nat :=
  if a.writes then s.pipe + 1
  else match a with
    | .select trfds _ => if pipefd ∈ trfds then s.pipe - 1 else s.pipe
    | _ => s.pipe

/-- `select` returns when one of the descriptors that it was asked about is ready, and the pipe is as long as
there is a byte in it. A pipe takes `cap` bytes. -/
def guard (pipefd cap : Nat) (s : Piped κ) : Act κ → Prop
  | .run a =>
    s.mgr.guard a ∧ a.Outside pipefd ∧ (a.locks = true → s.writer = none) ∧
      match a with
      | .select trfds twfds => ∀ r w high, s.mgr.loop = .selecting r w high →
        (pipefd ∈ trfds ↔ pipefd ∈ r ∧ pipefd ≤ high ∧ 0 < s.pipe) ∧
          ∃ fd, fd ≤ high ∧ (fd ∈ trfds ∨ fd ∈ twfds)
      | _ => True
  | .wrote => s.mgr.aborted = false ∧ s.writer ≠ none ∧ s.pipe < cap

/-- What the poll thread does next if of all descriptors only the pipe is ready. -/
def turn (pipefd : Nat) : LoopPc → PollMgr.Act κ
  | .top => .checkPending
  | .clearing => .snapshot
  | .selecting _ _ _ => .select {pipefd} ∅
  | .reading _ _ => .checkRead
  | .toRead _ _ _ => .callRead
  | .inRead _ _ _ => .readReturns
  | .writing _ => .checkWrite
  | .toWrite _ _ => .callWrite
  | .inWrite _ _ => .writeReturns

variable [DecidableEq κ]

/-- The step of the poll manager, and of its pipe. -/
def move (pipefd : Nat) (s : Piped κ) (a : PollMgr.Act κ) : Piped κ :=
  { s with mgr := s.mgr.next pipefd a, pipe := s.pipeNext pipefd a }

def next (pipefd cap : Nat) (s : Piped κ) : Act κ → Piped κ
  | .run a => if a.writes = true ∧ cap ≤ s.pipe then { s with writer := some a } else s.move pipefd a
  | .wrote =>
    match s.writer with
    | some a => { s with writer := none }.move pipefd a
    | none => s

/-- The runs of the poll manager with its pipe. -/
def lts (pipefd cap : Nat) : Lts (Piped κ) (Act κ) where
  init s := s = init pipefd
  guard := guard pipefd cap
  next := next pipefd cap

end Piped

/-! ## What is watched -/

namespace SelectAIO

/-- The pipe is watched, and every descriptor that is fits into `callbacks_` or is the pipe. -/
structure Within (pipefd : Nat) (a : SelectAIO) : Prop where
  pipeRead : pipefd ∈ a.rfds
  high : a.HighOk
  small : ∀ fd d, fd ∈ a.fds d → fd ≤ max pipefd (PollMgr.maxPollFds - 1)

variable {pipefd fd : Nat} {flag : PollFlag} {a a' : SelectAIO} {b : Bool}

theorem within_init (pipefd : Nat) : Within pipefd (init pipefd) where
  pipeRead := (books_init pipefd).pipeRead
  high := (books_init pipefd).high
  small fd d h := by
    cases d with
    | read => exact le_max_of_le_left (Nat.le_of_eq (Finset.mem_singleton.mp h))
    | write => exact absurd h (Finset.notMem_empty fd)

theorem Within.watchFd (h : a.Within pipefd) (hf : flag.Proper) (hfd : fd < PollMgr.maxPollFds) :
    (a.watchFd fd flag).Within pipefd where
  pipeRead := (mem_watchFd (d := .read) hf).mpr (.inr h.pipeRead)
  high := h.high.watchFd hf
  small x d hx := by
    rcases (mem_watchFd hf).mp hx with ⟨rfl, _⟩ | hx
    · exact le_max_of_le_right (by omega)
    · exact h.small x d hx

theorem Within.unwatchFd (h : a.Within pipefd) (hne : fd ≠ pipefd)
    (hu : a.unwatchFd pipefd fd flag = some (b, a')) : a'.Within pipefd where
  pipeRead := (mem_unwatchFd (d := .read) hu).mpr ⟨h.pipeRead, fun hc => hne hc.1.symm⟩
  high := h.high.unwatchFd h.pipeRead hne hu
  small x d hx := h.small x d ((mem_unwatchFd hu).mp hx).1

theorem Within.le_highfds (h : a.Within pipefd) {d : Direction} (hfd : fd ∈ a.fds d) : fd ≤ a.highfds :=
  h.high.2 ⟨d, hfd⟩

theorem Within.highfds_le (h : a.Within pipefd) : a.highfds ≤ max pipefd (PollMgr.maxPollFds - 1) := by
  obtain ⟨d, hd⟩ := h.high.1
  exact h.small _ d hd

/-- `watch_fd` leaves nothing out of the sets, and `unwatch_fd` puts nothing in. -/
theorem subset_unwatchFd (hu : a.unwatchFd pipefd fd flag = some (b, a')) :
    a'.rfds ⊆ a.rfds ∧ a'.wfds ⊆ a.wfds :=
  ⟨fun _ hx => ((mem_unwatchFd (d := .read) hu).mp hx).1, fun _ hx => ((mem_unwatchFd (d := .write) hu).mp hx).1⟩

theorem length_ready (pipefd high : Nat) (trfds twfds : Finset Nat) :
    (ready pipefd high trfds twfds).1.length ≤ high + 1 ∧ (ready pipefd high trfds twfds).2.length ≤ high + 1 := by
  have hall : ((List.range (high + 1)).filter fun fd => ¬ (fd = pipefd ∧ fd ∈ trfds)).length ≤ high + 1 :=
    (List.length_filter_le _ _).trans (List.length_range).le
  exact ⟨(List.length_filter_le _ _).trans hall, (List.length_filter_le _ _).trans hall⟩

end SelectAIO

namespace Piped

variable {κ : Type*} {pipefd cap : Nat} {s : Piped κ}

/-! ## The loop is woken -/

/-- There is something that the loop has not taken into account since it took its copy of the sets. -/
def Changed (s : Piped κ) (r w : Finset Nat) : Prop :=
  s.mgr.pendingChange = true ∨ ¬ s.mgr.aio.rfds ⊆ r ∨ ¬ s.mgr.aio.wfds ⊆ w

/-- A byte is in the pipe while the loop is in `select`, or about to call it, without the last change. -/
structure Woken (pipefd : Nat) (s : Piped κ) : Prop where
  within : s.mgr.aio.Within pipefd
  waits : ∀ t fd, s.mgr.removals t = .waiting fd false → s.mgr.pendingChange = true
  clearing : s.mgr.loop = .clearing → s.mgr.pendingChange = true → 0 < s.pipe
  selecting : ∀ r w high, s.mgr.loop = .selecting r w high →
    (∀ fd, fd ∈ r ∨ fd ∈ w → fd ≤ high) ∧ high ≤ max pipefd (PollMgr.maxPollFds - 1) ∧ pipefd ∈ r ∧
      (s.Changed r w → 0 < s.pipe)
  outside : ∀ a ∈ s.writer, a.Outside pipefd ∧ a.writes = true

theorem woken_init : Woken pipefd (init pipefd : Piped κ) where
  within := SelectAIO.within_init pipefd
  waits t fd h := by cases h
  clearing h := by cases h
  selecting r w high h := by cases h
  outside a h := by cases h

/-- The writer waits, or goes on. -/
theorem Woken.waiter (h : s.Woken pipefd) {w : Option (PollMgr.Act κ)}
    (hw : ∀ a ∈ w, a.Outside pipefd ∧ a.writes = true) : Woken pipefd { s with writer := w } where
  within := h.within
  waits := h.waits
  clearing := h.clearing
  selecting := h.selecting
  outside := hw

/-- A change writes a byte. -/
theorem Woken.byte (h : s.Woken pipefd) {m : PollMgr κ} (ha : m.aio.Within pipefd) (hl : m.loop = s.mgr.loop)
    (hw : ∀ t fd, m.removals t = .waiting fd false → m.pendingChange = true) :
    Woken pipefd ⟨m, s.pipe + 1, s.writer⟩ where
  within := ha
  waits := hw
  clearing _ _ := Nat.succ_pos _
  outside := h.outside
  selecting r w high heq := by
    obtain ⟨hle, hhigh, hp, _⟩ := h.selecting r w high (hl ▸ heq)
    exact ⟨hle, hhigh, hp, fun _ => Nat.succ_pos _⟩

/-- A step that adds nothing to what is to be taken into account. -/
theorem Woken.quiet (h : s.Woken pipefd) {m : PollMgr κ} (ha : m.aio.Within pipefd) (hl : m.loop = s.mgr.loop)
    (hr : m.aio.rfds ⊆ s.mgr.aio.rfds) (hw : m.aio.wfds ⊆ s.mgr.aio.wfds)
    (hp : m.pendingChange = s.mgr.pendingChange)
    (hwait : ∀ t fd, m.removals t = .waiting fd false → s.mgr.removals t = .waiting fd false) :
    Woken pipefd ⟨m, s.pipe, s.writer⟩ where
  within := ha
  outside := h.outside
  waits t fd ht := hp.trans (h.waits t fd (hwait t fd ht))
  clearing hc hpend := h.clearing (hl ▸ hc) (hp ▸ hpend)
  selecting r w high heq := by
    obtain ⟨hle, hhigh, hpipe, hch⟩ := h.selecting r w high (hl ▸ heq)
    refine ⟨hle, hhigh, hpipe, fun hc => hch ?_⟩
    rcases hc with hc | hc | hc
    · exact .inl (hp ▸ hc)
    · exact .inr (.inl fun hsub => hc (hr.trans hsub))
    · exact .inr (.inr fun hsub => hc (hw.trans hsub))

/-- The loop moves to where it is not asleep. -/
theorem Woken.moves (h : s.Woken pipefd) {l : LoopPc} {b : Bool} {n : Nat} (hc : l ≠ .clearing)
    (hs : ∀ r w high, l ≠ .selecting r w high) :
    Woken pipefd ⟨{ s.mgr with loop := l, aborted := b }, n, s.writer⟩ where
  within := h.within
  outside := h.outside
  waits := h.waits
  clearing heq := absurd heq hc
  selecting r w high heq := absurd heq (hs r w high)

variable [DecidableEq κ] {a : PollMgr.Act κ}

/-- A call that writes to the pipe. -/
theorem Woken.writes (h : s.Woken pipefd) (ho : a.Outside pipefd) (hw : a.writes = true) :
    (s.move pipefd a).Woken pipefd := by
  cases a with
  | addCallback fd flag ch =>
      obtain ⟨_, hf⟩ := ho
      have hfd : fd < PollMgr.maxPollFds := of_decide_eq_true hw
      have hin := h.within.watchFd hf hfd
      simp only [move, pipeNext, hw, if_true, PollMgr.next, PollMgr.addCallback, if_pos hfd]
      split
      · exact h.byte hin rfl h.waits
      · exact h.byte hin rfl h.waits
  | delCallback fd flag =>
      obtain ⟨hne, hf⟩ := ho
      obtain ⟨b, a, hu⟩ := SelectAIO.unwatchFd_proper pipefd s.mgr.aio fd hf
      simp only [move, pipeNext, hw, if_true, PollMgr.next, PollMgr.delCallback, hu]
      exact h.byte (h.within.unwatchFd hne hu) rfl h.waits
  | blockRemove t fd =>
      obtain ⟨b, a, hu⟩ := SelectAIO.unwatchFd_rdwr pipefd s.mgr.aio fd
      simp only [move, pipeNext, hw, if_true, PollMgr.next, PollMgr.blockRemove, hu]
      exact h.byte (h.within.unwatchFd ho hu) rfl fun _ _ _ => rfl
  | _ => cases hw

theorem Woken.delCallback (h : s.Woken pipefd) {fd : Nat} {flag : PollFlag} (hne : fd ≠ pipefd)
    (hf : flag.Proper) : (s.move pipefd (.delCallback fd flag)).Woken pipefd := by
  obtain ⟨b, a, hu⟩ := SelectAIO.unwatchFd_proper pipefd s.mgr.aio fd hf
  have hin := h.within.unwatchFd hne hu
  obtain ⟨hr, hw⟩ := SelectAIO.subset_unwatchFd hu
  rcases hf with rfl | rfl | rfl
  · simp only [move, PollMgr.next, PollMgr.delCallback, hu]
    exact h.quiet hin rfl hr hw rfl fun _ _ ht => ht
  · simp only [move, PollMgr.next, PollMgr.delCallback, hu]
    exact h.quiet hin rfl hr hw rfl fun _ _ ht => ht
  · exact h.writes ⟨hne, .inr (.inr rfl)⟩ rfl

theorem Woken.removed (h : s.Woken pipefd) {t : Tid} : (s.move pipefd (.removed t)).Woken pipefd := by
  simp only [move, PollMgr.next, PollMgr.removed]
  split
  · refine h.quiet h.within rfl subset_rfl subset_rfl rfl fun t' fd ht => ?_
    by_cases htt : t' = t
    · subst htt
      simp at ht
    · simpa only [Function.update_of_ne htt] using ht
  · exact h

theorem Woken.checkPending (h : s.Woken pipefd) : (s.move pipefd .checkPending).Woken pipefd := by
  simp only [move, PollMgr.next, PollMgr.checkPending]
  split
  · refine ⟨h.within, fun t fd ht => ?_, fun _ hp => ?_, fun _ _ _ hl => ?_, h.outside⟩
    · cases hr : s.mgr.removals t <;> simp [hr, PollMgr.wake] at ht
    · cases hp
    · cases hl
  · rename_i hp
    refine ⟨h.within, h.waits, fun _ hp' => absurd hp' hp, fun _ _ _ hl => ?_, h.outside⟩
    cases hl

theorem Woken.snapshot (h : s.Woken pipefd) (hl : s.mgr.loop = .clearing) :
    (s.move pipefd .snapshot).Woken pipefd := by
  refine ⟨h.within, h.waits, fun hc => (nomatch hc), fun r w high heq => ?_, h.outside⟩
  cases heq
  refine ⟨fun fd hfd => ?_, h.within.highfds_le, h.within.pipeRead, fun hc => h.clearing hl ?_⟩
  · rcases hfd with hfd | hfd
    · exact h.within.le_highfds (d := .read) hfd
    · exact h.within.le_highfds (d := .write) hfd
  · rcases hc with hc | hc | hc
    · exact hc
    · exact absurd subset_rfl hc
    · exact absurd subset_rfl hc

/-- One step that does not wait. -/
theorem Woken.move (h : s.Woken pipefd) (hg : s.mgr.guard a) (ho : a.Outside pipefd) :
    (s.move pipefd a).Woken pipefd := by
  have hg' := hg.2
  cases a with
  | addCallback fd flag ch =>
      by_cases hfd : fd < PollMgr.maxPollFds
      · exact h.writes ho (decide_eq_true hfd)
      · simp only [Piped.move, pipeNext, PollMgr.Act.writes, hfd, decide_false, PollMgr.next, PollMgr.addCallback,
          if_false]
        exact h.quiet h.within rfl subset_rfl subset_rfl rfl fun _ _ ht => ht
  | delCallback fd flag => exact h.delCallback ho.1 ho.2
  | blockRemove t fd => exact h.writes ho rfl
  | removed t => exact h.removed
  | checkPending => exact h.checkPending
  | snapshot => exact h.snapshot hg'
  | select r w =>
      obtain ⟨_, _, _, hl, _, _⟩ := hg'
      simp only [Piped.move, PollMgr.next, PollMgr.select, hl]
      split <;> exact h.moves (by simp) (by simp)
  | interrupted => exact h.moves (by simp) (by simp)
  | selectFailed => exact h.quiet h.within rfl subset_rfl subset_rfl rfl fun _ _ ht => ht
  | checkRead =>
      obtain ⟨rs, ws, hl⟩ := hg'
      simp only [Piped.move, PollMgr.next, PollMgr.checkRead, hl]
      cases rs with
      | nil => exact h.moves (by simp) (by simp)
      | cons fd rs => exact h.moves (by split <;> simp) (by split <;> simp)
  | callRead =>
      obtain ⟨fd, rs, ws, hl⟩ := hg'
      simp only [Piped.move, PollMgr.next, PollMgr.callRead, hl]
      split <;> exact h.moves (by simp) (by simp)
  | readReturns =>
      obtain ⟨fd, rs, ws, hl⟩ := hg'
      simp only [Piped.move, PollMgr.next, PollMgr.readReturns, hl]
      exact h.moves (by simp) (by simp)
  | checkWrite =>
      obtain ⟨ws, hl⟩ := hg'
      simp only [Piped.move, PollMgr.next, PollMgr.checkWrite, hl]
      cases ws with
      | nil => exact h.moves (by simp) (by simp)
      | cons fd ws => exact h.moves (by split <;> simp) (by split <;> simp)
  | callWrite =>
      obtain ⟨fd, ws, hl⟩ := hg'
      simp only [Piped.move, PollMgr.next, PollMgr.callWrite, hl]
      split <;> exact h.moves (by simp) (by simp)
  | writeReturns =>
      obtain ⟨fd, ws, hl⟩ := hg'
      simp only [Piped.move, PollMgr.next, PollMgr.writeReturns, hl]
      exact h.moves (by simp) (by simp)

/-- One step. -/
theorem Woken.step {a : Act κ} (h : s.Woken pipefd) (hg : guard pipefd cap s a) :
    (next pipefd cap s a).Woken pipefd := by
  cases a with
  | run a =>
      simp only [next]
      split
      · rename_i hw
        refine h.waiter fun a' ha => ?_
        cases ha
        exact ⟨hg.2.1, hw.1⟩
      · exact h.move hg.1 hg.2.1
  | wrote =>
      simp only [next]
      split
      · rename_i a ha
        obtain ⟨ho, hw⟩ := h.outside a ha
        exact (h.waiter (w := none) fun _ h => by cases h).writes ho hw
      · exact h

theorem woken_of_run {tr : List (Act κ)} (h : (lts pipefd cap).Run tr s) : s.Woken pipefd := by
  refine h.invariant (I := fun _ s => s.Woken pipefd) ?_ ?_
  · rintro s rfl
    exact woken_init
  · intro tr s a _ hs hg
    exact hs.step hg

/-- When `select` may sleep, because the pipe is empty, it was asked about all that is watched and no thread
waits for the loop. -/
theorem select_wakes {tr : List (Act κ)} (h : (lts pipefd cap).Run tr s) {r w : Finset Nat} {high : Nat}
    (hl : s.mgr.loop = .selecting r w high) (hp : s.pipe = 0) :
    (∀ t fd, s.mgr.removals t ≠ .waiting fd false) ∧ s.mgr.aio.rfds ⊆ r ∧ s.mgr.aio.wfds ⊆ w ∧
      ∀ fd, fd ∈ s.mgr.aio.rfds ∨ fd ∈ s.mgr.aio.wfds → fd ≤ high := by
  have hw := woken_of_run h
  obtain ⟨hle, _, _, hch⟩ := hw.selecting r w high hl
  have hno : ¬ s.Changed r w := fun hc => by
    have := hch hc
    omega
  rw [Changed, not_or, not_or, not_not, not_not] at hno
  obtain ⟨hpend, hr, hww⟩ := hno
  refine ⟨fun t fd ht => hpend (hw.waits t fd ht), hr, hww, fun fd hfd => hle fd (hfd.imp (hr ·) (hww ·))⟩

omit [DecidableEq κ] in
theorem guard_select (cap : Nat) {r w trfds twfds : Finset Nat} {high : Nat} (ha : s.mgr.aborted = false)
    (hl : s.mgr.loop = .selecting r w high) (hr : trfds ⊆ r) (hw : twfds ⊆ w)
    (hp : pipefd ∈ trfds ↔ pipefd ∈ r ∧ pipefd ≤ high ∧ 0 < s.pipe)
    (he : ∃ fd, fd ≤ high ∧ (fd ∈ trfds ∨ fd ∈ twfds)) : guard pipefd cap s (.run (.select trfds twfds)) := by
  refine ⟨⟨ha, r, w, high, hl, hr, hw⟩, trivial, fun hc => (by cases hc), fun r' w' high' heq => ?_⟩
  cases hl.symm.trans heq
  exact ⟨hp, he⟩

/-- The loop is asleep with one descriptor watched. -/
def asleep : Piped Unit :=
  [.run (.addCallback 5 .rdonly ()), .run .checkPending, .run .snapshot, .run (.select {3} ∅), .run .checkPending,
    .run .snapshot].foldl (next 3 65536) (init 3)

theorem run_asleep : ∃ tr, (lts 3 65536).Run tr asleep := by
  have h0 : (lts 3 65536).Run [] (init 3 : Piped Unit) := .init rfl
  have h1 : (lts 3 65536).Run [.run (.addCallback 5 .rdonly ())] _ :=
    .step h0 ⟨⟨rfl, trivial⟩, ⟨by decide, .inl rfl⟩, fun _ => rfl, trivial⟩
  have h2 : (lts 3 65536).Run [.run .checkPending, _] _ := .step h1 ⟨⟨rfl, rfl⟩, trivial, fun _ => rfl, trivial⟩
  have h3 : (lts 3 65536).Run [.run .snapshot, _, _] _ := .step h2 ⟨⟨rfl, rfl⟩, trivial, fun _ => rfl, trivial⟩
  have h4 : (lts 3 65536).Run [.run (.select {3} ∅), _, _, _] _ :=
    .step h3 (guard_select 65536 rfl rfl (by decide) (by decide) (by decide) ⟨3, by decide, by decide⟩)
  have h5 : (lts 3 65536).Run [.run .checkPending, _, _, _, _] _ :=
    .step h4 ⟨⟨rfl, rfl⟩, trivial, fun _ => rfl, trivial⟩
  have h6 : (lts 3 65536).Run [.run .snapshot, _, _, _, _, _] _ :=
    .step h5 ⟨⟨rfl, rfl⟩, trivial, fun _ => rfl, trivial⟩
  exact ⟨_, h6⟩

/-- The descriptor that is watched is among those that `select` was asked about. -/
theorem select_wakes_asleep : asleep.mgr.loop = .selecting {5, 3} ∅ 5 ∧ asleep.pipe = 0 ∧
    (∀ t fd, asleep.mgr.removals t ≠ .waiting fd false) ∧ asleep.mgr.aio.rfds ⊆ {5, 3} ∧
      asleep.mgr.aio.wfds ⊆ ∅ ∧ ∀ fd, fd ∈ asleep.mgr.aio.rfds ∨ fd ∈ asleep.mgr.aio.wfds → fd ≤ 5 := by
  obtain ⟨tr, h⟩ := run_asleep
  exact ⟨rfl, rfl, select_wakes h rfl rfl⟩

/-! ## The rounds are finite -/

/-- How many steps the loop takes at most before it is at its top again. In a round each descriptor up to
`b` may be readable and writable. -/
def steps (b : Nat) : LoopPc → Nat
  | .top => 0
  | .writing ws => 3 * ws.length + 1
  | .inWrite _ ws => 3 * ws.length + 2
  | .toWrite _ ws => 3 * ws.length + 3
  | .reading rs ws => 3 * rs.length + 3 * ws.length + 2
  | .inRead _ rs ws => 3 * rs.length + 3 * ws.length + 3
  | .toRead _ rs ws => 3 * rs.length + 3 * ws.length + 4
  | .selecting _ _ high => 6 * (high + 1) + 3
  | .clearing => 6 * (b + 1) + 4

/-- The largest descriptor that can be watched. -/
def maxFd (pipefd : Nat) : Nat := max pipefd (PollMgr.maxPollFds - 1)

/-- A step of the loop brings it nearer to its top, or aborts where it is. -/
theorem steps_next (h : s.Woken pipefd) (hg : s.mgr.guard a) (hp : a.polls = true) :
    steps (maxFd pipefd) (s.mgr.next pipefd a).loop < steps (maxFd pipefd) s.mgr.loop ∨
      (s.mgr.next pipefd a).aborted = true ∧ (s.mgr.next pipefd a).loop = s.mgr.loop := by
  have hg' := hg.2
  cases a with
  | addCallback | delCallback | blockRemove | removed | checkPending => cases hp
  | selectFailed => exact .inr ⟨rfl, rfl⟩
  | snapshot =>
      left
      have hl : s.mgr.loop = .clearing := hg'
      have hhigh : s.mgr.aio.highfds ≤ maxFd pipefd := h.within.highfds_le
      simp only [PollMgr.next, hl, steps]
      omega
  | select r w =>
      left
      obtain ⟨_, _, high, hl, _, _⟩ := hg'
      obtain ⟨hr, hw⟩ := SelectAIO.length_ready pipefd high r w
      simp only [PollMgr.next, PollMgr.select, hl]
      split
      · simp only [steps]
        omega
      · simp only [steps]
        omega
  | interrupted =>
      left
      obtain ⟨r, w, high, hl⟩ := hg'
      simp only [PollMgr.next, hl, steps]
      omega
  | checkRead =>
      left
      obtain ⟨rs, ws, hl⟩ := hg'
      cases rs with
      | nil =>
          simp only [PollMgr.next, PollMgr.checkRead, hl, steps, List.length_nil]
          omega
      | cons fd rs =>
          simp only [PollMgr.next, PollMgr.checkRead, hl]
          split <;> simp only [steps, List.length_cons] <;> omega
  | callRead =>
      obtain ⟨fd, rs, ws, hl⟩ := hg'
      simp only [PollMgr.next, PollMgr.callRead, hl]
      split
      · left
        simp only [steps]
        omega
      · exact .inr ⟨rfl, rfl⟩
  | readReturns =>
      left
      obtain ⟨fd, rs, ws, hl⟩ := hg'
      simp only [PollMgr.next, PollMgr.readReturns, hl, steps]
      omega
  | checkWrite =>
      left
      obtain ⟨ws, hl⟩ := hg'
      cases ws with
      | nil =>
          simp only [PollMgr.next, PollMgr.checkWrite, hl, steps, List.length_nil]
          omega
      | cons fd ws =>
          simp only [PollMgr.next, PollMgr.checkWrite, hl]
          split <;> simp only [steps, List.length_cons] <;> omega
  | callWrite =>
      obtain ⟨fd, ws, hl⟩ := hg'
      simp only [PollMgr.next, PollMgr.callWrite, hl]
      split
      · left
        simp only [steps]
        omega
      · exact .inr ⟨rfl, rfl⟩
  | writeReturns =>
      left
      obtain ⟨fd, ws, hl⟩ := hg'
      simp only [PollMgr.next, PollMgr.writeReturns, hl, steps]
      omega

/-- The other threads do not move the loop. -/
theorem loop_of_not_polls (m : PollMgr κ) (hp : a.polls = false) (hc : a ≠ .checkPending) :
    (m.next pipefd a).loop = m.loop := by
  cases a with
  | addCallback fd flag ch => exact (PollMgr.addCallback_frame m fd flag ch).1
  | delCallback fd flag => exact (PollMgr.delCallback_frame pipefd m fd flag).1
  | blockRemove t fd =>
      obtain ⟨_, _, _, hn⟩ := PollMgr.blockRemove_eq pipefd m t fd
      simp only [PollMgr.next, hn]
  | removed t => exact (PollMgr.removed_frame m t).2.1
  | checkPending => exact absurd rfl hc
  | _ => cases hp

omit [DecidableEq κ] in
theorem not_polls_of_writes (hw : a.writes = true) : a.polls = false ∧ a ≠ .checkPending := by
  cases a with
  | addCallback | delCallback | blockRemove => exact ⟨rfl, fun h => by cases h⟩
  | _ => cases hw

/-- A step of the loop is one of the poll manager, and the other steps leave the loop where it is. -/
theorem next_cases (cap : Nat) {a : Act κ} (h : s.Woken pipefd) (hc : a ≠ .run .checkPending) :
    (∃ b, a = .run b ∧ b.polls = true ∧ (next pipefd cap s a).mgr = s.mgr.next pipefd b) ∨
      a.polls = false ∧ (next pipefd cap s a).mgr.loop = s.mgr.loop := by
  cases a with
  | run b =>
      have hne : b ≠ .checkPending := fun heq => hc (heq ▸ rfl)
      cases hp : b.polls with
      | true =>
          have hnw : ¬ (b.writes = true ∧ cap ≤ s.pipe) := fun hw => by
            rw [(not_polls_of_writes hw.1).1] at hp
            cases hp
          exact .inl ⟨b, rfl, hp, by rw [next, if_neg hnw]; rfl⟩
      | false =>
          refine .inr ⟨hp, ?_⟩
          simp only [next]
          split
          · rfl
          · exact loop_of_not_polls s.mgr hp hne
  | wrote =>
      refine .inr ⟨rfl, ?_⟩
      simp only [next]
      split
      · rename_i b hb
        obtain ⟨hp, hne⟩ := not_polls_of_writes (h.outside b hb).2
        exact loop_of_not_polls s.mgr hp hne
      · rfl

/-- A round is never longer than the longest one. -/
theorem steps_of_run {tr : List (Act κ)} (h : (lts pipefd cap).Run tr s) :
    steps (maxFd pipefd) s.mgr.loop ≤ 6 * (maxFd pipefd + 1) + 4 := by
  refine h.invariant (I := fun _ s => steps (maxFd pipefd) s.mgr.loop ≤ 6 * (maxFd pipefd + 1) + 4) ?_ ?_
  · rintro s rfl
    exact Nat.zero_le _
  · intro tr s a hr hs hg
    show steps (maxFd pipefd) (next pipefd cap s a).mgr.loop ≤ _
    by_cases hc : a = .run .checkPending
    · subst hc
      have hl : (next pipefd cap s (.run .checkPending)).mgr.loop = .clearing := (PollMgr.checkPending_frame s.mgr).2
      rw [hl, steps]
    · rcases next_cases cap (woken_of_run hr) hc with ⟨b, rfl, hp, hn⟩ | ⟨_, hn⟩
      · rw [hn]
        rcases steps_next (woken_of_run hr) hg.1 hp with hlt | ⟨_, hl⟩
        · exact (hlt.trans_le hs).le
        · rw [hl]
          exact hs
      · rw [hn]
        exact hs

theorem init_unique {s s' : Piped κ} (h : (lts pipefd cap).init s) (h' : (lts pipefd cap).init s') : s = s' :=
  h.trans h'.symm

/-- Until it is at its top again, the loop takes no more steps than it is away from there. -/
theorem polls_of_run {tr late : List (Act κ)} {s' : Piped κ} (h : (lts pipefd cap).Run tr s)
    (h' : (lts pipefd cap).Run (late ++ tr) s') (hc : .run .checkPending ∉ late) :
    late.countP Act.polls + steps (maxFd pipefd) s'.mgr.loop ≤
      steps (maxFd pipefd) s.mgr.loop + if s'.mgr.aborted then 1 else 0 := by
  refine Lts.Run.since (I := fun late s' => .run .checkPending ∉ late →
    late.countP Act.polls + steps (maxFd pipefd) s'.mgr.loop ≤
      steps (maxFd pipefd) s.mgr.loop + if s'.mgr.aborted then 1 else 0) ?_ ?_ h' hc
  · intro s₀ h₀ _
    rw [h.unique (fun _ _ => init_unique) h₀, List.countP_nil]
    omega
  · intro late s₀ a hr ih hg hc
    have hne : a ≠ .run .checkPending := fun heq => hc (heq ▸ List.mem_cons_self)
    have hle := ih fun hm => hc (List.mem_cons_of_mem _ hm)
    have hab : s₀.mgr.aborted = false := by
      cases a with
      | run a => exact hg.1.1
      | wrote => exact hg.1
    rw [hab] at hle
    simp only [Bool.false_eq_true, ↓reduceIte] at hle
    show (a :: late).countP _ + steps (maxFd pipefd) (next pipefd cap s₀ a).mgr.loop ≤ _ +
      if (next pipefd cap s₀ a).mgr.aborted then 1 else 0
    rcases next_cases cap (woken_of_run hr) hne with ⟨b, rfl, hp, hn⟩ | ⟨hp, hn⟩
    · rw [List.countP_cons_of_pos (show Act.polls (.run b) = true from hp), hn]
      rcases steps_next (woken_of_run hr) hg.1 hp with hlt | ⟨hab', hl⟩
      · omega
      · rw [hab', hl]
        simp only [↓reduceIte]
        omega
    · rw [List.countP_cons_of_neg (by simp [hp]), hn]
      omega

/-! ## A thread in block_remove_fd -/

/-- Only the broadcast wakes it. -/
theorem waiting_move {m : PollMgr κ} {t : Tid} {fd : Nat} (hg : a.writes = true ∨ m.guard a)
    (hb : ∀ fd', a = .blockRemove t fd' → m.removals t = .out) (hw : m.removals t = .waiting fd false)
    (hc : a ≠ .checkPending) : (m.next pipefd a).removals t = .waiting fd false := by
  cases hp : a.polls with
  | true =>
      obtain ⟨l, b, hn⟩ := PollMgr.polls_frame pipefd m hp
      rw [hn]
      exact hw
  | false =>
      cases a with
      | addCallback fd flag ch => exact (congrFun (PollMgr.addCallback_frame m fd flag ch).2 t).trans hw
      | delCallback fd flag => exact (congrFun (PollMgr.delCallback_frame pipefd m fd flag).2 t).trans hw
      | blockRemove t' fd' =>
          have hne : t ≠ t' := by
            rintro rfl
            cases hw.symm.trans (hb fd' rfl)
          obtain ⟨_, _, _, hn⟩ := PollMgr.blockRemove_eq pipefd m t' fd'
          simp only [PollMgr.next, hn, Function.update_of_ne hne]
          exact hw
      | removed t' =>
          have hne : t ≠ t' := by
            rintro rfl
            obtain ⟨_, hw'⟩ := (hg.resolve_left Bool.false_ne_true).2
            cases hw.symm.trans hw'
          exact ((PollMgr.removed_frame m t').2.2 t hne).trans hw
      | checkPending => exact absurd rfl hc
      | _ => cases hp

omit [DecidableEq κ] in
/-- A thread whose `block_remove_fd` waits for room is not in the wait for the loop. -/
def Entering (s : Piped κ) : Prop := ∀ t fd, s.writer = some (.blockRemove t fd) → s.mgr.removals t = .out

theorem removals_of_not_locks (m : PollMgr κ) (hl : a.locks = false) : (m.next pipefd a).removals = m.removals := by
  cases hp : a.polls with
  | true =>
      obtain ⟨l, b, hn⟩ := PollMgr.polls_frame pipefd m hp
      rw [hn]
  | false =>
      cases a with
      | addCallback fd flag ch => exact (PollMgr.addCallback_frame m fd flag ch).2
      | delCallback | blockRemove | removed | checkPending => cases hl
      | _ => cases hp

theorem Entering.step {a : Act κ} (h : s.Entering) (hg : guard pipefd cap s a) : (next pipefd cap s a).Entering := by
  cases a with
  | run a =>
      simp only [next]
      split
      · intro t fd ht
        cases ht
        exact hg.1.2
      · intro t fd ht
        have ht : s.writer = some (.blockRemove t fd) := ht
        have hl : a.locks = false := by
          by_contra hl
          rw [hg.2.2.1 (by simpa using hl)] at ht
          cases ht
        exact (congrFun (removals_of_not_locks s.mgr hl) t).trans (h t fd ht)
  | wrote =>
      simp only [next]
      split
      · intro t fd ht
        cases ht
      · exact h

theorem entering_of_run {tr : List (Act κ)} (h : (lts pipefd cap).Run tr s) : s.Entering := by
  refine h.invariant (I := fun _ s => s.Entering) ?_ fun _ _ _ _ hi hg => hi.step hg
  rintro s rfl t fd ht
  cases ht

theorem waiting_step {a : Act κ} {t : Tid} {fd : Nat} (h : s.Woken pipefd) (he : s.Entering)
    (hg : guard pipefd cap s a) (hw : s.mgr.removals t = .waiting fd false) (hc : a ≠ .run .checkPending) :
    (next pipefd cap s a).mgr.removals t = .waiting fd false := by
  cases a with
  | run a =>
      simp only [next]
      split
      · exact hw
      · refine waiting_move (.inr hg.1) (fun fd' heq => ?_) hw fun heq => hc (heq ▸ rfl)
        subst heq
        exact hg.1.2
  | wrote =>
      simp only [next]
      split
      · rename_i a ha
        have hwr := (h.outside a ha).2
        exact waiting_move (.inl hwr) (fun fd' heq => he t fd' (heq ▸ ha)) hw (not_polls_of_writes hwr).2
      · exact hw

omit [DecidableEq κ] in
/-- The loop can go on, if only because of the pipe. -/
theorem guard_turn (h : s.Woken pipefd) {t : Tid} {fd : Nat} (hw : s.mgr.removals t = .waiting fd false)
    (ha : s.mgr.aborted = false) (hwr : s.writer = none) : guard pipefd cap s (.run (turn pipefd s.mgr.loop)) := by
  cases hl : s.mgr.loop with
  | top => exact ⟨⟨ha, hl⟩, trivial, fun _ => hwr, trivial⟩
  | clearing => exact ⟨⟨ha, hl⟩, trivial, fun _ => hwr, trivial⟩
  | selecting r w high =>
      obtain ⟨hle, _, hp, hch⟩ := h.selecting r w high hl
      have hpipe := hch (.inl (h.waits t fd hw))
      have hmem : pipefd ∈ ({pipefd} : Finset Nat) := Finset.mem_singleton_self pipefd
      exact guard_select cap ha hl (Finset.singleton_subset_iff.mpr hp) (Finset.empty_subset w)
        (iff_of_true hmem ⟨hp, hle pipefd (.inl hp), hpipe⟩) ⟨pipefd, hle pipefd (.inl hp), .inl hmem⟩
  | reading rs ws => exact ⟨⟨ha, rs, ws, hl⟩, trivial, fun _ => hwr, trivial⟩
  | toRead fd rs ws => exact ⟨⟨ha, fd, rs, ws, hl⟩, trivial, fun _ => hwr, trivial⟩
  | inRead fd rs ws => exact ⟨⟨ha, fd, rs, ws, hl⟩, trivial, fun _ => hwr, trivial⟩
  | writing ws => exact ⟨⟨ha, ws, hl⟩, trivial, fun _ => hwr, trivial⟩
  | toWrite fd ws => exact ⟨⟨ha, fd, ws, hl⟩, trivial, fun _ => hwr, trivial⟩
  | inWrite fd ws => exact ⟨⟨ha, fd, ws, hl⟩, trivial, fun _ => hwr, trivial⟩

theorem waiting_of_run {tr late : List (Act κ)} {s' : Piped κ} {t : Tid} {fd : Nat}
    (h : (lts pipefd cap).Run tr s) (hw : s.mgr.removals t = .waiting fd false)
    (h' : (lts pipefd cap).Run (late ++ tr) s') (hc : .run .checkPending ∉ late) :
    s'.mgr.removals t = .waiting fd false := by
  refine Lts.Run.since (I := fun late s' => .run .checkPending ∉ late → s'.mgr.removals t = .waiting fd false)
    ?_ ?_ h' hc
  · intro s₀ h₀ _
    rw [← h.unique (fun _ _ => init_unique) h₀]
    exact hw
  · intro late s₀ a hr ih hg hc
    have hold := ih fun hm => hc (List.mem_cons_of_mem _ hm)
    exact waiting_step (woken_of_run hr) (entering_of_run hr) hg hold fun heq => hc (heq ▸ List.mem_cons_self)

/-- One thread makes changes while the loop is at its top. -/
theorem run_filled (cap : Nat) {n : Nat} (hn : n ≤ cap) : ∃ tr m, (lts 3 cap).Run tr (⟨m, n, none⟩ : Piped Unit) ∧
    m.loop = .top ∧ m.aborted = false ∧ ∀ t, m.removals t = .out := by
  induction n with
  | zero => exact ⟨[], _, .init rfl, rfl, rfl, fun _ => rfl⟩
  | succ n ih =>
      obtain ⟨tr, m, hr, hl, ha, ho⟩ := ih (Nat.le_of_succ_le hn)
      have hlt : ¬ ((PollMgr.Act.addCallback 5 .rdonly ()).writes = true ∧ cap ≤ n) := fun h => by
        have := h.2
        omega
      refine ⟨.run (.addCallback 5 .rdonly ()) :: tr, m.addCallback 5 .rdonly (), ?_, ?_, ?_, fun t => ?_⟩
      · have hn : next 3 cap ⟨m, n, none⟩ (.run (.addCallback 5 .rdonly ())) =
            ⟨m.addCallback 5 .rdonly (), n + 1, none⟩ := if_neg hlt
        rw [← hn]
        exact .step hr ⟨⟨ha, trivial⟩, ⟨by decide, .inl rfl⟩, fun _ => rfl, trivial⟩
      · rw [(PollMgr.addCallback_frame m 5 .rdonly ()).1, hl]
      · have hcb : m.callbacks 5 = none ∨ m.callbacks 5 = some () := by
          cases m.callbacks 5 with
          | none => exact .inl rfl
          | some u => exact .inr rfl
        simp only [PollMgr.addCallback]
        rw [if_pos (by decide), if_pos hcb]
        exact ha
      · rw [(PollMgr.addCallback_frame m 5 .rdonly ()).2, ho t]

/-- When a writer waits for room and the loop is at the top of its round, nothing goes on: the one step that
neither of them keeps out fails the assertion of `add_callback`. -/
theorem aborted_of_stuck {a : Act κ} (hl : s.mgr.loop = .top) (hw : s.writer ≠ none) (hp : cap ≤ s.pipe)
    (hg : guard pipefd cap s a) : (next pipefd cap s a).mgr.aborted = true := by
  cases a with
  | wrote => exact absurd hg.2.2 (Nat.not_lt.mpr hp)
  | run a =>
      have hlock : a.locks = false := by
        by_contra h
        exact hw (hg.2.2.1 (by simpa using h))
      have hg' := hg.1.2
      cases a with
      | addCallback fd flag ch =>
          have hfd : ¬ fd < PollMgr.maxPollFds := of_decide_eq_false hlock
          simp only [next, PollMgr.Act.writes, hfd, decide_false, Bool.false_eq_true, false_and, if_false, move,
            PollMgr.next, PollMgr.addCallback]
      | delCallback | blockRemove | removed | checkPending | snapshot => cases hlock
      | select r w =>
          obtain ⟨_, _, _, hs, _⟩ := hg'
          cases hl.symm.trans hs
      | interrupted | selectFailed =>
          obtain ⟨_, _, _, hs⟩ := hg'
          cases hl.symm.trans hs
      | checkRead =>
          obtain ⟨_, _, hs⟩ := hg'
          cases hl.symm.trans hs
      | callRead | readReturns =>
          obtain ⟨_, _, _, hs⟩ := hg'
          cases hl.symm.trans hs
      | checkWrite =>
          obtain ⟨_, hs⟩ := hg'
          cases hl.symm.trans hs
      | callWrite | writeReturns =>
          obtain ⟨_, _, hs⟩ := hg'
          cases hl.symm.trans hs

/-- However much a pipe takes, it can be full when the loop begins a round and a writer waits: then nothing goes
on, and a thread stays in `block_remove_fd`. -/
theorem full_pipe_stuck (hc : 0 < cap) : ∃ tr s, (lts 3 cap).Run tr (s : Piped Unit) ∧
    s.mgr.removals 0 = .waiting 5 false ∧
      ∀ a, guard 3 cap s a → (next 3 cap s a).mgr.aborted = true := by
  obtain ⟨n, rfl⟩ : ∃ n, cap = n + 1 := ⟨cap - 1, by omega⟩
  obtain ⟨tr, m, hr, hl, ha, ho⟩ := run_filled (n + 1) (Nat.le_succ n)
  obtain ⟨aio, _, _, hb⟩ := PollMgr.blockRemove_eq 3 m 0 5
  let s : Piped Unit := ⟨m.blockRemove 3 0 5, n + 1, none⟩
  have h₁ : (lts 3 (n + 1)).Run (.run (.blockRemove 0 5) :: tr) s := by
    have hn : next 3 (n + 1) ⟨m, n, none⟩ (.run (.blockRemove 0 5)) = s :=
      if_neg fun h => absurd h.2 (Nat.not_succ_le_self n)
    rw [← hn]
    exact .step hr ⟨⟨ha, ho 0⟩, show 5 ≠ 3 by decide, fun _ => rfl, trivial⟩
  have ha' : s.mgr.aborted = false := by rw [show s.mgr = _ from hb]; exact ha
  have hl' : s.mgr.loop = .top := by rw [show s.mgr = _ from hb]; exact hl
  have hw' : s.mgr.removals 0 = .waiting 5 false := by
    rw [show s.mgr = _ from hb]
    exact Function.update_self 0 _ m.removals
  -- the next write finds the pipe full
  have h₂ : (lts 3 (n + 1)).Run (.run (.addCallback 6 .rdonly ()) :: .run (.blockRemove 0 5) :: tr)
      { s with writer := some (.addCallback 6 .rdonly ()) } := by
    have hn : next 3 (n + 1) s (.run (.addCallback 6 .rdonly ())) =
        { s with writer := some (.addCallback 6 .rdonly ()) } := if_pos ⟨rfl, Nat.le_refl _⟩
    rw [← hn]
    exact .step h₁ ⟨⟨ha', trivial⟩, ⟨by decide, .inl rfl⟩, fun _ => rfl, trivial⟩
  exact ⟨_, _, h₂, hw', fun a => aborted_of_stuck hl' (Option.some_ne_none _) (Nat.le_refl _)⟩

end Piped
end StanDfs
