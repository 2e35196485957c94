import StanDfs.Lib.Lts
import StanDfs.Connection.Basic
import StanDfs.Lock.Server

/-!
# Threads at the lock table

Any number of threads are in `acquire` and `release` of one `lock_server`. A step is what a thread does
with `mutex` from the moment it has it: up to the return, or up to `pthread_cond_wait`. A waiting thread is
woken by a signal, or for no reason.
-/

namespace StanDfs

/-- Where a thread is; `woken` says that its wait is over, and that it has not looked at the lock again. -/
inductive LockPc
  | out
  | waiting (clt : Int32) (lid : UInt64) (woken : Bool)
  deriving DecidableEq

/-- The place is not at the lock. -/
def LockPc.Elsewhere (p : LockPc) (lid : UInt64) : Prop := ∀ clt w, p ≠ .waiting clt lid w

/-- What happened to a lock: an `acquire` returned, or the state went from `LOCK_LOCKED` to `LOCK_FREE`, in
a `release` of the client if there is one. -/
inductive LockEvent
  | acquired (clt : Int32)
  | freed (clt : Option Int32)
  deriving DecidableEq

/-- A `lock_server`. `log` is history: what happened to each lock, newest first. -/
structure LockTable where
  locks : LockMap
  threads : Tid → LockPc
  log : UInt64 → List LockEvent

namespace LockTable

inductive Act
  | acquire (t : Tid) (clt : Int32) (lid : UInt64)
  /-- A woken thread has the mutex again. -/
  | resume (t : Tid)
  /-- `signals` is the thread that `pthread_cond_signal` wakes. -/
  | release (t : Tid) (clt : Int32) (lid : UInt64) (signals : Option Tid)
  /-- A wait ends for no reason. -/
  | spurious (t : Tid)
  deriving DecidableEq

def init : LockTable := ⟨∅, fun _ => .out, fun _ => []⟩

def setThread (s : LockTable) (t : Tid) (p : LockPc) : LockTable :=
  { s with threads := Function.update s.threads t p }

/-- `acquire` with the mutex: it returns, or waits. -/
def tryAcquire (s : LockTable) (t : Tid) (clt : Int32) (lid : UInt64) : LockTable :=
  match LockServer.acquire s.locks clt lid with
  | some m => { s.setThread t .out with locks := m }
  | none => s.setThread t (.waiting clt lid false)

def wake (s : LockTable) (t : Tid) : LockTable :=
  match s.threads t with
  | .waiting clt lid _ => s.setThread t (.waiting clt lid true)
  | .out => s

def step (s : LockTable) : Act → LockTable
  | .acquire t clt lid => s.tryAcquire t clt lid
  | .resume t =>
    match s.threads t with
    | .waiting clt lid _ => s.tryAcquire t clt lid
    | .out => s
  | .release _ clt lid signals =>
    let s := { s with locks := LockServer.release s.locks clt lid }
    match signals with
    | some t => s.wake t
    | none => s
  | .spurious t => s.wake t

/-- The `acquire` that has the mutex in the step. -/
def acquiring (s : LockTable) : Act → Option (Int32 × UInt64)
  | .acquire _ clt lid => some (clt, lid)
  | .resume t =>
    match s.threads t with
    | .waiting clt lid _ => some (clt, lid)
    | .out => none
  | _ => none

def releasing : Act → Option (Int32 × UInt64)
  | .release _ clt lid _ => some (clt, lid)
  | _ => none

/-- The lock that the step is on. -/
def target (s : LockTable) (a : Act) : Option UInt64 :=
  ((s.acquiring a).or (releasing a)).map Prod.snd

/-- The `acquire` on the lock that returns in the step. -/
def returned (s : LockTable) (a : Act) (lid : UInt64) : Option Int32 :=
  match s.acquiring a with
  | some (clt, lid') => if lid' = lid ∧ (LockServer.acquire s.locks clt lid').isSome then some clt else none
  | none => none

/-- The state of the lock goes from `LOCK_LOCKED` to `LOCK_FREE`. -/
def Unlocks (m m' : LockMap) (lid : UInt64) : Prop :=
  (m.lookup lid).map LockT.state = some .locked ∧ (m'.lookup lid).map LockT.state = some .free

instance (m m' : LockMap) (lid : UInt64) : Decidable (Unlocks m m' lid) :=
  inferInstanceAs (Decidable (_ ∧ _))

/-- The `release` that the step is, if it is one of the lock. -/
def releaser (a : Act) (lid : UInt64) : Option Int32 :=
  match releasing a with
  | some (clt, lid') => if lid' = lid then some clt else none
  | none => none

/-- What happens to the lock in the step. -/
def events (s : LockTable) (a : Act) (lid : UInt64) : List LockEvent :=
  (if Unlocks s.locks (s.step a).locks lid then [.freed (releaser a lid)] else []) ++
    ((s.returned a lid).map .acquired).toList

def next (s : LockTable) (a : Act) : LockTable :=
  { s.step a with log := fun lid => s.events a lid ++ s.log lid }

/-- The thread waits for the lock and has not been woken. -/
def Blocked (s : LockTable) (lid : UInt64) (t : Tid) : Prop := ∃ clt, s.threads t = .waiting clt lid false

/-- The thread waits for the lock, has been woken, and has not looked at the lock again. -/
def Woken (s : LockTable) (lid : UInt64) (t : Tid) : Prop := ∃ clt, s.threads t = .waiting clt lid true

/-- `release` finds the lock with the client as its owner, and signals. -/
def Signals (m : LockMap) (clt : Int32) (lid : UInt64) : Prop := ∃ l, m.lookup lid = some l ∧ l.owner = clt

/-- A signal wakes one blocked thread, if there is one. -/
def guard (s : LockTable) : Act → Prop
  | .acquire t _ _ => s.threads t = .out
  | .resume t => ∃ lid, s.Woken lid t
  | .release t clt lid signals =>
    s.threads t = .out ∧
      match signals with
      | some t' => Signals s.locks clt lid ∧ s.Blocked lid t'
      | none => Signals s.locks clt lid → ∀ t', ¬ s.Blocked lid t'
  | .spurious t => ∃ lid, s.Blocked lid t

/-- The runs of a lock server, over every interleaving of its threads. -/
def lts : Lts LockTable Act where
  init s := s = init
  guard := guard
  next := next

/-! ## What a step does to the locks -/

/-- An `acquire` returns or waits, or there is a `release`, or the locks stay as they are. -/
inductive LocksStep (s : LockTable) (a : Act) : LockMap → Prop
  | returned {clt lid m} : s.acquiring a = some (clt, lid) → LockServer.acquire s.locks clt lid = some m →
      LocksStep s a m
  | waits {clt lid} : s.acquiring a = some (clt, lid) → LockServer.acquire s.locks clt lid = none →
      LocksStep s a s.locks
  | released {clt lid} : s.acquiring a = none → releasing a = some (clt, lid) →
      LocksStep s a (LockServer.release s.locks clt lid)
  | other : s.acquiring a = none → releasing a = none → LocksStep s a s.locks

theorem locks_wake (s : LockTable) (t : Tid) : (s.wake t).locks = s.locks := by
  unfold wake
  split <;> rfl

theorem locksStep_tryAcquire {s : LockTable} {a : Act} {t : Tid} {clt : Int32} {lid : UInt64}
    (ha : s.acquiring a = some (clt, lid)) : LocksStep s a (s.tryAcquire t clt lid).locks := by
  unfold tryAcquire
  split
  · rename_i m hm
    exact .returned ha hm
  · rename_i hm
    exact .waits ha hm

theorem locksStep (s : LockTable) (a : Act) : LocksStep s a (s.next a).locks := by
  cases a with
  | acquire t clt lid => exact locksStep_tryAcquire rfl
  | resume t =>
      simp only [next, step]
      split
      · rename_i clt lid w ht
        exact locksStep_tryAcquire (by simp only [acquiring, ht])
      · rename_i ht
        exact .other (by simp only [acquiring, ht]) rfl
  | release t clt lid signals =>
      have hlocks : (s.next (.release t clt lid signals)).locks = LockServer.release s.locks clt lid := by
        cases signals with
        | some t' => exact locks_wake _ t'
        | none => rfl
      rw [hlocks]
      exact .released rfl rfl
  | spurious t =>
      simp only [next, step, locks_wake]
      exact .other rfl rfl

/-! ## Alternation -/

/-- The owner of a lock that is locked. -/
def holder (m : LockMap) (lid : UInt64) : Option Int32 :=
  match m.lookup lid with
  | some ⟨.locked, clt⟩ => some clt
  | _ => none

/-- An acquisition and a release in turn, newest first, each release by the client of the acquisition
before it; `o` is the client that has acquired the lock and not released it. -/
inductive Alternating : List LockEvent → Option Int32 → Prop
  | nil : Alternating [] none
  | acquired {l clt} : Alternating l none → Alternating (.acquired clt :: l) (some clt)
  | freed {l clt} : Alternating l (some clt) → Alternating (.freed (some clt) :: l) none

theorem holder_congr {m m' : LockMap} {lid : UInt64} (h : m'.lookup lid = m.lookup lid) :
    holder m' lid = holder m lid := by
  rw [holder, h, holder]

theorem holder_acquire {m m' : LockMap} {clt : Int32} {lid : UInt64}
    (h : LockServer.acquire m clt lid = some m') : holder m lid = none ∧ holder m' lid = some clt := by
  have hl : m'.lookup lid = some ⟨.locked, clt⟩ := LockServer.lockedBy_acquire h
  constructor
  · rw [LockServer.acquire] at h
    split at h
    · rename_i hm
      simp only [holder, hm]
    · cases h
    · rename_i hm
      simp only [holder, hm]
  · simp only [holder, hl]

theorem not_unlocks_congr {m m' : LockMap} {lid : UInt64} (h : m'.lookup lid = m.lookup lid) :
    ¬ Unlocks m m' lid := by
  rintro ⟨hl, hf⟩
  rw [h, hl] at hf
  cases hf

theorem not_unlocks_acquire {m m' : LockMap} {clt : Int32} {lid lid' : UInt64}
    (h : LockServer.acquire m clt lid = some m') : ¬ Unlocks m m' lid' := by
  by_cases hlid : lid' = lid
  · rintro ⟨-, hf⟩
    have hl : m'.lookup lid = some ⟨.locked, clt⟩ := LockServer.lockedBy_acquire h
    rw [hlid, hl] at hf
    cases hf
  · exact not_unlocks_congr (LockServer.lookup_acquire_ne h hlid)

/-- A `release` frees the lock if its client has it. A stale one changes nothing. -/
theorem release_cases (m : LockMap) (clt : Int32) (lid : UInt64) :
    (holder m lid = some clt ∧ holder (LockServer.release m clt lid) lid = none ∧
        Unlocks m (LockServer.release m clt lid) lid) ∨
      (LockServer.release m clt lid).lookup lid = m.lookup lid := by
  cases hl : m.lookup lid with
  | none =>
      right
      simp only [LockServer.release, hl]
  | some l =>
      by_cases ho : l.owner = clt
      · have hr : LockServer.release m clt lid = m.insert lid { l with state := .free } := by
          simp only [LockServer.release, hl, if_pos ho]
        have hl' : (m.insert lid { l with state := .free }).lookup lid = some { l with state := .free } :=
          AList.lookup_insert _
        obtain ⟨st, o⟩ := l
        obtain rfl : o = clt := ho
        cases st with
        | free =>
            right
            rw [hr, hl']
        | locked =>
            left
            rw [hr]
            exact ⟨by simp only [holder, hl], by simp only [holder, hl'], by rw [hl]; rfl, by rw [hl']; rfl⟩
      · right
        simp only [LockServer.release, hl, if_neg ho]

theorem events_quiet {s : LockTable} {a : Act} {lid : UInt64}
    (hu : ¬ Unlocks s.locks (s.step a).locks lid) (hr : s.returned a lid = none) : s.events a lid = [] := by
  rw [events, if_neg hu, hr]
  rfl

theorem Alternating.step {s : LockTable} {lid : UInt64} (h : Alternating (s.log lid) (holder s.locks lid))
    (a : Act) : Alternating ((s.next a).log lid) (holder (s.next a).locks lid) := by
  have hlog : (s.next a).log lid = s.events a lid ++ s.log lid := rfl
  have hstep : (s.step a).locks = (s.next a).locks := rfl
  have hstay : (s.next a).locks.lookup lid = s.locks.lookup lid → s.returned a lid = none →
      Alternating ((s.next a).log lid) (holder (s.next a).locks lid) := by
    intro hl hr
    rw [hlog, events_quiet (not_unlocks_congr hl) hr, holder_congr hl]
    exact h
  have hls := locksStep s a
  rw [events, hstep] at hlog
  generalize (s.next a).locks = m at hls hstay hlog
  cases hls with
  | @returned clt lid' _ ha hm =>
      by_cases hlid : lid' = lid
      · subst hlid
        obtain ⟨hnone, hsome⟩ := holder_acquire hm
        have hr : s.returned a lid' = some clt := by simp [returned, ha, hm]
        rw [hlog, if_neg (not_unlocks_acquire hm), hr, hsome]
        rw [hnone] at h
        exact .acquired h
      · exact hstay (LockServer.lookup_acquire_ne hm (Ne.symm hlid)) (by simp [returned, ha, hlid])
  | @waits clt lid' ha hm => exact hstay rfl (by simp [returned, ha, hm])
  | @released clt lid' ha hr =>
      have hret : s.returned a lid = none := by simp only [returned, ha]
      by_cases hlid : lid' = lid
      · subst hlid
        rcases release_cases s.locks clt lid' with ⟨hsome, hnone, hu⟩ | hl
        · have hrel : releaser a lid' = some clt := by simp [releaser, hr]
          rw [hlog, if_pos hu, hrel, hret, hnone]
          rw [hsome] at h
          exact .freed h
        · exact hstay hl hret
      · exact hstay (LockServer.lookup_release_ne _ _ (Ne.symm hlid)) hret
  | other ha _ => exact hstay rfl (by simp only [returned, ha])

theorem lookup_next {s : LockTable} {a : Act} {lid : UInt64} (ha : s.target a ≠ some lid) :
    (s.next a).locks.lookup lid = s.locks.lookup lid := by
  have hls := locksStep s a
  generalize (s.next a).locks = m at hls
  cases hls with
  | @returned clt lid' _ hq hm =>
      apply LockServer.lookup_acquire_ne hm
      rintro rfl
      exact ha (by rw [target, hq]; rfl)
  | waits => rfl
  | @released clt lid' hq hr =>
      apply LockServer.lookup_release_ne _ _
      rintro rfl
      exact ha (by rw [target, hq, hr]; rfl)
  | other => rfl

theorem alternating_of_run {tr : List Act} {s : LockTable} (h : lts.Run tr s) (lid : UInt64) :
    Alternating (s.log lid) (holder s.locks lid) := by
  refine h.invariant (I := fun _ s => Alternating (s.log lid) (holder s.locks lid)) ?_ ?_
  · rintro s rfl
    exact .nil
  · intro tr s a _ hi _
    exact hi.step a

/-- Whatever the callers do, each lock is acquired and freed in turn, freed by a `release` of the client that
acquired it, and locked with that client as its owner just in between; a step on one lock leaves the others
alone. -/
theorem lock_alternation {tr : List Act} {s : LockTable} (h : lts.Run tr s) :
    (∀ lid, Alternating (s.log lid) (holder s.locks lid)) ∧
    ∀ a lid, s.target a ≠ some lid → (s.next a).locks.lookup lid = s.locks.lookup lid :=
  ⟨alternating_of_run h, fun _ _ ha => lookup_next ha⟩

/-- Two clients: the second waits until the first releases. -/
theorem lock_alternation_handover : ∃ tr s, lts.Run tr s ∧
    s.log 9 = [.acquired 2, .freed (some 1), .acquired 1] ∧ Alternating (s.log 9) (some 2) := by
  have h₁ : lts.Run [.acquire 0 1 9] _ := .step (.init rfl) rfl
  have h₂ : lts.Run [.acquire 1 2 9, .acquire 0 1 9] _ := .step h₁ rfl
  have h₃ : lts.Run (.release 0 1 9 (some 1) :: _) _ := .step h₂ ⟨rfl, ⟨_, rfl, rfl⟩, 2, rfl⟩
  have h₄ : lts.Run (.resume 1 :: _) _ := .step h₃ ⟨9, 2, rfl⟩
  exact ⟨_, _, h₄, by decide +kernel, (lock_alternation h₄).1 9⟩

/-! ## Wakeups -/

/-- If the lock is free and threads are blocked at it, one thread is on its way to it. -/
def Attended (s : LockTable) (lid : UInt64) : Prop :=
  ∀ clt, s.locks.lookup lid = some ⟨.free, clt⟩ → (∃ t, s.Blocked lid t) → ∃ t, s.Woken lid t

theorem elsewhere_out (lid : UInt64) : LockPc.Elsewhere .out lid := fun _ _ h => by cases h

theorem elsewhere_waiting {clt : Int32} {lid lid' : UInt64} {w : Bool} (h : lid' ≠ lid) :
    LockPc.Elsewhere (.waiting clt lid' w) lid := by
  intro clt' w' heq
  cases heq
  exact h rfl

variable {s s' : LockTable} {t : Tid} {q : LockPc} {lid : UInt64}

/-- A thread that moves elsewhere is neither missed nor counted at the lock. -/
theorem waiting_elsewhere (hs : s'.threads = Function.update s.threads t q)
    (hp : (s.threads t).Elsewhere lid) (hq : q.Elsewhere lid) (w : Bool) (t' : Tid) :
    (∃ clt, s'.threads t' = .waiting clt lid w) ↔ ∃ clt, s.threads t' = .waiting clt lid w := by
  rw [hs]
  by_cases htt : t' = t
  · subst htt
    rw [Function.update_self]
    constructor
    · rintro ⟨clt, h⟩
      exact absurd h (hq clt w)
    · rintro ⟨clt, h⟩
      exact absurd h (hp clt w)
  · rw [Function.update_of_ne htt]

theorem Attended.elsewhere (h : s.Attended lid) (hl : s'.locks.lookup lid = s.locks.lookup lid)
    (hs : s'.threads = Function.update s.threads t q) (hp : (s.threads t).Elsewhere lid)
    (hq : q.Elsewhere lid) : s'.Attended lid := by
  intro clt hfree hb
  obtain ⟨t₁, hb⟩ := hb
  obtain ⟨t₂, hw⟩ := h clt (hl ▸ hfree) ⟨t₁, (waiting_elsewhere hs hp hq false t₁).mp hb⟩
  exact ⟨t₂, (waiting_elsewhere hs hp hq true t₂).mpr hw⟩

theorem attended_of_locked {clt : Int32} (h : s.locks.lookup lid = some ⟨.locked, clt⟩) :
    s.Attended lid := by
  intro clt' hf
  rw [h] at hf
  cases hf

theorem locked_of_acquire_none {m : LockMap} {clt : Int32} (h : LockServer.acquire m clt lid = none) :
    ∃ clt', m.lookup lid = some ⟨.locked, clt'⟩ := by
  unfold LockServer.acquire at h
  split at h
  · cases h
  · exact ⟨_, by assumption⟩
  · cases h

theorem Attended.tryAcquire {clt : Int32} {lid' : UInt64} (h : s.Attended lid)
    (ht : ∀ lid, lid' ≠ lid → (s.threads t).Elsewhere lid) : (s.tryAcquire t clt lid').Attended lid := by
  rw [LockTable.tryAcquire]
  by_cases hlid : lid' = lid
  · subst hlid
    split
    · rename_i m hm
      exact attended_of_locked (LockServer.lockedBy_acquire hm)
    · rename_i hm
      obtain ⟨clt', hl⟩ := locked_of_acquire_none hm
      exact attended_of_locked (s := s.setThread t (.waiting clt lid' false)) hl
  · split
    · rename_i m hm
      exact h.elsewhere (LockServer.lookup_acquire_ne hm (Ne.symm hlid)) rfl (ht lid hlid) (elsewhere_out lid)
    · exact h.elsewhere rfl rfl (ht lid hlid) (elsewhere_waiting hlid)

/-- A thread blocked at a lock is woken. -/
theorem Attended.wake {lid' : UInt64} (h : lid' ≠ lid → s.Attended lid) (hb : s.Blocked lid' t) :
    (s.wake t).Attended lid := by
  obtain ⟨clt, ht⟩ := hb
  have hw : s.wake t = s.setThread t (.waiting clt lid' true) := by simp only [LockTable.wake, ht]
  rw [hw]
  by_cases hlid : lid' = lid
  · subst hlid
    exact fun _ _ _ => ⟨t, clt, Function.update_self ..⟩
  · exact (h hlid).elsewhere rfl rfl (ht ▸ elsewhere_waiting hlid) (elsewhere_waiting hlid)

theorem Attended.release {clt : Int32} {lid' : UInt64} (h : s.Attended lid)
    (hb : lid' = lid → Signals s.locks clt lid' → ∀ t', ¬ s.Blocked lid' t') :
    ({ s with locks := LockServer.release s.locks clt lid' } : LockTable).Attended lid := by
  by_cases hlid : lid' = lid
  · subst hlid
    by_cases hs : Signals s.locks clt lid'
    · rintro _ - ⟨t', hb'⟩
      exact absurd hb' (hb rfl hs t')
    · have hl : LockServer.release s.locks clt lid' = s.locks := by
        unfold LockServer.release
        split
        · rename_i l hl
          rw [if_neg fun ho => hs ⟨l, hl, ho⟩]
        · rfl
      rw [hl]
      exact h
  · intro clt' hf
    exact h clt' ((LockServer.lookup_release_ne s.locks clt (Ne.symm hlid)).symm.trans hf)

theorem Attended.step {a : Act} (h : ∀ lid, s.Attended lid) (hg : guard s a) (lid : UInt64) :
    (s.step a).Attended lid := by
  cases a with
  | acquire t clt lid' =>
      exact (h lid).tryAcquire fun lid _ => (show s.threads t = .out from hg) ▸ elsewhere_out lid
  | resume t =>
      obtain ⟨lid', clt, ht⟩ := hg
      simp only [LockTable.step, ht]
      exact (h lid).tryAcquire fun lid hne => ht ▸ elsewhere_waiting hne
  | release t clt lid' signals =>
      cases signals with
      | none => exact (h lid).release fun _ => hg.2
      | some t' =>
          refine Attended.wake (fun hne : lid' ≠ _ => ?_) hg.2.2
          exact (h lid).release fun heq => absurd heq hne
  | spurious t =>
      obtain ⟨lid', hb⟩ := hg
      exact Attended.wake (fun _ => h lid) hb

theorem attended_of_run {tr : List Act} {s : LockTable} (h : lts.Run tr s) (lid : UInt64) : s.Attended lid := by
  have hall : ∀ lid, s.Attended lid := by
    refine h.invariant (I := fun _ s => ∀ lid, s.Attended lid) ?_ ?_
    · rintro s rfl lid clt hf
      cases hf
    · intro tr s a _ hi hg lid
      exact Attended.step hi hg lid
  exact hall lid

/-- No wakeup is lost: where a lock is free and an `acquire` is blocked at it, another one is woken and has
not looked at the lock again. -/
theorem no_lost_wakeup {tr : List Act} {s : LockTable} (h : lts.Run tr s) {lid : UInt64} {clt : Int32}
    {t : Tid} (hf : s.locks.lookup lid = some ⟨.free, clt⟩) (hb : s.Blocked lid t) :
    ∃ t', s.Woken lid t' :=
  attended_of_run h lid clt hf ⟨t, hb⟩

/-- Two threads wait, and the release wakes one of them. -/
theorem no_lost_wakeup_two : ∃ tr s, lts.Run tr s ∧ s.Blocked 9 2 ∧ ∃ t, s.Woken 9 t := by
  have h₁ : lts.Run [.acquire 0 1 9] _ := .step (.init rfl) rfl
  have h₂ : lts.Run (.acquire 1 2 9 :: _) _ := .step h₁ rfl
  have h₃ : lts.Run (.acquire 2 3 9 :: _) _ := .step h₂ rfl
  have h₄ : lts.Run (.release 0 1 9 (some 1) :: _) _ := .step h₃ ⟨rfl, ⟨_, rfl, rfl⟩, 2, rfl⟩
  exact ⟨_, _, h₄, ⟨3, rfl⟩, no_lost_wakeup (t := 2) h₄ rfl ⟨3, rfl⟩⟩

end LockTable
end StanDfs
