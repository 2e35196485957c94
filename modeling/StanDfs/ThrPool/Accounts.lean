import Mathlib.Data.List.ReduceOption
import StanDfs.Lib.Holders
import StanDfs.ThrPool.Moves

/-!
# Jobs and pills in the pool

Pills come after all jobs in the queue, so the first worker that takes one finds no job behind it. Each
worker stops at its first pill, and there are as many pills as workers.
-/

namespace StanDfs

/-- One if the worker has not stopped. -/
def WorkerPc.live {J : Type*} : WorkerPc J → Nat
  | .stopped => 0
  | _ => 1

theorem WorkerPc.stopped_of_live {J : Type*} {p : WorkerPc J} (h : p.live = 0) : p = .stopped := by
  cases p with
  | stopped => rfl
  | _ => cases h

def WorkerPc.job {J : Type*} : WorkerPc J → Multiset J
  | .running j => {j}
  | _ => 0

/-- One if the worker has been woken and has not got the mutex. -/
def WorkerPc.woken {J : Type*} : WorkerPc J → Nat
  | .blocked true => 1
  | _ => 0

/-- How many pills the destructor has still to enqueue. -/
def DtorPc.toEnqueue (sz : Nat) : DtorPc → Nat
  | .out => sz
  | .enqueuing i _ => sz - i
  | .joining _ => 0
  | .done => 0

namespace ThrPool

variable {J : Type*} {e : Env} {s s' : ThrPool J} {a : Act J}

/-- How many workers have not stopped. -/
def alive (e : Env) (s : ThrPool J) : Nat := Holders.total (Finset.range e.sz) WorkerPc.live s.workers

/-- How many pills no worker has taken: those in the queue, and those still to be enqueued. -/
def pillsLeft (e : Env) (s : ThrPool J) : Nat := s.q.countP Option.isNone + s.dtor.toEnqueue e.sz

/-- The jobs in the queue -/
def queued (s : ThrPool J) : Multiset J := (s.q.reduceOption : Multiset J)

/-- The jobs that workers have taken and not finished. -/
def running (e : Env) (s : ThrPool J) : Multiset J :=
  Holders.total (Finset.range e.sz) WorkerPc.job s.workers

/-! ## Signals -/

theorem total_woken {M : Type*} [AddCommMonoid M] {g : WorkerPc J → M} (H : Finset Nat) {x : Option Nat}
    (hg : g (.blocked true) = g (.blocked false)) (hx : s.WakesWorker e x) :
    Holders.total H g (woken s.workers x) = Holders.total H g s.workers := by
  cases x with
  | none => rfl
  | some w => exact Holders.total_update_of_eq H (by rw [hg, hx.2])

theorem woken_of_ne {x : Option Nat} {w : Nat} {p : WorkerPc J} (hx : s.WakesWorker e x)
    (ht : p ≠ .blocked true) (hf : p ≠ .blocked false) : woken s.workers x w = p ↔ s.workers w = p := by
  cases x with
  | none => rfl
  | some v =>
      by_cases hv : w = v
      · simp only [woken, hv, Function.update_self, hx.2]
        exact ⟨fun h => absurd h.symm ht, fun h => absurd h.symm hf⟩
      · simp only [woken, Function.update_of_ne hv]

theorem Awake.ne {w : Nat} (h : s.Awake w) : s.workers w ≠ .stopped ∧ ∀ j, s.workers w ≠ .running j := by
  rcases h with h | h <;> rw [h] <;> simp

theorem Awake.live {w : Nat} (h : s.Awake w) : (s.workers w).live = 1 ∧ (s.workers w).job = 0 := by
  rcases h with h | h <;> rw [h] <;> exact ⟨rfl, rfl⟩

/-! ## The order of the queue -/

/-- Pills are behind the jobs. There is none before the destructor has started, and once a worker has
stopped there are only pills. -/
structure Ordered (s : ThrPool J) : Prop where
  pairwise : s.q.Pairwise fun a b => a = none → b = none
  before : s.dtor = .out → (∀ a ∈ s.q, a ≠ none) ∧ ∀ w, s.workers w ≠ .stopped
  after : ∀ w, s.workers w = .stopped → ∀ a ∈ s.q, a = none

/-- The queue is the same or shorter, and no worker has stopped. -/
theorem Ordered.of_sublist (h : Ordered s) (hq : s'.q.Sublist s.q) (hd : s'.dtor = .out ↔ s.dtor = .out)
    (hw : ∀ w, s'.workers w = .stopped → s.workers w = .stopped) : Ordered s' where
  pairwise := h.pairwise.sublist hq
  before hout :=
    have hb := h.before (hd.mp hout)
    ⟨fun a ha => hb.1 a (hq.mem ha), fun w hs => hb.2 w (hw w hs)⟩
  after w hs a ha := h.after w (hw w hs) a (hq.mem ha)

theorem stopped_of_update {f : Nat → WorkerPc J} {w v : Nat} {p : WorkerPc J} (hp : p ≠ .stopped)
    (h : Function.update f w p v = .stopped) : f v = .stopped := by
  by_cases hv : v = w
  · rw [hv, Function.update_self] at h
    exact absurd h hp
  · rwa [Function.update_of_ne hv] at h

theorem Ordered.step (h : Ordered s) (hm : Moves e s a s') : Ordered s' := by
  cases hm with
  | @accept _ j x ad hd hx =>
      have hb := h.before hd
      have hs : ∀ w, woken s.workers x w ≠ .stopped := fun w hw =>
        hb.2 w ((woken_of_ne hx (by simp) (by simp)).mp hw)
      refine ⟨?_, fun _ => ⟨?_, hs⟩, fun w hw => absurd hw (hs w)⟩
      · rw [List.pairwise_append]
        exact ⟨h.pairwise, List.pairwise_singleton _ _, fun a ha _ _ hn => absurd hn (hb.1 a ha)⟩
      · intro a ha
        rcases List.mem_append.mp ha with ha | ha
        · exact hb.1 a ha
        · rw [List.mem_singleton.mp ha]
          simp
  | refuse hd => exact h.of_sublist (.refl _) .rfl fun _ => id
  | destroy hd =>
      refine ⟨h.pairwise, fun hout => ?_, h.after⟩
      by_cases hz : 0 < e.sz
      · simp only [if_pos hz] at hout
        cases hout
      · simp only [if_neg hz] at hout
        cases hout
  | @pill i b x hd _ hx =>
      refine ⟨?_, fun hout => ?_, fun w hw a ha => ?_⟩
      · rw [List.pairwise_append]
        exact ⟨h.pairwise, List.pairwise_singleton _ _, fun _ _ a ha _ => List.mem_singleton.mp ha⟩
      · simp only [afterPill] at hout
        split at hout <;> cases hout
      · rcases List.mem_append.mp ha with ha | ha
        · exact h.after w ((woken_of_ne hx (by simp) (by simp)).mp hw) a ha
        · exact List.mem_singleton.mp ha
  | @full i b x hd _ _ => exact h.of_sublist (.refl _) (by simp [hd]) fun _ => id
  | sleep _ _ _ => exact h.of_sublist (.refl _) .rfl fun _ => stopped_of_update (by simp)
  | @take w x j q ad d _ _ hq hp =>
      exact h.of_sublist (hq ▸ List.sublist_cons_self _ _) hp.1.out_iff fun _ => stopped_of_update (by simp)
  | @takePill w x q ad d _ _ hq hp =>
      have hpw := h.pairwise
      rw [hq, List.pairwise_cons] at hpw
      refine ⟨hpw.2, fun hout => ?_, fun _ _ a ha => hpw.1 a ha rfl⟩
      exact absurd rfl ((h.before (hp.1.out_iff.mp hout)).1 none (hq ▸ List.mem_cons_self))
  | finish _ _ => exact h.of_sublist (.refl _) .rfl fun _ => stopped_of_update (by simp)
  | @join i hd _ =>
      refine h.of_sublist (.refl _) ?_ fun _ => id
      simp only [afterJoin, hd]
      split <;> simp
  | spurious _ => exact h.of_sublist (.refl _) .rfl fun _ => stopped_of_update (by simp)
  | spuriousSpace hw => exact h.of_sublist (.refl _) hw.out_iff fun _ => id

/-! ## Where the destructor is -/

/-- A worker that has stopped does nothing any more. -/
theorem Moves.stopped {w : Nat} (hm : Moves e s a s') (hw : s.workers w = .stopped) :
    s'.workers w = .stopped := by
  have hkeep : ∀ {v p}, s.workers v ≠ .stopped → Function.update s.workers v p w = .stopped := by
    intro v p hv
    rw [Function.update_of_ne fun h => hv (by rw [← h, hw]), hw]
  cases hm with
  | accept _ hx => exact (woken_of_ne hx (by simp) (by simp)).mpr hw
  | refuse _ => exact hw
  | destroy _ => exact hw
  | pill _ _ hx => exact (woken_of_ne hx (by simp) (by simp)).mpr hw
  | full _ _ _ => exact hw
  | sleep _ haw _ => exact hkeep haw.ne.1
  | take _ haw _ _ => exact hkeep haw.ne.1
  | takePill _ haw _ _ => exact hkeep haw.ne.1
  | finish _ hj => exact hkeep (by rw [hj]; simp)
  | join _ _ => exact hw
  | spurious hx => exact hkeep (by rw [hx.2]; simp)
  | spuriousSpace _ => exact hw

/-- The destructor joins the workers in turn, after it has enqueued a pill for each. -/
def Joined (e : Env) (f : Nat → WorkerPc J) : DtorPc → Prop
  | .out => True
  | .enqueuing i _ => i < e.sz
  | .joining i => i < e.sz ∧ ∀ w < i, f w = .stopped
  | .done => ∀ w < e.sz, f w = .stopped

theorem Joined.mono {f f' : Nat → WorkerPc J} {d : DtorPc} (h : Joined e f d)
    (hf : ∀ w, f w = .stopped → f' w = .stopped) : Joined e f' d := by
  cases d with
  | out => trivial
  | enqueuing i b => exact h
  | joining i => exact ⟨h.1, fun w hw => hf w (h.2 w hw)⟩
  | done => exact fun w hw => hf w (h w hw)

theorem Joined.woken {f : Nat → WorkerPc J} {d d' : DtorPc} (h : Joined e f d) (hd : SpaceWoken d d') :
    Joined e f d' := by
  rcases hd with rfl | ⟨i, b, rfl, rfl⟩
  · exact h
  · exact h

theorem Joined.step (hz : 0 < e.sz) (h : Joined e s.workers s.dtor) (hm : Moves e s a s') :
    Joined e s'.workers s'.dtor := by
  refine Joined.mono ?_ fun w => hm.stopped
  cases hm with
  | accept _ _ => exact h
  | refuse _ => exact h
  | destroy _ =>
      simp only [if_pos hz]
      exact hz
  | @pill i b x hd _ _ =>
      rw [hd] at h
      by_cases hi : i + 1 < e.sz
      · simp only [afterPill, if_pos hi]
        exact hi
      · simp only [afterPill, if_neg hi]
        exact ⟨hz, fun w hw => absurd hw (by omega)⟩
  | @full i b x hd _ _ =>
      rw [hd] at h
      exact h
  | sleep _ _ _ => exact h
  | take _ _ _ hp => exact h.woken hp.1
  | takePill _ _ _ hp => exact h.woken hp.1
  | finish _ _ => exact h
  | @join i hd hi =>
      rw [hd] at h
      have hlt : ∀ w < i + 1, s.workers w = .stopped := by
        intro w hw
        rcases Nat.lt_succ_iff_lt_or_eq.mp hw with hw | rfl
        · exact h.2 w hw
        · exact hi
      by_cases hlast : i + 1 < e.sz
      · simp only [afterJoin, if_pos hlast]
        exact ⟨hlast, hlt⟩
      · simp only [afterJoin, if_neg hlast]
        exact fun w hw => hlt w (by omega)
  | spurious _ => exact h
  | spuriousSpace hw => exact h.woken hw

/-! ## Pills, workers and jobs are accounted for -/

/-- Each worker takes one pill, and stops at it. -/
def OnePill (s : ThrPool J) : Prop := ∀ w, s.pills w + (s.workers w).live = 1

/-- There are as many pills to be taken as workers to take one. -/
def Enough (e : Env) (s : ThrPool J) : Prop := pillsLeft e s = alive e s

/-- Each accepted job is in the queue, with one worker, or has been run. -/
def Accounted (e : Env) (s : ThrPool J) : Prop := s.queued + s.running e + s.ran = s.accepted

theorem OnePill.of_live (h : OnePill s) (hp : s'.pills = s.pills)
    (hl : ∀ w, (s'.workers w).live = (s.workers w).live) : OnePill s' := by
  intro w
  rw [hp, hl]
  exact h w

theorem live_update {f : Nat → WorkerPc J} {v : Nat} {p : WorkerPc J} (hp : p.live = (f v).live) (w : Nat) :
    (Function.update f v p w).live = (f w).live := by
  by_cases hw : w = v
  · rw [hw, Function.update_self, hp]
  · rw [Function.update_of_ne hw]

theorem live_woken {x : Option Nat} (hx : s.WakesWorker e x) (w : Nat) :
    (woken s.workers x w).live = (s.workers w).live := by
  cases x with
  | none => rfl
  | some v => exact live_update (by rw [hx.2]; rfl) w

theorem OnePill.step (h : OnePill s) (hm : Moves e s a s') : OnePill s' := by
  cases hm with
  | accept _ hx => exact h.of_live rfl (live_woken hx)
  | refuse _ => exact h
  | destroy _ => exact h
  | pill _ _ hx => exact h.of_live rfl (live_woken hx)
  | full _ _ _ => exact h
  | sleep _ haw _ => exact h.of_live rfl (live_update haw.live.1.symm)
  | take _ haw _ _ => exact h.of_live rfl (live_update haw.live.1.symm)
  | @takePill w x q ad d _ haw _ _ =>
      intro v
      have hv := h v
      by_cases hw : v = w
      · subst hw
        rw [haw.live.1] at hv
        simp only [setWorker, Function.update_self, WorkerPc.live]
        omega
      · simpa only [setWorker, Function.update_of_ne hw] using hv
  | finish _ hj => exact h.of_live rfl (live_update (by rw [hj]; rfl))
  | join _ _ => exact h
  | spurious hx => exact h.of_live rfl (live_update (by rw [hx.2]; rfl))
  | spuriousSpace _ => exact h

theorem toEnqueue_woken {d d' : DtorPc} (h : SpaceWoken d d') : d'.toEnqueue e.sz = d.toEnqueue e.sz := by
  rcases h with rfl | ⟨i, b, rfl, rfl⟩
  · rfl
  · rfl

theorem alive_update {w : Nat} {p : WorkerPc J} (hp : p.live = (s.workers w).live) :
    Holders.total (Finset.range e.sz) WorkerPc.live (Function.update s.workers w p) = alive e s :=
  Holders.total_update_of_eq _ hp

theorem Enough.step (hz : 0 < e.sz) (hj : Joined e s.workers s.dtor) (h : Enough e s) (hm : Moves e s a s') :
    Enough e s' := by
  unfold Enough at h
  cases hm with
  | accept _ hx =>
      simp only [Enough, pillsLeft, alive, total_woken _ (rfl : WorkerPc.live _ = _) hx]
      rw [List.countP_append, List.countP_singleton]
      exact h
  | refuse _ => exact h
  | destroy hd =>
      rw [Enough, pillsLeft, if_pos hz]
      rwa [pillsLeft, hd] at h
  | @pill i b x hd _ hx =>
      rw [hd] at hj
      rw [pillsLeft, hd] at h
      have hto : (DtorPc.enqueuing i b).toEnqueue e.sz = (afterPill e (i + 1)).toEnqueue e.sz + 1 := by
        simp only [Joined] at hj
        simp only [afterPill]
        split <;> simp only [DtorPc.toEnqueue] <;> omega
      simp only [Enough, pillsLeft, alive, total_woken _ (rfl : WorkerPc.live _ = _) hx]
      rw [List.countP_append, List.countP_singleton, ← alive, ← h, hto]
      simp only [Option.isNone_none, if_true]
      omega
  | full hd _ _ =>
      rw [pillsLeft, hd] at h
      exact h
  | sleep _ haw _ => exact h.trans (alive_update (p := .blocked false) haw.live.1.symm).symm
  | @take _ _ j _ _ _ _ haw hq hp =>
      rw [pillsLeft, hq, List.countP_cons_of_neg (by simp)] at h
      rw [Enough, pillsLeft, toEnqueue_woken hp.1]
      exact h.trans (alive_update (p := .running j) haw.live.1.symm).symm
  | @takePill w x q ad d hw haw hq hp =>
      rw [pillsLeft, hq, List.countP_cons_of_pos (by simp)] at h
      have hu := Holders.total_update WorkerPc.live s.workers .stopped (Finset.mem_range.mpr hw)
      rw [haw.live.1, ← alive] at hu
      simp only [Enough, pillsLeft, toEnqueue_woken hp.1, alive, setWorker]
      simp only [WorkerPc.live] at hu
      omega
  | finish _ hj => exact h.trans (alive_update (by rw [hj]; rfl)).symm
  | @join i hd _ =>
      rw [pillsLeft, hd] at h
      have hto : (afterJoin e (i + 1)).toEnqueue e.sz = 0 := by
        simp only [afterJoin]
        split <;> rfl
      rw [Enough, pillsLeft, hto]
      exact h
  | spurious hx => exact h.trans (alive_update (by rw [hx.2]; rfl)).symm
  | spuriousSpace hw =>
      rw [Enough, pillsLeft, toEnqueue_woken hw]
      exact h

theorem Accounted.of_eq (h : Accounted e s) (hq : s'.q = s.q) (hr : s'.running e = s.running e)
    (hran : s'.ran = s.ran) (hacc : s'.accepted = s.accepted) : Accounted e s' := by
  rw [Accounted, queued, hq, hr, hran, hacc]
  exact h

theorem running_update {w : Nat} {p : WorkerPc J} (hp : p.job = (s.workers w).job) :
    Holders.total (Finset.range e.sz) WorkerPc.job (Function.update s.workers w p) = running e s :=
  Holders.total_update_of_eq _ hp

theorem Accounted.step (h : Accounted e s) (hm : Moves e s a s') : Accounted e s' := by
  cases hm with
  | @accept _ j x ad _ hx =>
      simp only [Accounted, queued, running, total_woken _ (rfl : WorkerPc.job _ = _) hx,
        List.reduceOption_append, List.reduceOption_singleton, Option.toList_some, ← Multiset.coe_add]
      rw [← h, queued, running]
      ac_rfl
  | refuse _ => exact h
  | destroy _ => exact h
  | pill _ _ hx =>
      simp only [Accounted, queued, running, total_woken _ (rfl : WorkerPc.job _ = _) hx,
        List.reduceOption_append, List.reduceOption_singleton, Option.toList_none, List.append_nil]
      exact h
  | full _ _ _ => exact h
  | sleep _ haw _ => exact h.of_eq rfl (running_update (p := .blocked false) haw.live.2.symm) rfl rfl
  | @take w x j q ad d hw haw hq _ =>
      have hu := Holders.total_update WorkerPc.job s.workers (.running j) (Finset.mem_range.mpr hw)
      rw [haw.live.2, add_zero] at hu
      rw [Accounted, queued, hq, List.reduceOption_cons_of_some, ← Multiset.cons_coe] at h
      simp only [Accounted, queued, running, setWorker, hu]
      rw [← h, running, ← Multiset.singleton_add]
      simp only [WorkerPc.job]
      ac_rfl
  | @takePill w x q ad d hw haw hq _ =>
      rw [Accounted, queued, hq, List.reduceOption_cons_of_none] at h
      have hu := running_update (e := e) (p := .stopped) haw.live.2.symm
      simp only [Accounted, queued, running, setWorker, hu]
      exact h
  | @finish w j hw hj =>
      have hu := Holders.total_update WorkerPc.job s.workers .ready (Finset.mem_range.mpr hw)
      simp only [hj, WorkerPc.job, add_zero] at hu
      simp only [Accounted, queued, running, setWorker, ← Multiset.coe_add, Multiset.coe_singleton]
      rw [← h, queued, running, ← hu]
      ac_rfl
  | join _ _ => exact h
  | spurious hx => exact h.of_eq rfl (running_update (by rw [hx.2]; rfl)) rfl rfl
  | spuriousSpace _ => exact h

/-! ## No wakeup is lost -/

/-- While a worker sleeps, there is a woken worker for each element of the queue. -/
def Signalled (e : Env) (s : ThrPool J) : Prop :=
  (∃ w, s.Sleeps e w) → s.q.length ≤ Holders.total (Finset.range e.sz) WorkerPc.woken s.workers

/-- While the destructor sleeps, the queue is full. -/
def SpaceSignalled (e : Env) (s : ThrPool J) : Prop :=
  ∀ i, s.dtor = .enqueuing i (some false) → e.max ≤ s.q.length

theorem sleeps_of_update {w v : Nat} {p : WorkerPc J} (hp : p ≠ .blocked false)
    (h : v < e.sz ∧ Function.update s.workers w p v = .blocked false) : s.Sleeps e v := by
  obtain ⟨hlt, hv⟩ := h
  by_cases hw : v = w
  · rw [hw, Function.update_self] at hv
    exact absurd hv hp
  · rw [Function.update_of_ne hw] at hv
    exact ⟨hlt, hv⟩

/-- One more element, and one more woken worker. -/
theorem Signalled.push (h : Signalled e s) {x : Option Nat} (hx : s.WakesWorker e x)
    (hs : ∃ w, w < e.sz ∧ ThrPool.woken s.workers x w = .blocked false) :
    s.q.length + 1 ≤ Holders.total (Finset.range e.sz) WorkerPc.woken (ThrPool.woken s.workers x) := by
  cases x with
  | none =>
      obtain ⟨w, hw⟩ := hs
      exact absurd hw (hx w)
  | some w =>
      have hle := h ⟨w, hx⟩
      have hu := Holders.total_update WorkerPc.woken s.workers (.blocked true) (Finset.mem_range.mpr hx.1)
      rw [hx.2] at hu
      simp only [WorkerPc.woken] at hu
      simp only [ThrPool.woken]
      omega

/-- One element less, and a woken worker less at most. -/
theorem Signalled.pop (h : Signalled e s) {w : Nat} {p : WorkerPc J} {n : Nat} (hw : w < e.sz)
    (haw : s.Awake w) (hn : s.q.length = n + 1) (hp : p ≠ .blocked false)
    (hs : ∃ v, v < e.sz ∧ Function.update s.workers w p v = .blocked false) :
    n ≤ Holders.total (Finset.range e.sz) WorkerPc.woken (Function.update s.workers w p) := by
  have hle := h (hs.imp fun v hv => sleeps_of_update hp hv)
  have hu := Holders.total_update WorkerPc.woken s.workers p (Finset.mem_range.mpr hw)
  have hone : (s.workers w).woken ≤ 1 := by
    rcases haw with haw | haw <;> rw [haw] <;> simp [WorkerPc.woken]
  omega

theorem Signalled.step (h : Signalled e s) (hm : Moves e s a s') : Signalled e s' := by
  cases hm with
  | accept _ hx =>
      intro hs
      rw [List.length_append]
      exact h.push hx hs
  | refuse _ => exact h
  | destroy _ => exact h
  | pill _ _ hx =>
      intro hs
      rw [List.length_append]
      exact h.push hx hs
  | full _ _ _ => exact h
  | sleep _ _ hq =>
      intro _
      simp only [setWorker, hq]
      exact Nat.zero_le _
  | take hw haw hq _ => exact h.pop hw haw (by rw [hq]; rfl) (by simp)
  | takePill hw haw hq _ => exact h.pop hw haw (by rw [hq]; rfl) (by simp)
  | @finish w j hw hj =>
      intro hs
      have hle := h (hs.imp fun v hv => sleeps_of_update (by simp) hv)
      have hu := Holders.total_update_of_eq (g := WorkerPc.woken) (Finset.range e.sz) (f := s.workers) (a := w)
        (c := .ready) (by rw [hj]; rfl)
      simp only [setWorker, hu]
      exact hle
  | join _ _ => exact h
  | @spurious w hx =>
      intro _
      have hle := h ⟨w, hx⟩
      have hu := Holders.total_update WorkerPc.woken s.workers (.blocked true) (Finset.mem_range.mpr hx.1)
      rw [hx.2] at hu
      simp only [WorkerPc.woken] at hu
      simp only [setWorker]
      omega
  | spuriousSpace _ => exact h

theorem SpaceSignalled.step (h : SpaceSignalled e s) (hm : Moves e s a s') : SpaceSignalled e s' := by
  cases hm with
  | accept hd _ =>
      intro i hi
      exact absurd (hd.symm.trans hi) (by simp)
  | refuse hd =>
      intro i hi
      exact absurd (hd.symm.trans hi) (by simp)
  | destroy _ =>
      intro i hi
      simp only at hi
      split at hi <;> cases hi
  | pill _ _ _ =>
      intro i hi
      simp only [afterPill] at hi
      split at hi <;> cases hi
  | full _ _ hfull => exact fun _ _ => hfull
  | sleep _ _ _ => exact h
  | take _ _ _ hp => exact hp.2
  | takePill _ _ _ hp => exact hp.2
  | finish _ _ => exact h
  | join _ _ =>
      intro i hi
      simp only [afterJoin] at hi
      split at hi <;> cases hi
  | spurious _ => exact h
  | spuriousSpace hw =>
      intro i hi
      rcases hw with hw | ⟨i', b, _, hw⟩
      · exact h i (hw.symm.trans hi)
      · exact absurd (hw.symm.trans hi) (by simp)

/-! ## The invariant -/

structure Sound (e : Env) (s : ThrPool J) : Prop where
  quiet : Quiet s
  ordered : Ordered s
  joined : Joined e s.workers s.dtor
  onePill : OnePill s
  enough : Enough e s
  accounted : Accounted e s
  signalled : Signalled e s
  spaceSignalled : SpaceSignalled e s

theorem sound_init (e : Env) : Sound e (init : ThrPool J) where
  quiet := fun h => absurd rfl h
  ordered := ⟨.nil, fun _ => ⟨fun _ ha => absurd ha List.not_mem_nil, fun _ h => nomatch h⟩, fun _ h => nomatch h⟩
  joined := trivial
  onePill := fun _ => rfl
  enough := by simp [Enough, pillsLeft, alive, init, DtorPc.toEnqueue, Holders.total, WorkerPc.live]
  accounted := by simp [Accounted, queued, running, init, Holders.total, WorkerPc.job]
  signalled := fun _ => Nat.zero_le _
  spaceSignalled := fun _ h => nomatch h

theorem sound_of_run (hz : 0 < e.sz) {tr : List (Act J)} (h : (lts e).Run tr s) : Sound e s := by
  refine Lts.Run.invariant (I := fun _ s => Sound e s) ?_ ?_ h
  · rintro _ rfl
    exact sound_init e
  · intro tr s a hr hi hg
    have hm := moves_of_guard hz hi.quiet hg
    exact {
      quiet := quiet_of_run (.step hr hg)
      ordered := hi.ordered.step hm
      joined := hi.joined.step hz hm
      onePill := hi.onePill.step hm
      enough := hi.enough.step hz hi.joined hm
      accounted := hi.accounted.step hm
      signalled := hi.signalled.step hm
      spaceSignalled := hi.spaceSignalled.step hm }

end ThrPool
end StanDfs
