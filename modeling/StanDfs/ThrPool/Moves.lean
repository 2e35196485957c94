import StanDfs.ThrPool.Basic

/-!
# What a step of the pool can do

A step that signals wakes one thread. Once the destructor has started, it is the only thread that can wait
for space.
-/

namespace StanDfs
namespace ThrPool

variable {J : Type*} {e : Env} {s : ThrPool J}

/-- The workers after a signal on `non_empty_c_`. -/
def woken (f : Nat → WorkerPc J) : Option Nat → Nat → WorkerPc J
  | some w => Function.update f w (.blocked true)
  | none => f

theorem signalNonEmpty_eq (s : ThrPool J) (x : Option Nat) :
    s.signalNonEmpty x = { s with workers := woken s.workers x } := by
  cases x with
  | none => rfl
  | some w => rfl

/-- The destructor is where it was, or its wait for space is over. -/
def SpaceWoken (d d' : DtorPc) : Prop :=
  d' = d ∨ ∃ i b, d = .enqueuing i (some b) ∧ d' = .enqueuing i (some true)

/-- Only the threads that wait for space change, and those that wait for nothing do not. -/
theorem wakeSpace_frame (s : ThrPool J) (x : SpaceWaiter) :
    ∃ ad d, s.wakeSpace x = { s with adders := ad, dtor := d } ∧ SpaceWoken s.dtor d ∧
      ((∀ t, s.adders t = .out) → ad = s.adders) := by
  cases x with
  | adder t =>
      cases ht : s.adders t with
      | out => exact ⟨s.adders, s.dtor, by simp only [wakeSpace, ht], .inl rfl, fun _ => rfl⟩
      | blocked j w =>
          refine ⟨_, s.dtor, by simp only [wakeSpace, ht]; rfl, .inl rfl, fun h => ?_⟩
          rw [h t] at ht
          cases ht
  | dtor =>
      rcases s with ⟨q, ws, ad, d, acc, ran, pills⟩
      cases d with
      | out => exact ⟨ad, _, rfl, .inl rfl, fun _ => rfl⟩
      | joining i => exact ⟨ad, _, rfl, .inl rfl, fun _ => rfl⟩
      | done => exact ⟨ad, _, rfl, .inl rfl, fun _ => rfl⟩
      | enqueuing i b =>
          cases b with
          | none => exact ⟨ad, _, rfl, .inl rfl, fun _ => rfl⟩
          | some b => exact ⟨ad, _, rfl, .inr ⟨i, b, rfl, rfl⟩, fun _ => rfl⟩

/-- The first of the queue is taken, and `q` is left. -/
def pop (e : Env) (s : ThrPool J) (q : List (JobT J)) (signals : Option SpaceWaiter) : ThrPool J :=
  if e.max ≠ 0 ∧ q.length < e.max then { s with q := q }.signalHasSpace signals else { s with q := q }

theorem pop_frame (e : Env) (s : ThrPool J) (q : List (JobT J)) (x : Option SpaceWaiter) :
    ∃ ad d, pop e s q x = { s with q := q, adders := ad, dtor := d } ∧ SpaceWoken s.dtor d ∧
      ((∀ t, s.adders t = .out) → ad = s.adders) := by
  by_cases hc : e.max ≠ 0 ∧ q.length < e.max
  · rw [pop, if_pos hc]
    cases x with
    | none => exact ⟨s.adders, s.dtor, rfl, .inl rfl, fun _ => rfl⟩
    | some x => exact wakeSpace_frame { s with q := q } x
  · rw [pop, if_neg hc]
    exact ⟨s.adders, s.dtor, rfl, .inl rfl, fun _ => rfl⟩

theorem tryAdd_dtor (s : ThrPool J) (t : Nat) (j : J) (x : Option Nat) : (s.tryAdd e t j x).dtor = s.dtor := by
  unfold tryAdd
  split
  · rw [signalNonEmpty_eq]
    rfl
  · split <;> rfl

/-! ## No thread is in `addJob` once the destructor has started -/

def Quiet (s : ThrPool J) : Prop := s.dtor ≠ .out → ∀ t, s.adders t = .out

theorem SpaceWoken.out_iff {d d' : DtorPc} (h : SpaceWoken d d') : d' = .out ↔ d = .out := by
  rcases h with rfl | ⟨i, b, rfl, rfl⟩
  · rfl
  · simp

/-- Threads may have been woken. -/
theorem Quiet.of_woken {s' : ThrPool J} (hq : Quiet s) (hw : SpaceWoken s.dtor s'.dtor)
    (hs : (∀ t, s.adders t = .out) → s'.adders = s.adders) : Quiet s' := by
  intro hne t
  have hout := hq fun h => hne (hw.out_iff.mpr h)
  rw [hs hout]
  exact hout t

theorem Quiet.of_eq {s' : ThrPool J} (hq : Quiet s) (hd : s'.dtor = .out ∨ s.dtor ≠ .out)
    (ha : s'.adders = s.adders) : Quiet s' := by
  intro hne t
  rw [ha]
  exact hq (hd.resolve_left hne) t

theorem tryTake_adders (e : Env) (s : ThrPool J) (w : Nat) (x : Option SpaceWaiter) :
    SpaceWoken s.dtor (s.tryTake e w x).dtor ∧
      ((∀ t, s.adders t = .out) → (s.tryTake e w x).adders = s.adders) := by
  unfold tryTake
  cases hq : s.q with
  | nil => exact ⟨.inl rfl, fun _ => rfl⟩
  | cons j q =>
      obtain ⟨ad, d, hp, hw, ha⟩ := pop_frame e s q x
      unfold pop at hp
      cases j with
      | some j =>
          simp only [hp]
          exact ⟨hw, ha⟩
      | none =>
          simp only [hp]
          exact ⟨hw, ha⟩

theorem quiet_of_run {tr : List (Act J)} (h : (lts e).Run tr s) : Quiet s := by
  refine Lts.Run.invariant (I := fun _ s => Quiet s) ?_ ?_ h
  · rintro _ rfl hne
    exact absurd rfl hne
  · rintro _ s a _ hq hg
    cases a with
    | addJob t j x => exact fun hne => absurd ((tryAdd_dtor s t j x).trans hg.1) hne
    | resume t j x =>
        intro hne
        have ht := hq (fun h => hne ((tryAdd_dtor s t j x).trans h)) t
        rw [hg.1] at ht
        cases ht
    | destroy => exact fun _ => hg.2
    | enqPill x =>
        obtain ⟨⟨i, hd⟩, _⟩ := hg
        refine hq.of_eq (.inr ?_) ?_
        · rcases hd with hd | hd <;> rw [hd] <;> simp
        · show ((lts e).next s (.enqPill x)).adders = s.adders
          rcases hd with hd | hd <;> simp only [lts, next, hd, tryPill] <;> split <;> try rfl
          all_goals rw [signalNonEmpty_eq]
    | takeJob w x => exact hq.of_woken (tryTake_adders e s w x).1 (tryTake_adders e s w x).2
    | finish w =>
        obtain ⟨_, j, hw⟩ := hg
        simp only [lts, next, hw]
        exact hq
    | join =>
        obtain ⟨i, hd, _⟩ := hg
        apply hq.of_eq (.inr (by rw [hd]; simp))
        simp only [lts, next, hd]
    | spurious w => exact hq
    | spuriousSpace x =>
        obtain ⟨ad, d, hs, hw, ha⟩ := wakeSpace_frame s x
        show Quiet (s.wakeSpace x)
        rw [hs]
        exact hq.of_woken hw ha

/-! ## The cases of a step -/

/-- The worker takes the next job as soon as it has the mutex. -/
def Awake (s : ThrPool J) (w : Nat) : Prop := s.workers w = .ready ∨ s.workers w = .blocked true

/-- What `deq` of all but `q` does with the destructor: it does not wait for space that there is. -/
def Popped (e : Env) (s : ThrPool J) (q : List (JobT J)) (d : DtorPc) : Prop :=
  SpaceWoken s.dtor d ∧ ∀ i, d = .enqueuing i (some false) → e.max ≤ q.length

inductive Moves (e : Env) (s : ThrPool J) : Act J → ThrPool J → Prop
  | accept {a j x ad} : s.dtor = .out → s.WakesWorker e x →
      Moves e s a { s with q := s.q ++ [some j], adders := ad, accepted := s.accepted ++ [j],
                           workers := woken s.workers x }
  | refuse {a ad} : s.dtor = .out → Moves e s a { s with adders := ad }
  | destroy : s.dtor = .out →
      Moves e s .destroy { s with dtor := if 0 < e.sz then .enqueuing 0 none else .done }
  | pill {i b x} : s.dtor = .enqueuing i b → b ≠ some false → s.WakesWorker e x →
      Moves e s (.enqPill x) { s with q := s.q ++ [none], dtor := afterPill e (i + 1),
                                      workers := woken s.workers x }
  | full {i b x} : s.dtor = .enqueuing i b → b ≠ some false → e.max ≤ s.q.length →
      Moves e s (.enqPill x) { s with dtor := .enqueuing i (some false) }
  | sleep {w x} : w < e.sz → s.Awake w → s.q = [] → Moves e s (.takeJob w x) (s.setWorker w (.blocked false))
  | take {w x j q ad d} : w < e.sz → s.Awake w → s.q = some j :: q → Popped e s q d →
      Moves e s (.takeJob w x) { s.setWorker w (.running j) with q := q, adders := ad, dtor := d }
  | takePill {w x q ad d} : w < e.sz → s.Awake w → s.q = none :: q → Popped e s q d →
      Moves e s (.takeJob w x) { s.setWorker w .stopped with
        q := q, adders := ad, dtor := d, pills := Function.update s.pills w (s.pills w + 1) }
  | finish {w j} : w < e.sz → s.workers w = .running j →
      Moves e s (.finish w) { s.setWorker w .ready with ran := s.ran ++ [j] }
  | join {i} : s.dtor = .joining i → s.workers i = .stopped →
      Moves e s .join { s with dtor := afterJoin e (i + 1) }
  | spurious {w} : s.Sleeps e w → Moves e s (.spurious w) (s.setWorker w (.blocked true))
  | spuriousSpace {x ad d} : SpaceWoken s.dtor d →
      Moves e s (.spuriousSpace x) { s with adders := ad, dtor := d }

theorem moves_tryAdd {a : Act J} {t : Nat} {j : J} {x : Option Nat} (hd : s.dtor = .out)
    (hx : s.WakesWorker e x) : Moves e s a (s.tryAdd e t j x) := by
  unfold tryAdd
  split
  · rw [signalNonEmpty_eq]
    exact .accept hd hx
  · split
    · exact .refuse hd
    · exact .refuse hd

/-- The space that `deq` makes is signalled to the destructor if it waits. -/
theorem popped_of_wakes {q : List (JobT J)} {x : Option SpaceWaiter} (hz : 0 < e.sz) (hq : Quiet s)
    (hx : s.WakesSpace x) :
    ∃ ad d, pop e s q x = { s with q := q, adders := ad, dtor := d } ∧ Popped e s q d := by
  obtain ⟨ad, d, hp, hw, _⟩ := pop_frame e s q x
  refine ⟨ad, d, hp, hw, fun i hd => ?_⟩
  by_contra hlt
  have hmax : e.max ≠ 0 := by
    unfold Env.max
    omega
  have hwait : s.dtor = .enqueuing i (some false) := by
    rcases hw with rfl | ⟨i', b, _, rfl⟩
    · exact hd
    · simp at hd
  rw [pop, if_pos ⟨hmax, not_le.mp hlt⟩] at hp
  cases x with
  | none => exact hx .dtor ⟨i, hwait⟩
  | some x =>
      cases x with
      | adder t =>
          obtain ⟨j, ht⟩ := hx
          rw [hq (by rw [hwait]; simp) t] at ht
          cases ht
      | dtor =>
          have := congrArg dtor hp
          simp only [signalHasSpace, wakeSpace, hwait, hd] at this
          simp at this

theorem moves_of_guard {a : Act J} (hz : 0 < e.sz) (hq : Quiet s) (hg : guard e s a) :
    Moves e s a (next e s a) := by
  cases a with
  | addJob t j x => exact moves_tryAdd hg.1 hg.2.2
  | resume t j x =>
      refine moves_tryAdd ?_ hg.2
      by_contra hd
      have ht := hq hd t
      rw [hg.1] at ht
      cases ht
  | destroy => exact .destroy hg.1
  | enqPill x =>
      obtain ⟨⟨i, hd⟩, hx⟩ := hg
      obtain ⟨b, hd, hb⟩ : ∃ b, s.dtor = .enqueuing i b ∧ b ≠ some false := by
        rcases hd with hd | hd
        · exact ⟨_, hd, by simp⟩
        · exact ⟨_, hd, by simp⟩
      simp only [next, hd, tryPill]
      split
      · rw [signalNonEmpty_eq]
        exact .pill hd hb hx
      · rename_i hspace
        simp only [hasSpace, Bool.or_eq_true, decide_eq_true_eq, not_or, not_lt] at hspace
        exact .full hd hb hspace.2
  | takeJob w x =>
      obtain ⟨hw, haw, hx⟩ := hg
      show Moves e s (.takeJob w x) (s.tryTake e w x)
      cases hsq : s.q with
      | nil =>
          simp only [tryTake, hsq]
          exact .sleep hw haw hsq
      | cons j q =>
          obtain ⟨ad, d, hp, hpop⟩ := popped_of_wakes (q := q) hz hq hx
          unfold pop at hp
          cases j with
          | some j =>
              simp only [tryTake, hsq, hp]
              exact .take hw haw hsq hpop
          | none =>
              simp only [tryTake, hsq, hp]
              exact .takePill hw haw hsq hpop
  | finish w =>
      obtain ⟨hw, j, hj⟩ := hg
      simp only [next, hj]
      exact .finish hw hj
  | join =>
      obtain ⟨i, hd, hi⟩ := hg
      simp only [next, hd]
      exact .join hd hi
  | spurious w => exact .spurious hg
  | spuriousSpace x =>
      obtain ⟨ad, d, hs, hw, _⟩ := wakeSpace_frame s x
      show Moves e s (.spuriousSpace x) (s.wakeSpace x)
      rw [hs]
      exact .spuriousSpace hw

end ThrPool
end StanDfs
