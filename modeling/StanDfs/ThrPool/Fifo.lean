import StanDfs.Lib.CondVar
import StanDfs.Lib.Lts

/-!
# The bounded queue

Any number of threads call `enq` and `deq`. A step is what a thread does with the mutex of the queue, up to
its return or to `pthread_cond_wait`; a woken thread has to take the mutex again, and others may come first.
-/

namespace StanDfs

/-- Where a thread is. -/
inductive FifoPlace (T : Type*)
  | out
  /-- In the wait of `enq` on `has_space_c_`, with its item. -/
  | enq (e : T) (woken : Bool)
  /-- In the wait of `deq` on `non_empty_c_`. -/
  | deq (woken : Bool)
  deriving DecidableEq

namespace FifoPlace

variable {T : Type*}

def wake : FifoPlace T → FifoPlace T
  | .out => .out
  | .enq e _ => .enq e true
  | .deq _ => .deq true

def onNonEmpty : FifoPlace T → Option Bool
  | .deq woken => some woken
  | _ => none

def onHasSpace : FifoPlace T → Option Bool
  | .enq _ woken => some woken
  | _ => none

end FifoPlace

/-- A `fifo` of items `T`, and the threads `ι` at it. The last fields are history: the items that `enq` put
in, and those that `deq` took out. -/
structure Fifo (ι T : Type*) where
  q : List T
  threads : ι → FifoPlace T
  enqueued : List T
  dequeued : List T

namespace Fifo

variable {ι T : Type*}

inductive Act (ι T : Type*)
  /-- `signals` is the thread that the signal on `non_empty_c_` wakes. -/
  | enq (t : ι) (e : T) (blocking : Bool) (signals : Option ι)
  /-- A woken thread goes on in `enq`. -/
  | resumeEnq (t : ι) (e : T) (signals : Option ι)
  /-- `signals` is the thread that the signal on `has_space_c_` wakes. -/
  | deq (t : ι) (signals : Option ι)
  | resumeDeq (t : ι) (signals : Option ι)
  /-- A wait ends for no reason. -/
  | spurious (t : ι)

def init : Fifo ι T := ⟨[], fun _ => .out, [], []⟩

/-- The threads at `non_empty_c_` -/
def nonEmptyC (s : Fifo ι T) : ι → Option Bool := FifoPlace.onNonEmpty ∘ s.threads

/-- The threads at `has_space_c_` -/
def hasSpaceC (s : Fifo ι T) : ι → Option Bool := FifoPlace.onHasSpace ∘ s.threads

/-- An `enq` has to wait, or is refused. -/
def Full (max : Nat) (s : Fifo ι T) : Prop := max ≠ 0 ∧ max ≤ s.q.length

instance (max : Nat) (s : Fifo ι T) : Decidable (s.Full max) := inferInstanceAs (Decidable (_ ∧ _))

/-- What every step keeps. -/
structure Inv (max : Nat) (s : Fifo ι T) : Prop where
  order : s.enqueued = s.dequeued ++ s.q
  bound : max ≠ 0 → s.q.length ≤ max
  nonEmpty : CondVar.Covered s.nonEmptyC s.q.length
  hasSpace : CondVar.Covered s.hasSpaceC (max - s.q.length)
  unbounded : max = 0 → ∀ t, s.hasSpaceC t = none

theorem inv_init (max : Nat) : Inv max (init : Fifo ι T) where
  order := rfl
  bound _ := Nat.zero_le _
  nonEmpty := CondVar.covered_zero _
  hasSpace := by
    rintro ⟨t, ht⟩
    cases ht
  unbounded _ _ := rfl

variable [DecidableEq ι]

def setThread (s : Fifo ι T) (t : ι) (p : FifoPlace T) : Fifo ι T :=
  { s with threads := Function.update s.threads t p }

/-- `pthread_cond_signal` -/
def signal (s : Fifo ι T) : Option ι → Fifo ι T
  | some t => s.setThread t (s.threads t).wake
  | none => s

/-- The thread returns from `enq`, with its item in the queue. -/
def push (s : Fifo ι T) (t : ι) (e : T) : Fifo ι T :=
  { s.setThread t .out with q := s.q ++ [e], enqueued := s.enqueued ++ [e] }

/-- The thread returns from `deq` with the first item. -/
def pop (s : Fifo ι T) (t : ι) (e : T) (q : List T) : Fifo ι T :=
  { s.setThread t .out with q := q, dequeued := s.dequeued ++ [e] }

/-- `enq` with the mutex, and what it returns if it does. -/
def enq (max : Nat) (s : Fifo ι T) (t : ι) (e : T) (blocking : Bool) (signals : Option ι) :
    Fifo ι T × Option Bool :=
  if max = 0 ∨ s.q.length < max then
    ((s.push t e).signal signals, some true)
  else if blocking then (s.setThread t (.enq e false), none)
  else (s, some false)

/-- `deq` with the mutex -/
def deq (max : Nat) (s : Fifo ι T) (t : ι) (signals : Option ι) : Fifo ι T :=
  match s.q with
  | [] => s.setThread t (.deq false)
  | e :: q =>
    if max ≠ 0 ∧ q.length < max then (s.pop t e q).signal signals else s.pop t e q

def next (max : Nat) (s : Fifo ι T) : Act ι T → Fifo ι T
  | .enq t e blocking signals => (s.enq max t e blocking signals).1
  | .resumeEnq t e signals => (s.enq max t e true signals).1
  | .deq t signals => s.deq max t signals
  | .resumeDeq t signals => s.deq max t signals
  | .spurious t => s.setThread t (s.threads t).wake

def guard (s : Fifo ι T) : Act ι T → Prop
  | .enq t _ _ signals => s.threads t = .out ∧ CondVar.Signals s.nonEmptyC signals
  | .resumeEnq t e signals => s.threads t = .enq e true ∧ CondVar.Signals s.nonEmptyC signals
  | .deq t signals => s.threads t = .out ∧ CondVar.Signals s.hasSpaceC signals
  | .resumeDeq t signals => s.threads t = .deq true ∧ CondVar.Signals s.hasSpaceC signals
  | .spurious t => s.threads t ≠ .out

/-- The runs of a queue of capacity `max`, where 0 means that there is none. -/
def lts (max : Nat) : Lts (Fifo ι T) (Act ι T) where
  init s := s = init
  guard := guard
  next := next max

variable {max : Nat} {s : Fifo ι T} {t : ι} {e : T} {x : Option ι} {a : Act ι T}

/-! ## The threads at the two condition variables -/

theorem nonEmptyC_setThread (s : Fifo ι T) (t : ι) (p : FifoPlace T) :
    (s.setThread t p).nonEmptyC = Function.update s.nonEmptyC t p.onNonEmpty :=
  Function.comp_update _ _ _ _

theorem hasSpaceC_setThread (s : Fifo ι T) (t : ι) (p : FifoPlace T) :
    (s.setThread t p).hasSpaceC = Function.update s.hasSpaceC t p.onHasSpace :=
  Function.comp_update _ _ _ _

/-- A signal wakes a thread at its own variable only. -/
theorem signal_nonEmptyC (hx : CondVar.Signals s.nonEmptyC x) :
    (s.signal x).nonEmptyC = CondVar.signal s.nonEmptyC x ∧ (s.signal x).hasSpaceC = s.hasSpaceC := by
  cases x with
  | none => exact ⟨rfl, rfl⟩
  | some t =>
      have ht : (s.threads t).onNonEmpty = some false := hx
      unfold signal
      rw [nonEmptyC_setThread, hasSpaceC_setThread]
      cases hp : s.threads t with
      | out | enq => simp [hp, FifoPlace.onNonEmpty] at ht
      | deq woken =>
          constructor
          · rfl
          · rw [Function.update_eq_self_iff]
            simp [hasSpaceC, hp, FifoPlace.wake, FifoPlace.onHasSpace]

theorem signal_hasSpaceC (hx : CondVar.Signals s.hasSpaceC x) :
    (s.signal x).hasSpaceC = CondVar.signal s.hasSpaceC x ∧ (s.signal x).nonEmptyC = s.nonEmptyC := by
  cases x with
  | none => exact ⟨rfl, rfl⟩
  | some t =>
      have ht : (s.threads t).onHasSpace = some false := hx
      unfold signal
      rw [nonEmptyC_setThread, hasSpaceC_setThread]
      cases hp : s.threads t with
      | out | deq => simp [hp, FifoPlace.onHasSpace] at ht
      | enq e woken =>
          constructor
          · rfl
          · rw [Function.update_eq_self_iff]
            simp [nonEmptyC, hp, FifoPlace.wake, FifoPlace.onNonEmpty]

theorem signal_frame (s : Fifo ι T) (x : Option ι) :
    (s.signal x).q = s.q ∧ (s.signal x).enqueued = s.enqueued ∧ (s.signal x).dequeued = s.dequeued := by
  cases x <;> exact ⟨rfl, rfl, rfl⟩

/-! ## What a step keeps -/

/-- A thread that is not at the variable now may return, or go to wait at the other one. -/
theorem update_none {f : ι → Option Bool} (h : f t = none) : Function.update f t none = f :=
  Function.update_eq_self_iff.mpr h.symm

/-- An item pays for one more woken consumer, and the producer no longer counts for the space it took. -/
theorem Inv.push (h : s.Inv max) (hne : s.nonEmptyC t = none) (hx : CondVar.Signals s.nonEmptyC x)
    (hspace : max = 0 ∨ s.q.length < max) : ((s.push t e).signal x).Inv max := by
  have hn : (s.push t e).nonEmptyC = s.nonEmptyC := (nonEmptyC_setThread s t .out).trans (update_none hne)
  have hs : (s.push t e).hasSpaceC = Function.update s.hasSpaceC t none := hasSpaceC_setThread s t .out
  have hlen : (s.push t e).q.length = s.q.length + 1 := List.length_append
  obtain ⟨hsn, hss⟩ := signal_nonEmptyC (s := s.push t e) (hn.symm ▸ hx)
  obtain ⟨hfq, hfe, hfd⟩ := signal_frame (s.push t e) x
  constructor
  · rw [hfq, hfe, hfd]
    simp [Fifo.push, setThread, h.order]
  · intro hmax
    rw [hfq, hlen]
    exact hspace.resolve_left hmax
  · rw [hfq, hsn, hlen, hn]
    exact h.nonEmpty.signal hx
  · rw [hfq, hss, hs, hlen]
    exact h.hasSpace.leave t
  · intro hmax t'
    rw [hss, hs, update_none (h.unbounded hmax t)]
    exact h.unbounded hmax t'

theorem Inv.enq {blocking : Bool} (h : s.Inv max) (hne : s.nonEmptyC t = none)
    (hx : CondVar.Signals s.nonEmptyC x) : (s.enq max t e blocking x).1.Inv max := by
  unfold Fifo.enq
  split_ifs with hspace hb
  · exact h.push hne hx hspace
  · obtain ⟨hmax, hfull⟩ := not_or.mp hspace
    constructor
    · exact h.order
    · exact h.bound
    · have hn : (s.setThread t (.enq e false)).nonEmptyC = s.nonEmptyC :=
        (nonEmptyC_setThread s t _).trans (update_none hne)
      rw [hn]
      exact h.nonEmpty
    · have hfree : max - s.q.length = 0 := Nat.sub_eq_zero_of_le (Nat.not_lt.mp hfull)
      exact (CondVar.covered_zero _).mono (Nat.le_of_eq hfree)
    · exact fun h0 => absurd h0 hmax
  · exact h

/-- The consumer no longer counts for the item it took. -/
theorem Inv.pop {q : List T} (h : s.Inv max) (hq : s.q = e :: q) :
    CondVar.Covered (s.pop t e q).nonEmptyC q.length := by
  have hn : (s.pop t e q).nonEmptyC = Function.update s.nonEmptyC t none := nonEmptyC_setThread s t .out
  have hlen : s.q.length - 1 = q.length := by simp [hq]
  rw [hn, ← hlen]
  exact h.nonEmpty.leave t

theorem Inv.deq (h : s.Inv max) (hns : s.hasSpaceC t = none) (hx : CondVar.Signals s.hasSpaceC x) :
    (s.deq max t x).Inv max := by
  unfold Fifo.deq
  split
  · rename_i hq
    have hs : (s.setThread t (.deq false)).hasSpaceC = s.hasSpaceC :=
      (hasSpaceC_setThread s t _).trans (update_none hns)
    constructor
    · exact h.order
    · exact h.bound
    · have hlen : s.q.length = 0 := by simp [hq]
      exact (CondVar.covered_zero _).mono (Nat.le_of_eq hlen)
    · rw [hs]
      exact h.hasSpace
    · rw [hs]
      exact h.unbounded
  · rename_i e q hq
    have hs : (s.pop t e q).hasSpaceC = s.hasSpaceC := (hasSpaceC_setThread s t .out).trans (update_none hns)
    have ho : s.enqueued = (s.dequeued ++ [e]) ++ q := by simp [h.order, hq]
    have hlen : s.q.length = q.length + 1 := by simp [hq]
    split_ifs with hsig
    · obtain ⟨hss, hsn⟩ := signal_hasSpaceC (s := s.pop t e q) (hs.symm ▸ hx)
      obtain ⟨hfq, hfe, hfd⟩ := signal_frame (s.pop t e q) x
      constructor
      · rw [hfq, hfe, hfd]
        exact ho
      · rw [hfq]
        exact fun _ => Nat.le_of_lt hsig.2
      · rw [hfq, hsn]
        exact h.pop hq
      · rw [hfq, hss, hs]
        have hone : max - q.length ≤ max - s.q.length + 1 := by omega
        exact (h.hasSpace.signal hx).mono hone
      · exact fun h0 => absurd h0 hsig.1
    · -- There is always space after a `pop`, so the queue has no capacity.
      have h0 : max = 0 := by
        by_contra hne
        have := h.bound hne
        exact hsig ⟨hne, by omega⟩
      constructor
      · exact ho
      · exact fun hne => absurd h0 hne
      · exact h.pop hq
      · rw [h0, Nat.zero_sub]
        exact CondVar.covered_zero _
      · rw [hs]
        exact h.unbounded

theorem onNonEmpty_wake (p : FifoPlace T) :
    p.wake.onNonEmpty = p.onNonEmpty ∨ p.wake.onNonEmpty = some true := by
  cases p with
  | out | enq => exact .inl rfl
  | deq => exact .inr rfl

theorem onHasSpace_wake (p : FifoPlace T) :
    p.wake.onHasSpace = p.onHasSpace ∨ p.wake.onHasSpace = some true := by
  cases p with
  | out | deq => exact .inl rfl
  | enq => exact .inr rfl

theorem covered_wake {f : ι → Option Bool} {n : Nat} {o : Option Bool} (h : CondVar.Covered f n)
    (ho : o = f t ∨ o = some true) : CondVar.Covered (Function.update f t o) n := by
  rcases ho with rfl | rfl
  · rw [Function.update_eq_self]
    exact h
  · exact h.wake t

theorem Inv.spurious (h : s.Inv max) (t : ι) : (s.setThread t (s.threads t).wake).Inv max := by
  constructor
  · exact h.order
  · exact h.bound
  · rw [nonEmptyC_setThread]
    exact covered_wake h.nonEmpty (onNonEmpty_wake _)
  · rw [hasSpaceC_setThread]
    exact covered_wake h.hasSpace (onHasSpace_wake _)
  · intro h0 t'
    rw [hasSpaceC_setThread]
    have hout : (s.threads t).wake.onHasSpace = none := by
      have hn : (s.threads t).onHasSpace = none := h.unbounded h0 t
      cases hp : s.threads t with
      | out | deq => rfl
      | enq e w => simp [hp, FifoPlace.onHasSpace] at hn
    rw [hout, update_none (h.unbounded h0 t)]
    exact h.unbounded h0 t'

theorem Inv.next (h : s.Inv max) (hg : s.guard a) : (next max s a).Inv max := by
  cases a with
  | enq t e blocking x => exact h.enq (by simp [nonEmptyC, hg.1, FifoPlace.onNonEmpty]) hg.2
  | resumeEnq t e x => exact h.enq (by simp [nonEmptyC, hg.1, FifoPlace.onNonEmpty]) hg.2
  | deq t x => exact h.deq (by simp [hasSpaceC, hg.1, FifoPlace.onHasSpace]) hg.2
  | resumeDeq t x => exact h.deq (by simp [hasSpaceC, hg.1, FifoPlace.onHasSpace]) hg.2
  | spurious t => exact h.spurious t

theorem inv_of_run {tr : List (Act ι T)} (h : (lts max).Run tr s) : s.Inv max := by
  induction h with
  | init h => exact h ▸ inv_init max
  | step _ hg ih => exact ih.next hg

/-- What an `enq` that does not block returns. -/
theorem refused_iff (s : Fifo ι T) (t : ι) (e : T) (x : Option ι) :
    ((s.enq max t e false x).2 = some false ↔ s.Full max) ∧
      ((s.enq max t e false x).2 = some false → (s.enq max t e false x).1 = s) := by
  unfold Fifo.enq Full
  split_ifs with hspace
  · simp only [Option.some.injEq, Bool.true_eq_false, false_iff, false_implies, and_true]
    omega
  · rename_i hb
    cases hb
  · obtain ⟨hmax, hfull⟩ := not_or.mp hspace
    simp [hmax, Nat.not_lt.mp hfull]

end Fifo

open Fifo

/-- In every reachable state the items come out in the order they went in and the capacity is kept, an
`enq` that does not block is refused exactly when the queue is full, and no wakeup is lost. -/
theorem fifo_bounded {ι T : Type*} [DecidableEq ι] (max : Nat) {tr : List (Fifo.Act ι T)} {s : Fifo ι T}
    (h : (lts max).Run tr s) :
    s.dequeued <+: s.enqueued ∧ s.enqueued = s.dequeued ++ s.q ∧ (max ≠ 0 → s.q.length ≤ max) ∧
      (∀ t e x, ((s.enq max t e false x).2 = some false ↔ s.Full max) ∧
        ((s.enq max t e false x).2 = some false → (s.enq max t e false x).1 = s)) ∧
      ((∃ t, s.threads t = .deq false) → CondVar.AtLeast s.q.length fun t => s.threads t = .deq true) ∧
      ((∃ t e, s.threads t = .enq e false) →
        max ≠ 0 ∧ CondVar.AtLeast (max - s.q.length) fun t => ∃ e, s.threads t = .enq e true) := by
  have hi := inv_of_run h
  refine ⟨⟨s.q, hi.order.symm⟩, hi.order, hi.bound, refused_iff s, ?_, ?_⟩
  · rintro ⟨t, ht⟩
    obtain ⟨W, hn, hW⟩ := hi.nonEmpty ⟨t, by simp [nonEmptyC, ht, FifoPlace.onNonEmpty]⟩
    refine ⟨W, hn, fun x hx => ?_⟩
    have hw : (s.threads x).onNonEmpty = some true := hW x hx
    cases hp : s.threads x with
    | out | enq => simp [hp, FifoPlace.onNonEmpty] at hw
    | deq woken =>
        rw [hp] at hw
        exact hp.trans (congrArg FifoPlace.deq (Option.some.inj hw))
  · rintro ⟨t, e, ht⟩
    have hf : s.hasSpaceC t = some false := by simp [hasSpaceC, ht, FifoPlace.onHasSpace]
    constructor
    · intro h0
      rw [hi.unbounded h0 t] at hf
      cases hf
    · obtain ⟨W, hn, hW⟩ := hi.hasSpace ⟨t, hf⟩
      refine ⟨W, hn, fun x hx => ?_⟩
      have hw : (s.threads x).onHasSpace = some true := hW x hx
      cases hp : s.threads x with
      | out | deq => simp [hp, FifoPlace.onHasSpace] at hw
      | enq e woken =>
          rw [hp] at hw
          exact ⟨e, hp.trans (congrArg (FifoPlace.enq e) (Option.some.inj hw))⟩

/-- Two consumers are blocked, and one is woken for the item that was put in. -/
theorem fifo_bounded_woken :
    ∃ tr s, (lts 2 : Lts (Fifo Nat Nat) _).Run tr s ∧ s.q.length = 1 ∧ s.threads 2 = .deq false ∧
      CondVar.AtLeast s.q.length fun t => s.threads t = .deq true := by
  have h₀ : (lts 2 : Lts (Fifo Nat Nat) _).Run [] init := .init rfl
  have h₁ : (lts 2 : Lts (Fifo Nat Nat) _).Run [.deq 1 none] (init.deq 2 1 none) :=
    .step h₀ ⟨rfl, by simp [CondVar.Signals, hasSpaceC, init, FifoPlace.onHasSpace]⟩
  have hg : guard (init.deq 2 1 none : Fifo Nat Nat) (.deq 2 none) := by
    refine ⟨rfl, ?_⟩
    intro t
    by_cases ht : t = 1 <;> simp [hasSpaceC, Fifo.deq, setThread, init, FifoPlace.onHasSpace, ht]
  have h₂ : (lts 2 : Lts (Fifo Nat Nat) _).Run [.deq 2 none, .deq 1 none] _ := .step h₁ hg
  have h₃ : (lts 2).Run (.enq 3 7 true (some 1) :: _) _ := .step h₂ ⟨rfl, rfl⟩
  exact ⟨_, _, h₃, rfl, rfl, (fifo_bounded 2 h₃).2.2.2.2.1 ⟨2, rfl⟩⟩

end StanDfs
