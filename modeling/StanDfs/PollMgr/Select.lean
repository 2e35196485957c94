import Mathlib.Data.Finset.Union
import Mathlib.Data.List.Nodup
import Mathlib.Order.Bounds.Basic
import StanDfs.PollMgr.Removal

/-!
# The books of SelectAIO

Two sets of descriptors and the largest one in them, over any calls of `watch_fd` and `unwatch_fd`. The
maximum is looked for again only when the largest descriptor has left both sets.
-/

namespace StanDfs

/-- What a descriptor may be watched for. -/
inductive Direction
  | read
  | write
  deriving DecidableEq

namespace PollFlag

def covers : PollFlag → Direction → Bool
  | .rdonly, .read => true
  | .wronly, .write => true
  | .rdwr, _ => true
  | _, _ => false

/-- The flags that callers use. -/
def Proper (flag : PollFlag) : Prop := flag = .rdonly ∨ flag = .wronly ∨ flag = .rdwr

end PollFlag

/-- A call of an `aio_mgr`. -/
inductive AioCall
  | watchFd (fd : Nat) (flag : PollFlag)
  | unwatchFd (fd : Nat) (flag : PollFlag)
  deriving DecidableEq

namespace AioCall

def fd : AioCall → Nat
  | .watchFd fd _ => fd
  | .unwatchFd fd _ => fd

def flag : AioCall → PollFlag
  | .watchFd _ flag => flag
  | .unwatchFd _ flag => flag

end AioCall

/-- After the calls, newest first, the descriptor was watched in the direction and not since unwatched. -/
inductive Watched (fd : Nat) (d : Direction) : List AioCall → Prop
  | watch {flag tr} : flag.covers d = true → Watched fd d (.watchFd fd flag :: tr)
  | keep {c tr} : Watched fd d tr → (∀ flag, c = .unwatchFd fd flag → flag.covers d = false) →
      Watched fd d (c :: tr)

theorem watched_watch {fd fd' : Nat} {d : Direction} {flag : PollFlag} {tr : List AioCall} :
    Watched fd d (.watchFd fd' flag :: tr) ↔ fd = fd' ∧ flag.covers d = true ∨ Watched fd d tr := by
  constructor
  · intro h
    cases h with
    | watch hc => exact .inl ⟨rfl, hc⟩
    | keep h _ => exact .inr h
  · rintro (⟨rfl, hc⟩ | h)
    · exact .watch hc
    · exact .keep h (by simp)

theorem watched_unwatch {fd fd' : Nat} {d : Direction} {flag : PollFlag} {tr : List AioCall} :
    Watched fd d (.unwatchFd fd' flag :: tr) ↔ Watched fd d tr ∧ ¬ (fd = fd' ∧ flag.covers d = true) := by
  constructor
  · intro h
    cases h with
    | keep h hk =>
        refine ⟨h, ?_⟩
        rintro ⟨rfl, hc⟩
        rw [hk flag rfl] at hc
        cases hc
  · rintro ⟨h, hno⟩
    apply Watched.keep h
    intro flag' heq
    cases heq
    cases hc : flag.covers d with
    | false => rfl
    | true => exact absurd ⟨rfl, hc⟩ hno

namespace SelectAIO

def isWatched (a : SelectAIO) (fd : Nat) : PollFlag → Bool
  | .rdonly => fd ∈ a.rfds
  | .wronly => fd ∈ a.wfds
  | _ => fd ∈ a.rfds ∧ fd ∈ a.wfds

def fdSetsize : Nat := 1024

def call (pipefd : Nat) (a : SelectAIO) : AioCall → Option SelectAIO
  | .watchFd fd flag => some (a.watchFd fd flag)
  | .unwatchFd fd flag => (a.unwatchFd pipefd fd flag).map Prod.snd

/-- The state after the calls, newest first. -/
def calls (pipefd : Nat) : List AioCall → Option SelectAIO
  | [] => some (init pipefd)
  | c :: tr => (calls pipefd tr).bind fun a => a.call pipefd c

/-- The call is for a descriptor that fits into an `fd_set` and is not the pipe. -/
def Proper (pipefd : Nat) (c : AioCall) : Prop := c.fd ≠ pipefd ∧ c.fd < fdSetsize ∧ c.flag.Proper

def fds (a : SelectAIO) : Direction → Finset Nat
  | .read => a.rfds
  | .write => a.wfds

/-- `highfds_` is the largest descriptor of the two sets. -/
def HighOk (a : SelectAIO) : Prop := IsGreatest {fd | ∃ d, fd ∈ a.fds d} a.highfds

/-- The state is what the calls make it. -/
structure Books (pipefd : Nat) (tr : List AioCall) (a : SelectAIO) : Prop where
  pipeRead : pipefd ∈ a.rfds
  pipeWrite : pipefd ∉ a.wfds
  high : a.HighOk
  mem : ∀ fd d, fd ≠ pipefd → (fd ∈ a.fds d ↔ Watched fd d tr)

variable {pipefd fd x : Nat} {flag : PollFlag} {d : Direction} {a a' : SelectAIO} {b : Bool}
  {tr : List AioCall} {c : AioCall}

/-! ## What a call changes -/

theorem mem_watchFd (hf : flag.Proper) :
    x ∈ (a.watchFd fd flag).fds d ↔ x = fd ∧ flag.covers d = true ∨ x ∈ a.fds d := by
  rcases hf with rfl | rfl | rfl <;> cases d <;> simp [watchFd, fds, PollFlag.covers]

theorem mem_clear (h : a.clear fd flag = some a') :
    x ∈ a'.fds d ↔ x ∈ a.fds d ∧ ¬ (x = fd ∧ flag.covers d = true) := by
  cases flag with
  | rdonly | wronly | rdwr =>
      cases h
      cases d <;> simp [fds, PollFlag.covers, and_comm]
  | none | mask => cases h

theorem isUnwatched_iff : a.isUnwatched fd = true ↔ ∀ d, fd ∉ a.fds d := by
  simp only [isUnwatched, decide_eq_true_eq]
  constructor
  · rintro ⟨hr, hw⟩ d
    cases d with
    | read => exact hr
    | write => exact hw
  · exact fun h => ⟨h .read, h .write⟩

theorem isWatched_iff (hf : flag.Proper) :
    a.isWatched fd flag = true ↔ ∀ d, flag.covers d = true → fd ∈ a.fds d := by
  rcases hf with rfl | rfl | rfl
  all_goals
    simp only [isWatched, decide_eq_true_eq]
    constructor
    · intro h d hc
      cases d <;> simp_all [fds, PollFlag.covers]
    · intro h
      have hr := h .read
      have hw := h .write
      simp_all [fds, PollFlag.covers]

/-- The last descriptor of the scan that satisfies the test. -/
theorem isGreatest_scan (p : Nat → Prop) [DecidablePred p] (n d : Nat) (h : ∃ i, i < n ∧ p i) :
    IsGreatest {i | i < n ∧ p i} ((List.range n).foldl (fun newh i => if p i then i else newh) d) := by
  induction n with
  | zero =>
      obtain ⟨i, hi, _⟩ := h
      omega
  | succ n ih =>
      rw [List.range_succ, List.foldl_append]
      simp only [List.foldl_cons, List.foldl_nil]
      split
      · rename_i hp
        exact ⟨⟨Nat.lt_succ_self n, hp⟩, fun i hi => Nat.lt_succ_iff.mp hi.1⟩
      · rename_i hp
        have hlt : ∀ i, i < n + 1 → p i → i < n := by
          intro i hi hpi
          apply Nat.lt_of_le_of_ne (Nat.lt_succ_iff.mp hi)
          rintro rfl
          exact hp hpi
        obtain ⟨i, hi, hpi⟩ := h
        obtain ⟨hm, hub⟩ := ih ⟨i, hlt i hi hpi, hpi⟩
        exact ⟨⟨Nat.lt_succ_of_lt hm.1, hm.2⟩, fun j hj => hub ⟨hlt j hj.1 hj.2, hj.2⟩⟩

theorem mem_fds_iff : (∃ d, x ∈ a.fds d) ↔ x ∈ a.rfds ∨ x ∈ a.wfds := by
  constructor
  · rintro ⟨d, h⟩
    cases d with
    | read => exact .inl h
    | write => exact .inr h
  · rintro (h | h)
    · exact ⟨.read, h⟩
    · exact ⟨.write, h⟩

/-- The scan up to the old maximum finds the largest descriptor that is left. -/
theorem newHigh_isGreatest (hp : pipefd ∈ a.rfds) (hle : ∀ x d, x ∈ a.fds d → x ≤ a.highfds) :
    IsGreatest {fd | ∃ d, fd ∈ a.fds d} (newHigh pipefd a) := by
  have hscan := isGreatest_scan (fun i => i ∈ a.rfds ∨ i ∈ a.wfds) (a.highfds + 1) pipefd
    ⟨pipefd, Nat.lt_succ_of_le (hle pipefd .read hp), .inl hp⟩
  have hset : {i | i < a.highfds + 1 ∧ (i ∈ a.rfds ∨ i ∈ a.wfds)} = {fd | ∃ d, fd ∈ a.fds d} := by
    ext i
    simp only [Set.mem_ofPred_eq, mem_fds_iff]
    constructor
    · exact And.right
    · intro h
      obtain ⟨d, hd⟩ := mem_fds_iff.mpr h
      exact ⟨Nat.lt_succ_of_le (hle i d hd), h⟩
  have hfun : (fun newh i => if i ∈ a.rfds then i else if i ∈ a.wfds then i else newh) =
      fun newh i => if i ∈ a.rfds ∨ i ∈ a.wfds then i else newh := by
    funext newh i
    by_cases hr : i ∈ a.rfds <;> simp [hr]
  rw [hset] at hscan
  unfold newHigh
  rw [hfun]
  exact hscan

theorem HighOk.watchFd (h : a.HighOk) (hf : flag.Proper) : (a.watchFd fd flag).HighOk := by
  have hhigh : (a.watchFd fd flag).highfds = if a.highfds ≤ fd then fd else a.highfds := by
    cases flag <;> rfl
  obtain ⟨d, hd⟩ : ∃ d, flag.covers d = true := by
    rcases hf with rfl | rfl | rfl
    · exact ⟨.read, rfl⟩
    · exact ⟨.write, rfl⟩
    · exact ⟨.read, rfl⟩
  unfold HighOk
  rw [hhigh]
  constructor
  · split
    · exact ⟨d, (mem_watchFd hf).mpr (.inl ⟨rfl, hd⟩)⟩
    · obtain ⟨d', hd'⟩ := h.1
      exact ⟨d', (mem_watchFd hf).mpr (.inr hd')⟩
  · rintro x ⟨d', hx⟩
    rcases (mem_watchFd hf).mp hx with ⟨rfl, _⟩ | hx
    · split <;> omega
    · have := h.2 ⟨d', hx⟩
      split <;> omega

theorem HighOk.unwatchFd (h : a.HighOk) (hp : pipefd ∈ a.rfds) (hne : fd ≠ pipefd)
    (hu : a.unwatchFd pipefd fd flag = some (b, a')) : a'.HighOk := by
  unfold SelectAIO.unwatchFd at hu
  rw [Option.map_eq_some_iff] at hu
  obtain ⟨a₀, h₀, heq⟩ := hu
  cases heq
  have hhigh : a₀.highfds = a.highfds := by
    cases flag <;> cases h₀ <;> rfl
  have hle : ∀ x d, x ∈ a₀.fds d → x ≤ a₀.highfds := by
    intro x d hx
    rw [hhigh]
    exact h.2 ⟨d, ((mem_clear h₀).mp hx).1⟩
  unfold HighOk
  simp only
  split
  · have hp₀ : pipefd ∈ a₀.rfds := (mem_clear (d := .read) h₀).mpr ⟨hp, fun hc => hne hc.1.symm⟩
    exact newHigh_isGreatest hp₀ hle
  · rename_i hno
    refine ⟨?_, fun x hx => hx.elim (hle x)⟩
    -- The maximum is still there: it is another descriptor, or this one is watched in the other direction.
    by_cases hx : fd = a₀.highfds
    · by_contra hgone
      exact hno ⟨isUnwatched_iff.mpr fun d hd => hgone ⟨d, hx ▸ hd⟩, hx⟩
    · obtain ⟨d, hd⟩ := h.1
      rw [← hhigh] at hd
      exact ⟨d, (mem_clear h₀).mpr ⟨hd, fun hc => hx hc.1.symm⟩⟩

/-! ## Any number of calls -/

theorem unwatchFd_proper (pipefd : Nat) (a : SelectAIO) (fd : Nat) (hf : flag.Proper) :
    ∃ b a', a.unwatchFd pipefd fd flag = some (b, a') := by
  rcases hf with rfl | rfl | rfl <;> exact ⟨_, _, rfl⟩

theorem mem_unwatchFd (hu : a.unwatchFd pipefd fd flag = some (b, a')) :
    x ∈ a'.fds d ↔ x ∈ a.fds d ∧ ¬ (x = fd ∧ flag.covers d = true) := by
  obtain ⟨a₀, h₀, hr, hw⟩ := clear_of_unwatchFd hu
  rw [← mem_clear h₀]
  cases d with
  | read => exact iff_of_eq (congrArg (x ∈ ·) hr)
  | write => exact iff_of_eq (congrArg (x ∈ ·) hw)

theorem result_unwatchFd (hu : a.unwatchFd pipefd fd flag = some (b, a')) : b = a'.isUnwatched fd := by
  unfold SelectAIO.unwatchFd at hu
  rw [Option.map_eq_some_iff] at hu
  obtain ⟨a₀, _, heq⟩ := hu
  cases heq
  rfl

theorem books_init (pipefd : Nat) : Books pipefd [] (init pipefd) where
  pipeRead := Finset.mem_singleton_self pipefd
  pipeWrite := Finset.notMem_empty pipefd
  high := by
    constructor
    · exact ⟨.read, Finset.mem_singleton_self pipefd⟩
    · rintro x ⟨d, hx⟩
      cases d with
      | read => exact Nat.le_of_eq (Finset.mem_singleton.mp hx)
      | write => exact absurd hx (Finset.notMem_empty x)
  mem fd d hne := by
    constructor
    · intro h
      cases d with
      | read => exact absurd (Finset.mem_singleton.mp h) hne
      | write => exact absurd h (Finset.notMem_empty fd)
    · intro h
      cases h

theorem Books.watchFd (h : Books pipefd tr a) (hne : fd ≠ pipefd) (hf : flag.Proper) :
    Books pipefd (.watchFd fd flag :: tr) (a.watchFd fd flag) where
  pipeRead := (mem_watchFd (d := .read) hf).mpr (.inr h.pipeRead)
  pipeWrite hp := by
    rcases (mem_watchFd (d := .write) hf).mp hp with ⟨heq, _⟩ | hp
    · exact hne heq.symm
    · exact h.pipeWrite hp
  high := h.high.watchFd hf
  mem x d hx := by rw [mem_watchFd hf, h.mem x d hx, watched_watch]

theorem Books.unwatchFd (h : Books pipefd tr a) (hne : fd ≠ pipefd)
    (hu : a.unwatchFd pipefd fd flag = some (b, a')) : Books pipefd (.unwatchFd fd flag :: tr) a' where
  pipeRead := (mem_unwatchFd (d := .read) hu).mpr ⟨h.pipeRead, fun hc => hne hc.1.symm⟩
  pipeWrite hp := h.pipeWrite ((mem_unwatchFd (d := .write) hu).mp hp).1
  high := h.high.unwatchFd h.pipeRead hne hu
  mem x d hx := by rw [mem_unwatchFd hu, h.mem x d hx, watched_unwatch]

theorem books_of_calls (h : ∀ c ∈ tr, Proper pipefd c) : ∃ a, calls pipefd tr = some a ∧ Books pipefd tr a := by
  induction tr with
  | nil => exact ⟨init pipefd, rfl, books_init pipefd⟩
  | cons c tr ih =>
      obtain ⟨a, ha, hb⟩ := ih fun c hc => h c (List.mem_cons_of_mem _ hc)
      obtain ⟨hne, _, hf⟩ := h c List.mem_cons_self
      cases c with
      | watchFd fd flag => exact ⟨a.watchFd fd flag, by rw [calls, ha]; rfl, hb.watchFd hne hf⟩
      | unwatchFd fd flag =>
          obtain ⟨b, a', hu⟩ := unwatchFd_proper pipefd a fd hf
          have hc : a.call pipefd (.unwatchFd fd flag) = some a' := congrArg (Option.map Prod.snd) hu
          exact ⟨a', by rw [calls, ha]; exact hc, hb.unwatchFd hne hu⟩

/-- No direction is left exactly when `unwatch_fd` says so. -/
theorem Books.result (h : Books pipefd tr a) (hne : fd ≠ pipefd)
    (hu : a.unwatchFd pipefd fd flag = some (b, a')) :
    b = true ↔ ∀ d, ¬ Watched fd d (.unwatchFd fd flag :: tr) := by
  rw [result_unwatchFd hu, isUnwatched_iff]
  exact forall_congr' fun d => not_congr ((h.unwatchFd hne hu).mem fd d hne)

theorem Books.isWatched (h : Books pipefd tr a) (hne : fd ≠ pipefd) (hf : flag.Proper) :
    a.isWatched fd flag = true ↔ ∀ d, flag.covers d = true → Watched fd d tr := by
  rw [isWatched_iff hf]
  exact forall_congr' fun d => imp_congr_right fun _ => h.mem fd d hne

/-- What `wait_ready` appends when `select` leaves the ready members of the sets it was given. -/
def waitReady (pipefd : Nat) (a : SelectAIO) (isReady : Direction → Finset Nat) : Direction → List Nat
  | .read => (ready pipefd a.highfds (a.rfds ∩ isReady .read) (a.wfds ∩ isReady .write)).1
  | .write => (ready pipefd a.highfds (a.rfds ∩ isReady .read) (a.wfds ∩ isReady .write)).2

theorem waitReady_nodup (isReady : Direction → Finset Nat) (d : Direction) :
    (a.waitReady pipefd isReady d).Nodup := by
  have h : (List.range (a.highfds + 1)).Nodup := List.nodup_range
  cases d <;> exact (h.filter _).filter _

theorem mem_waitReady {isReady : Direction → Finset Nat} :
    x ∈ a.waitReady pipefd isReady d ↔
      x ≤ a.highfds ∧ ¬ (x = pipefd ∧ x ∈ a.rfds ∧ x ∈ isReady .read) ∧ x ∈ a.fds d ∧ x ∈ isReady d := by
  have hle : x < a.highfds + 1 ↔ x ≤ a.highfds := Nat.lt_succ_iff
  cases d <;> simp [waitReady, ready, fds] <;> tauto

theorem Books.mem_waitReady {isReady : Direction → Finset Nat} (h : Books pipefd tr a) :
    x ∈ a.waitReady pipefd isReady d ↔ x ≠ pipefd ∧ Watched x d tr ∧ x ∈ isReady d := by
  refine SelectAIO.mem_waitReady.trans ?_
  by_cases hx : x = pipefd
  · subst hx
    -- The pipe is watched for reading only, and then its byte is taken and nothing is appended.
    constructor
    · rintro ⟨_, hno, hd, hr⟩
      cases d with
      | read => exact absurd ⟨rfl, hd, hr⟩ hno
      | write => exact absurd hd h.pipeWrite
    · rintro ⟨hne, _⟩
      exact absurd rfl hne
  · rw [h.mem x d hx]
    constructor
    · rintro ⟨_, _, hw, hr⟩
      exact ⟨hx, hw, hr⟩
    · rintro ⟨_, hw, hr⟩
      exact ⟨h.high.2 ⟨d, (h.mem x d hx).mpr hw⟩, fun hc => hx hc.1, hw, hr⟩

end SelectAIO

open SelectAIO

/-- After any calls, `highfds_` is the largest descriptor of the sets, `is_watched` and the result of
`unwatch_fd` tell what is watched, and `wait_ready` gives every watched ready descriptor once. -/
theorem selectAIO_books (pipefd : Nat) (tr : List AioCall) (h : ∀ c ∈ tr, SelectAIO.Proper pipefd c) :
    ∃ a, calls pipefd tr = some a ∧ pipefd ∈ a.rfds ∧ a.HighOk ∧
      (∀ fd flag, fd ≠ pipefd → flag.Proper →
        (a.isWatched fd flag = true ↔ ∀ d, flag.covers d = true → Watched fd d tr)) ∧
      (∀ fd flag, fd ≠ pipefd → flag.Proper → ∃ b a', a.unwatchFd pipefd fd flag = some (b, a') ∧
        (b = true ↔ ∀ d, ¬ Watched fd d (.unwatchFd fd flag :: tr))) ∧
      ∀ isReady d, (a.waitReady pipefd isReady d).Nodup ∧
        ∀ fd, fd ∈ a.waitReady pipefd isReady d ↔ fd ≠ pipefd ∧ Watched fd d tr ∧ fd ∈ isReady d := by
  obtain ⟨a, ha, hb⟩ := books_of_calls h
  refine ⟨a, ha, hb.pipeRead, hb.high, fun fd flag hne hf => hb.isWatched hne hf, ?_, ?_⟩
  · intro fd flag hne hf
    obtain ⟨b, a', hu⟩ := unwatchFd_proper pipefd a fd hf
    exact ⟨b, a', hu, hb.result hne hu⟩
  · intro isReady d
    exact ⟨waitReady_nodup isReady d, fun fd => hb.mem_waitReady⟩

theorem selectAIO_books_two : ∃ a,
    calls 3 [.unwatchFd 7 .rdwr, .watchFd 5 .wronly, .watchFd 7 .rdwr] = some a ∧ a.HighOk := by
  obtain ⟨a, ha, _, hh, _⟩ := selectAIO_books 3
    [.unwatchFd 7 .rdwr, .watchFd 5 .wronly, .watchFd 7 .rdwr]
    (by simp [AioCall.fd, AioCall.flag, SelectAIO.Proper, PollFlag.Proper, fdSetsize])
  exact ⟨a, ha, hh⟩

end StanDfs
