import StanDfs.PollMgr.Select

/-!
# The two back ends

`EPollAIO` keeps a flag word for each descriptor, and the kernel its registrations. It returns what
`SelectAIO` does from `unwatch_fd`, but its `is_watched` masks out the very bits of the flags.
-/

namespace StanDfs

/-- The value of a `poll_flag`. -/
def PollFlag.toInt : PollFlag → Int32
  | .none => 0x0
  | .rdonly => 0x1
  | .wronly => 0x10
  | .rdwr => 0x11
  | .mask => ~~~0x11

/-- The operation given to `epoll_ctl`. -/
inductive EpollOp
  | add
  | mod
  | del
  deriving DecidableEq

/-- `EPollAIO`, and the events of the descriptors that the kernel has registered. -/
structure EPollAIO where
  fdstatus : Nat → Int32
  registered : Nat → Option UInt32

namespace EPollAIO

def epollin : UInt32 := 0x1
def epollout : UInt32 := 0x4
def epollet : UInt32 := 0x80000000

/-- `epoll_ctl`, which fails for `ADD` on a registered descriptor and for `MOD` and `DEL` on another. -/
def epollCtl (a : EPollAIO) (op : EpollOp) (fd : Nat) (events : UInt32) : Option EPollAIO :=
  match op, a.registered fd with
  | .add, none => some { a with registered := Function.update a.registered fd (some events) }
  | .mod, some _ => some { a with registered := Function.update a.registered fd (some events) }
  | .del, some _ => some { a with registered := Function.update a.registered fd none }
  | .add, some _ => none
  | .mod, none => none
  | .del, none => none

def init : EPollAIO := ⟨fun _ => 0, fun _ => none⟩

def events (status : Int32) : UInt32 :=
  epollet ||| (if status &&& PollFlag.rdonly.toInt ≠ 0 then epollin else 0) |||
    (if status &&& PollFlag.wronly.toInt ≠ 0 then epollout else 0)

/-- There is no result if an `assert` fails, here and below. -/
def watchFd (a : EPollAIO) (fd : Nat) (flag : PollFlag) : Option EPollAIO :=
  if fd < PollMgr.maxPollFds then
    let op := if a.fdstatus fd ≠ 0 then EpollOp.mod else .add
    let status := a.fdstatus fd ||| flag.toInt
    let a := { a with fdstatus := Function.update a.fdstatus fd status }
    if flag = .rdwr ∧ events status ≠ epollet ||| epollin ||| epollout then none
    else a.epollCtl op fd (events status)
  else none

def unwatchFd (a : EPollAIO) (fd : Nat) (flag : PollFlag) : Option (Bool × EPollAIO) :=
  if fd < PollMgr.maxPollFds then
    let status := a.fdstatus fd &&& ~~~flag.toInt
    let a := { a with fdstatus := Function.update a.fdstatus fd status }
    let op := if status ≠ 0 then EpollOp.mod else .del
    if flag = .rdwr ∧ op ≠ .del then none
    else (a.epollCtl op fd (events status)).map fun a => (op = .del, a)
  else none

def isWatched (a : EPollAIO) (fd : Nat) (flag : PollFlag) : Option Bool :=
  if fd < PollMgr.maxPollFds then some ((a.fdstatus fd &&& PollFlag.mask.toInt) == flag.toInt) else none

def call (a : EPollAIO) : AioCall → Option EPollAIO
  | .watchFd fd flag => a.watchFd fd flag
  | .unwatchFd fd flag => (a.unwatchFd fd flag).map Prod.snd

/-- The state after the calls, newest first. -/
def calls : List AioCall → Option EPollAIO
  | [] => some init
  | c :: tr => (calls tr).bind fun a => a.call c

end EPollAIO

/-- Calls as the poll manager makes them: what is unwatched is watched in some direction. -/
def Issued : List AioCall → Prop
  | [] => True
  | .watchFd fd flag :: tr => Issued tr ∧ fd < PollMgr.maxPollFds ∧ flag.Proper
  | .unwatchFd fd flag :: tr => Issued tr ∧ fd < PollMgr.maxPollFds ∧ flag.Proper ∧ ∃ d, Watched fd d tr

/-- Neither back end fails on the calls, and both return the same from the last of them and then from every
`is_watched`. -/
def AioAgree (pipefd : Nat) : List AioCall → Prop
  | [] => True
  | c :: tr => ∃ s e s' e', SelectAIO.calls pipefd tr = some s ∧ EPollAIO.calls tr = some e ∧
      s.call pipefd c = some s' ∧ e.call c = some e' ∧
      (∀ fd flag, c = .unwatchFd fd flag →
        (s.unwatchFd pipefd fd flag).map Prod.fst = (e.unwatchFd fd flag).map Prod.fst) ∧
      ∀ fd flag, fd < PollMgr.maxPollFds → flag.Proper →
        e'.isWatched fd flag = some (s'.isWatched fd flag)

namespace EPollAIO

/-- The flag word of a descriptor that is watched in these directions. -/
def word (r w : Bool) : Int32 :=
  (if r then PollFlag.rdonly.toInt else 0) ||| (if w then PollFlag.wronly.toInt else 0)

/-- The flag words and the registrations are what the calls make them. -/
def Books (tr : List AioCall) (a : EPollAIO) : Prop :=
  ∀ fd, ∃ r w, a.fdstatus fd = word r w ∧ (r = true ↔ Watched fd .read tr) ∧
    (w = true ↔ Watched fd .write tr) ∧
    a.registered fd = if r || w then some (events (word r w)) else none

variable {fd : Nat} {flag : PollFlag} {r w : Bool} {a : EPollAIO} {tr : List AioCall}

/-! ## Flag words -/

theorem word_ne_zero (r w : Bool) : word r w ≠ 0 ↔ (r || w) = true := by
  cases r <;> cases w <;> decide

theorem word_or (hf : flag.Proper) (r w : Bool) :
    word r w ||| flag.toInt = word (r || flag.covers .read) (w || flag.covers .write) := by
  rcases hf with rfl | rfl | rfl <;> cases r <;> cases w <;> rfl

theorem word_and_not (hf : flag.Proper) (r w : Bool) :
    word r w &&& ~~~flag.toInt = word (r && !flag.covers .read) (w && !flag.covers .write) := by
  rcases hf with rfl | rfl | rfl <;> cases r <;> cases w <;> rfl

theorem events_both : events (word true true) = epollet ||| epollin ||| epollout := rfl

/-- The mask clears every bit of the word, and no flag is 0. -/
theorem word_masked (hf : flag.Proper) (r w : Bool) :
    ((word r w &&& PollFlag.mask.toInt) == flag.toInt) = false := by
  rcases hf with rfl | rfl | rfl <;> cases r <;> cases w <;> rfl

/-! ## What a call changes -/

theorem books_init : Books [] init := by
  intro fd
  refine ⟨false, false, rfl, ?_, ?_, rfl⟩
  all_goals
    constructor
    · intro h
      cases h
    · intro h
      cases h

theorem covers_none (hf : flag.Proper) : (flag.covers .read || flag.covers .write) = true := by
  rcases hf with rfl | rfl | rfl <;> rfl

/-- The kernel takes the operation chosen by the old word. -/
theorem watchFd_eq (hfd : fd < PollMgr.maxPollFds) (hf : flag.Proper) (hs : a.fdstatus fd = word r w)
    (hr : a.registered fd = if r || w then some (events (word r w)) else none) :
    a.watchFd fd flag = some
      ⟨Function.update a.fdstatus fd (word (r || flag.covers .read) (w || flag.covers .write)),
        Function.update a.registered fd
          (some (events (word (r || flag.covers .read) (w || flag.covers .write))))⟩ := by
  have hboth : ¬ (flag = .rdwr ∧
      events (word (r || flag.covers .read) (w || flag.covers .write)) ≠ epollet ||| epollin ||| epollout) := by
    rintro ⟨rfl, hne⟩
    simp only [PollFlag.covers, Bool.or_true] at hne
    exact hne events_both
  unfold watchFd
  rw [if_pos hfd]
  simp only [hs, word_or hf, word_ne_zero]
  rw [if_neg hboth]
  cases hrw : r || w with
  | true =>
      rw [hrw] at hr
      simp [epollCtl, hr]
  | false =>
      rw [hrw] at hr
      simp [epollCtl, hr]

theorem unwatchFd_eq (hfd : fd < PollMgr.maxPollFds) (hf : flag.Proper) (hs : a.fdstatus fd = word r w)
    (hr : a.registered fd = some (events (word r w))) :
    a.unwatchFd fd flag = some (!(r && !flag.covers .read || w && !flag.covers .write),
      ⟨Function.update a.fdstatus fd (word (r && !flag.covers .read) (w && !flag.covers .write)),
        Function.update a.registered fd
          (if r && !flag.covers .read || w && !flag.covers .write then
            some (events (word (r && !flag.covers .read) (w && !flag.covers .write))) else none)⟩) := by
  unfold unwatchFd
  rw [if_pos hfd]
  simp only [hs, word_and_not hf, word_ne_zero]
  cases hrw : r && !flag.covers .read || w && !flag.covers .write with
  | true =>
      have hno : flag ≠ .rdwr := by
        rintro rfl
        simp [PollFlag.covers] at hrw
      simp [epollCtl, hr, hno]
  | false => simp [epollCtl, hr]

theorem Books.watchFd (h : Books tr a) (hfd : fd < PollMgr.maxPollFds) (hf : flag.Proper) :
    ∃ a', a.watchFd fd flag = some a' ∧ Books (.watchFd fd flag :: tr) a' := by
  obtain ⟨r, w, hs, hread, hwrite, hreg⟩ := h fd
  refine ⟨_, watchFd_eq hfd hf hs hreg, ?_⟩
  intro x
  by_cases hx : x = fd
  · subst hx
    refine ⟨r || flag.covers .read, w || flag.covers .write, by simp, ?_, ?_, ?_⟩
    · rw [watched_watch, Bool.or_eq_true, hread]
      simp [or_comm]
    · rw [watched_watch, Bool.or_eq_true, hwrite]
      simp [or_comm]
    · have hc := covers_none hf
      rw [if_pos (by cases r <;> cases w <;> simp_all)]
      simp
  · obtain ⟨r', w', hs', hread', hwrite', hreg'⟩ := h x
    refine ⟨r', w', by simpa [hx] using hs', ?_, ?_, by simpa [hx] using hreg'⟩
    · rw [watched_watch, hread']
      simp [hx]
    · rw [watched_watch, hwrite']
      simp [hx]

theorem Books.unwatchFd (h : Books tr a) (hfd : fd < PollMgr.maxPollFds) (hf : flag.Proper)
    (hw : ∃ d, Watched fd d tr) :
    ∃ b a', a.unwatchFd fd flag = some (b, a') ∧ Books (.unwatchFd fd flag :: tr) a' ∧
      (b = true ↔ ∀ d, ¬ Watched fd d (.unwatchFd fd flag :: tr)) := by
  obtain ⟨r, w, hs, hread, hwrite, hreg⟩ := h fd
  have hrw : (r || w) = true := by
    obtain ⟨d, hd⟩ := hw
    rw [Bool.or_eq_true]
    cases d with
    | read => exact .inl (hread.mpr hd)
    | write => exact .inr (hwrite.mpr hd)
  rw [hrw] at hreg
  have hread' : (r && !flag.covers .read) = true ↔ Watched fd .read (.unwatchFd fd flag :: tr) := by
    rw [watched_unwatch, Bool.and_eq_true, hread]
    simp
  have hwrite' : (w && !flag.covers .write) = true ↔ Watched fd .write (.unwatchFd fd flag :: tr) := by
    rw [watched_unwatch, Bool.and_eq_true, hwrite]
    simp
  refine ⟨_, _, unwatchFd_eq hfd hf hs hreg, ?_, ?_⟩
  · intro x
    by_cases hx : x = fd
    · subst hx
      exact ⟨_, _, by simp, hread', hwrite', by simp⟩
    · obtain ⟨r', w', hs', hr', hw', hreg'⟩ := h x
      refine ⟨r', w', by simpa [hx] using hs', ?_, ?_, by simpa [hx] using hreg'⟩
      · rw [watched_unwatch, hr']
        simp [hx]
      · rw [watched_unwatch, hw']
        simp [hx]
  · rw [Bool.not_eq_true', Bool.or_eq_false_iff]
    constructor
    · rintro ⟨h₁, h₂⟩ d hd
      cases d with
      | read => exact absurd (hread'.mpr hd) (by simp [h₁])
      | write => exact absurd (hwrite'.mpr hd) (by simp [h₂])
    · intro hno
      exact ⟨Bool.eq_false_iff.mpr fun h => hno .read (hread'.mp h),
        Bool.eq_false_iff.mpr fun h => hno .write (hwrite'.mp h)⟩

/-- `is_watched` never says yes to a flag that callers use. -/
theorem Books.isWatched (h : Books tr a) (hfd : fd < PollMgr.maxPollFds) (hf : flag.Proper) :
    a.isWatched fd flag = some false := by
  obtain ⟨r, w, hs, _⟩ := h fd
  unfold EPollAIO.isWatched
  rw [if_pos hfd, hs, word_masked hf]

theorem books_of_issued (h : Issued tr) : ∃ a, calls tr = some a ∧ Books tr a := by
  induction tr with
  | nil => exact ⟨init, rfl, books_init⟩
  | cons c tr ih =>
      cases c with
      | watchFd fd flag =>
          obtain ⟨htr, hfd, hf⟩ := h
          obtain ⟨a, ha, hb⟩ := ih htr
          obtain ⟨a', ha', hb'⟩ := hb.watchFd hfd hf
          exact ⟨a', by rw [calls, ha]; exact ha', hb'⟩
      | unwatchFd fd flag =>
          obtain ⟨htr, hfd, hf, hw⟩ := h
          obtain ⟨a, ha, hb⟩ := ih htr
          obtain ⟨b, a', ha', hb', _⟩ := hb.unwatchFd hfd hf hw
          have hc : a.call (.unwatchFd fd flag) = some a' := by
            rw [call]
            exact congrArg (Option.map Prod.snd) ha'
          exact ⟨a', by rw [calls, ha]; exact hc, hb'⟩

end EPollAIO

/-! ## Both together -/

theorem issued_of_append {pre tr : List AioCall} (h : Issued (pre ++ tr)) : Issued tr := by
  induction pre with
  | nil => exact h
  | cons c pre ih => cases c <;> exact ih h.1

/-- Only a `watch_fd` can come first, and `EPollAIO` does not see it. -/
theorem not_agree_first {pipefd : Nat} {c : AioCall} (h : Issued [c]) : ¬ AioAgree pipefd [c] := by
  cases c with
  | unwatchFd fd flag =>
      obtain ⟨_, _, _, d, hd⟩ := h
      cases hd
  | watchFd fd flag =>
      obtain ⟨a, ha, hb⟩ := EPollAIO.books_of_issued h
      obtain ⟨_, hfd, hf⟩ := h
      rintro ⟨s, e, s', e', hs, he, hs', he', _, hw⟩
      unfold EPollAIO.calls at ha
      rw [he] at ha
      obtain rfl := Option.some.inj (ha.symm.trans he')
      cases hs'
      have htrue : (s.watchFd fd flag).isWatched fd flag = true := by
        apply SelectAIO.isWatched_iff hf |>.mpr
        intro d hc
        apply SelectAIO.mem_watchFd hf |>.mpr
        exact .inl ⟨rfl, hc⟩
      have heq := hw fd flag hfd hf
      rw [hb.isWatched hfd hf, htrue] at heq
      cases heq

theorem proper_of_issued {pipefd : Nat} {tr : List AioCall} (h : Issued tr) (hp : ∀ c ∈ tr, c.fd ≠ pipefd) :
    ∀ c ∈ tr, SelectAIO.Proper pipefd c := by
  have hlt : PollMgr.maxPollFds < SelectAIO.fdSetsize := by simp [PollMgr.maxPollFds, SelectAIO.fdSetsize]
  induction tr with
  | nil => simp
  | cons c tr ih =>
      rw [List.forall_mem_cons] at hp ⊢
      cases c with
      | watchFd fd flag => exact ⟨⟨hp.1, Nat.lt_trans h.2.1 hlt, h.2.2⟩, ih h.1 hp.2⟩
      | unwatchFd fd flag => exact ⟨⟨hp.1, Nat.lt_trans h.2.1 hlt, h.2.2.1⟩, ih h.1 hp.2⟩

/-- The back ends agree throughout on no calls at all. Off the pipe no assertion fails and every
`unwatch_fd` returns the same, and an `is_watched` does exactly when not all it asks for is watched. -/
theorem aio_agree_iff (pipefd : Nat) (tr : List AioCall) (h : Issued tr) :
    ((∀ late, late <:+ tr → AioAgree pipefd late) ↔ tr = []) ∧
      ((∀ c ∈ tr, c.fd ≠ pipefd) → ∃ s e, SelectAIO.calls pipefd tr = some s ∧ EPollAIO.calls tr = some e ∧
        (∀ fd flag, fd ≠ pipefd → Issued (.unwatchFd fd flag :: tr) →
          (s.unwatchFd pipefd fd flag).isSome ∧
            (s.unwatchFd pipefd fd flag).map Prod.fst = (e.unwatchFd fd flag).map Prod.fst) ∧
        ∀ fd flag, fd ≠ pipefd → fd < PollMgr.maxPollFds → flag.Proper →
          (e.isWatched fd flag = some (s.isWatched fd flag) ↔
            ¬ ∀ d, flag.covers d = true → Watched fd d tr)) := by
  constructor
  · constructor
    · intro hall
      rcases List.eq_nil_or_concat tr with rfl | ⟨pre, c, rfl⟩
      · rfl
      · rw [List.concat_eq_append] at h hall
        exact absurd (hall [c] ⟨pre, rfl⟩) (not_agree_first (issued_of_append h))
    · rintro rfl late hl
      rw [List.suffix_nil.mp hl]
      trivial
  · intro hp
    obtain ⟨s, hs, hbs⟩ := SelectAIO.books_of_calls (proper_of_issued h hp)
    obtain ⟨e, he, hbe⟩ := EPollAIO.books_of_issued h
    refine ⟨s, e, hs, he, ?_, ?_⟩
    · rintro fd flag hne ⟨_, hfd, hf, hw⟩
      obtain ⟨b, s', hsu⟩ := SelectAIO.unwatchFd_proper pipefd s fd hf
      obtain ⟨b', e', heu, _, hb'⟩ := hbe.unwatchFd hfd hf hw
      have heq : b = b' := Bool.eq_iff_iff.mpr ((hbs.result hne hsu).trans hb'.symm)
      simp [hsu, heu, heq]
    · intro fd flag hne hfd hf
      rw [hbe.isWatched hfd hf, ← hbs.isWatched hne hf]
      cases s.isWatched fd flag <;> simp

theorem aio_agree_iff_partial : ∃ s e,
    SelectAIO.calls 3 [.unwatchFd 7 .wronly, .watchFd 7 .rdonly] = some s ∧
      EPollAIO.calls [.unwatchFd 7 .wronly, .watchFd 7 .rdonly] = some e := by
  obtain ⟨s, e, hs, he, _⟩ := (aio_agree_iff 3 [.unwatchFd 7 .wronly, .watchFd 7 .rdonly]
    ⟨⟨trivial, by simp [PollMgr.maxPollFds], by simp [PollFlag.Proper]⟩, by simp [PollMgr.maxPollFds],
      by simp [PollFlag.Proper], .read, .watch rfl⟩).2 (by simp [AioCall.fd])
  exact ⟨s, e, hs, he⟩

/-- One descriptor is watched for reading. -/
theorem aio_disagree : Issued [.watchFd 7 .rdonly] ∧ ∃ s e,
    SelectAIO.calls 3 [.watchFd 7 .rdonly] = some s ∧ EPollAIO.calls [.watchFd 7 .rdonly] = some e ∧
      s.isWatched 7 .rdonly = true ∧ e.isWatched 7 .rdonly = some false := by
  constructor
  · exact ⟨trivial, by simp [PollMgr.maxPollFds], by simp [PollFlag.Proper]⟩
  · exact ⟨_, _, rfl, rfl, rfl, rfl⟩

end StanDfs
