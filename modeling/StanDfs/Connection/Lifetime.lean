import StanDfs.Connection.Fleet
import StanDfs.Connection.WriteCb
import StanDfs.PollMgr.Removal

/-!
# The poll loop and the life of a connection

The loop reads `callbacks_` without a lock. What it finds there is a connection that exists, and for reading
the very one whose descriptor `select` was asked about, since a connection is not deleted before it is out of
the loop's way. For writing it may be another one that has got the descriptor in the meantime.
-/

namespace StanDfs

namespace PollMgr

variable {κ : Type*} [DecidableEq κ] {fd : Nat} {s : PollMgr κ}

theorem next_addCallback (pipefd : Nat) {flag : PollFlag} {c : κ} (hfd : fd < maxPollFds)
    (hc : s.callbacks fd = none ∨ s.callbacks fd = some c) : next pipefd s (.addCallback fd flag c) =
      { s with aio := s.aio.watchFd fd flag, callbacks := Function.update s.callbacks fd (some c) } := by
  simp only [next, addCallback, hfd, ↓reduceIte, hc]

theorem next_delReadWrite (pipefd : Nat) (s : PollMgr κ) (fd : Nat) : ∃ a : SelectAIO,
    a.rfds = s.aio.rfds.erase fd ∧ a.wfds = s.aio.wfds.erase fd ∧
      next pipefd s (.delCallback fd .rdwr) =
        { s with aio := a, callbacks := Function.update s.callbacks fd none } := by
  obtain ⟨b, a, hu⟩ := SelectAIO.unwatchFd_rdwr pipefd s.aio fd
  obtain ⟨a₀, h₀, hr, hw⟩ := SelectAIO.clear_of_unwatchFd hu
  have hb : b = true := by
    unfold SelectAIO.unwatchFd at hu
    rw [h₀, Option.map_some, Option.some.injEq, Prod.mk.injEq] at hu
    cases h₀
    rw [← hu.1]
    unfold SelectAIO.isUnwatched
    simp
  cases h₀
  refine ⟨a, hr, hw, ?_⟩
  simp only [next, delCallback, hu, hb, ↓reduceIte]

theorem next_blockRemove (pipefd : Nat) (s : PollMgr κ) (t : Tid) (fd : Nat) : ∃ a : SelectAIO,
    a.rfds = s.aio.rfds.erase fd ∧ a.wfds = s.aio.wfds.erase fd ∧
      next pipefd s (.blockRemove t fd) = { s with
        aio := a, pendingChange := true, removals := Function.update s.removals t (.waiting fd false) } := by
  obtain ⟨b, a, hu⟩ := SelectAIO.unwatchFd_rdwr pipefd s.aio fd
  obtain ⟨a₀, h₀, hr, hw⟩ := SelectAIO.clear_of_unwatchFd hu
  cases h₀
  refine ⟨a, hr, hw, ?_⟩
  simp only [next, blockRemove, hu]

/-- A descriptor that is watched for reading keeps its callback. -/
theorem next_delWrite (pipefd : Nat) {fd : Nat} (h : fd ∈ s.aio.rfds) : ∃ a : SelectAIO,
    a.rfds = s.aio.rfds ∧ a.wfds = s.aio.wfds.erase fd ∧
      next pipefd s (.delCallback fd .wronly) = { s with aio := a } := by
  have hu : s.aio.unwatchFd pipefd fd .wronly =
      some (false, { s.aio with wfds := s.aio.wfds.erase fd }) := by
    simp [h, SelectAIO.unwatchFd, SelectAIO.clear, SelectAIO.isUnwatched]
  refine ⟨{ s.aio with wfds := s.aio.wfds.erase fd }, rfl, rfl, ?_⟩
  simp only [next, delCallback, hu, Bool.false_eq_true, ↓reduceIte]

theorem mem_watchFd {a : SelectAIO} {flag : PollFlag} {fd' : Nat}
    (h : fd' ∈ (a.watchFd fd flag).rfds ∨ fd' ∈ (a.watchFd fd flag).wfds) :
    fd' = fd ∨ fd' ∈ a.rfds ∨ fd' ∈ a.wfds := by
  cases flag <;> simp only [Finset.mem_insert, SelectAIO.watchFd] at h <;> tauto

theorem mem_watchFd_of_mem {a : SelectAIO} {flag : PollFlag} {fd' : Nat} (h : fd' ∈ a.rfds) :
    fd' ∈ (a.watchFd fd flag).rfds := by
  cases flag <;> simp [h, SelectAIO.watchFd]

end PollMgr

namespace Fleet

/-! ## Where the loop is -/

variable {χ : Type*} {cb cb' round : Nat → Option χ} {cur : Option χ} {l : LoopPc}

/-- The loop neither reads for the descriptor nor is at it. -/
def Past (fd : Nat) : LoopPc → Prop
  | .top | .clearing | .writing _ => True
  | .selecting r _ _ => fd ∉ r
  | .reading rs _ => fd ∉ rs
  | .toRead fd' rs _ | .inRead fd' rs _ => fd ≠ fd' ∧ fd ∉ rs
  | .toWrite fd' _ | .inWrite fd' _ => fd ≠ fd'

theorem past_of_without {fd : Nat} {l : LoopPc} (h : l.Without fd) : Past fd l := by
  cases l with
  | selecting r w high => exact h.1
  | reading rs ws => exact h.1
  | toRead fd' rs ws => exact ⟨h.1, h.2.1⟩
  | inRead fd' rs ws => exact ⟨h.1, h.2.1⟩
  | toWrite fd' ws => exact h.1
  | inWrite fd' ws => exact h.1
  | _ => trivial

/-- The entry is set, and is what it was when the loop took its copy. -/
def Fresh (cb round : Nat → Option χ) (fd : Nat) : Prop := ∃ c, cb fd = some c ∧ round fd = some c

/-- What the loop is still to read for has its entry, and so has what it is at. -/
def LoopOk (pipefd : Nat) (cb round : Nat → Option χ) (cur : Option χ) : LoopPc → Prop
  | .top | .clearing | .writing _ => cur = none
  | .selecting r _ _ => cur = none ∧ ∀ fd ∈ r, fd ≠ pipefd → Fresh cb round fd
  | .reading rs _ => cur = none ∧ rs.Nodup ∧ ∀ fd ∈ rs, Fresh cb round fd
  | .toRead fd rs _ => cur = none ∧ (fd :: rs).Nodup ∧ ∀ fd' ∈ fd :: rs, Fresh cb round fd'
  | .inRead fd rs _ => cur = cb fd ∧ (fd :: rs).Nodup ∧ ∀ fd' ∈ fd :: rs, Fresh cb round fd'
  | .toWrite fd _ => cur = none ∧ (cb fd).isSome
  | .inWrite fd _ => cur = cb fd ∧ (cb fd).isSome

/-- An entry that was set stays so, or the loop does not come to it. -/
theorem LoopOk.mono {pipefd : Nat} (h : LoopOk pipefd cb round cur l)
    (hc : ∀ fd, (cb fd).isSome → cb' fd = cb fd ∨ Past fd l) : LoopOk pipefd cb' round cur l := by
  have hsome : ∀ {fd}, Fresh cb round fd → (cb fd).isSome := by
    rintro fd ⟨c, hcb, _⟩
    rw [hcb]
    rfl
  have hfresh : ∀ {fd}, Fresh cb round fd → cb' fd = cb fd → Fresh cb' round fd := by
    rintro fd ⟨c, hcb, hr⟩ heq
    exact ⟨c, heq.trans hcb, hr⟩
  cases l with
  | top => exact h
  | clearing => exact h
  | writing ws => exact h
  | selecting r w high =>
      refine ⟨h.1, fun fd hfd hne => ?_⟩
      have hf := h.2 fd hfd hne
      rcases hc fd (hsome hf) with heq | hw
      · exact hfresh hf heq
      · exact absurd hfd hw
  | reading rs ws =>
      refine ⟨h.1, h.2.1, fun fd hfd => ?_⟩
      have hf := h.2.2 fd hfd
      rcases hc fd (hsome hf) with heq | hw
      · exact hfresh hf heq
      · exact absurd hfd hw
  | toRead fd rs ws =>
      refine ⟨h.1, h.2.1, fun fd' hfd => ?_⟩
      have hf := h.2.2 fd' hfd
      rcases hc fd' (hsome hf) with heq | hw
      · exact hfresh hf heq
      · rcases List.mem_cons.mp hfd with rfl | hfd
        · exact absurd rfl hw.1
        · exact absurd hfd hw.2
  | inRead fd rs ws =>
      have hall : ∀ fd' ∈ fd :: rs, cb' fd' = cb fd' := by
        intro fd' hfd
        rcases hc fd' (hsome (h.2.2 fd' hfd)) with heq | hw
        · exact heq
        · rcases List.mem_cons.mp hfd with rfl | hfd
          · exact absurd rfl hw.1
          · exact absurd hfd hw.2
      exact ⟨h.1.trans (hall fd List.mem_cons_self).symm, h.2.1,
        fun fd' hfd => hfresh (h.2.2 fd' hfd) (hall fd' hfd)⟩
  | toWrite fd ws =>
      rcases hc fd h.2 with heq | hw
      · exact ⟨h.1, by rw [heq]; exact h.2⟩
      · exact absurd rfl hw
  | inWrite fd ws =>
      rcases hc fd h.2 with heq | hw
      · exact ⟨by rw [heq]; exact h.1, by rw [heq]; exact h.2⟩
      · exact absurd rfl hw

/-! ## What holds of the connections -/

/-- The poll manager has the connection: it is not dead, or a thread is still to take it out. -/
def Served (s : Fleet χ) (c : χ) : Prop :=
  s.Open c ∧ ((s.conns c).dead = true → ∃ t, s.removing t = some c)

/-- `callbacks_` has the connections that the poll manager serves, each at its descriptor. -/
structure Sound (pipefd : Nat) (s : Fleet χ) : Prop where
  aborted : s.mgr.aborted = false
  deleted : ∀ c ∈ s.deleted, c ∈ s.known
  small : ∀ c, s.Open c → s.fd c < PollMgr.maxPollFds ∧ s.fd c ≠ pipefd
  distinct : ∀ c c', s.Open c → s.Open c' → s.fd c = s.fd c' → c = c'
  entry : ∀ fd c, s.mgr.callbacks fd = some c ↔ s.Served c ∧ s.fd c = fd
  reads : ∀ c, s.Open c → (s.conns c).dead = false → s.fd c ∈ s.mgr.aio.rfds
  watched : ∀ fd, fd ∈ s.mgr.aio.rfds ∨ fd ∈ s.mgr.aio.wfds → fd ≠ pipefd → (s.mgr.callbacks fd).isSome
  removing : ∀ t c, s.removing t = some c → s.Open c ∧ (s.conns c).dead = true
  alone : ∀ t t' c, s.removing t = some c → s.removing t' = some c → t = t'
  waits : ∀ t fd w, s.mgr.removals t = .waiting fd w → ∃ c, s.removing t = some c ∧ s.fd c = fd ∧
    s.mgr.aio.Unwatched fd ∧ (w = true → s.mgr.loop.Without fd)
  loop : LoopOk pipefd s.mgr.callbacks s.round s.current s.mgr.loop

variable {pipefd : Nat} {s : Fleet χ}

theorem Sound.callback (h : s.Sound pipefd) {c : χ} (hc : s.Served c) : s.mgr.callbacks (s.fd c) = some c :=
  (h.entry _ c).mpr ⟨hc, rfl⟩

theorem Sound.served (h : s.Sound pipefd) {fd : Nat} {c : χ} (hc : s.mgr.callbacks fd = some c) :
    s.Served c ∧ s.fd c = fd := (h.entry fd c).mp hc

theorem served_of_live {c : χ} (hc : s.Open c) (hd : (s.conns c).dead = false) : s.Served c :=
  ⟨hc, fun h => by rw [hd] at h; cases h⟩

theorem sound_init : Sound pipefd (init pipefd : Fleet χ) where
  aborted := rfl
  deleted c h := absurd h List.not_mem_nil
  small c h := absurd h.1 List.not_mem_nil
  distinct c c' h := absurd h.1 List.not_mem_nil
  entry fd c := iff_of_false (by simp [init, PollMgr.init]) fun h => List.not_mem_nil h.1.1.1
  reads c h := absurd h.1 List.not_mem_nil
  watched fd h hne := by
    simp only [init, PollMgr.init, SelectAIO.init, Finset.mem_singleton, Finset.notMem_empty, or_false] at h
    exact absurd h hne
  removing t c h := by cases h
  alone t t' c h := by cases h
  waits t fd w h := by cases h
  loop := rfl

variable [DecidableEq χ]

theorem conns_setConn (s : Fleet χ) (c c' : χ) (n : Sender) :
    (s.setConn c n).conns c' = if c' = c then n else s.conns c' := by
  by_cases h : c' = c
  · subst h
    simp [setConn]
  · simp [setConn, h]

/-- A connection goes on, as dead as it was. -/
theorem Sound.setConn (h : s.Sound pipefd) {c : χ} {n : Sender} (hd : n.dead = (s.conns c).dead) :
    (s.setConn c n).Sound pipefd := by
  have hdead : ∀ c', ((s.setConn c n).conns c').dead = (s.conns c').dead := by
    intro c'
    rw [conns_setConn]
    split
    · rename_i heq
      rw [heq, hd]
    · rfl
  have hserved : ∀ c', (s.setConn c n).Served c' ↔ s.Served c' := by
    intro c'
    rw [Served, Served, hdead]
    rfl
  exact
    { aborted := h.aborted
      deleted := h.deleted
      small := h.small
      distinct := h.distinct
      entry := fun fd c' => (h.entry fd c').trans (by rw [hserved]; rfl)
      reads := fun c' ho hl => h.reads c' ho (by rwa [hdead] at hl)
      watched := h.watched
      removing := fun t c' ht => ⟨(h.removing t c' ht).1, by rw [hdead]; exact (h.removing t c' ht).2⟩
      alone := h.alone
      waits := h.waits
      loop := h.loop }

/-- A connection dies, and a thread is to take it out of the poll manager. -/
theorem Sound.dies (h : s.Sound pipefd) {c : χ} {n : Sender} {t : Tid} (ho : s.Open c)
    (hl : (s.conns c).dead = false) (hd : n.dead = true) (ht : s.removing t = none) :
    ((s.setConn c n).setRemoving t (some c)).Sound pipefd := by
  have hnone : ∀ t', s.removing t' ≠ some c := fun t' h' => by
    rw [(h.removing t' c h').2] at hl
    cases hl
  have hrem : ∀ t' c', ((s.setConn c n).setRemoving t (some c)).removing t' = some c' ↔
      (t' = t ∧ c' = c) ∨ s.removing t' = some c' := by
    intro t' c'
    by_cases htt : t' = t
    · subst htt
      simp [setRemoving, ht, eq_comm]
    · simp [setRemoving, Fleet.setConn, htt]
  have hdead : ∀ c', c' ≠ c → ((s.setConn c n).conns c').dead = (s.conns c').dead := fun c' hne => by
    rw [conns_setConn, if_neg hne]
  have hserved : ∀ c', ((s.setConn c n).setRemoving t (some c)).Served c' ↔ s.Served c' := by
    intro c'
    by_cases hcc : c' = c
    · subst hcc
      exact iff_of_true ⟨ho, fun _ => ⟨t, (hrem t c').mpr (.inl ⟨rfl, rfl⟩)⟩⟩ (served_of_live ho hl)
    · refine and_congr Iff.rfl ?_
      rw [show (((s.setConn c n).setRemoving t (some c)).conns c').dead = (s.conns c').dead from hdead c' hcc]
      exact imp_congr Iff.rfl (exists_congr fun t' => (hrem t' c').trans
        (or_iff_right fun h' => hcc h'.2))
  refine
    { aborted := h.aborted
      deleted := h.deleted
      small := h.small
      distinct := h.distinct
      entry := fun fd c' => (h.entry fd c').trans (by rw [hserved]; rfl)
      reads := fun c' ho' hl' => ?_
      watched := h.watched
      removing := fun t' c' h' => ?_
      alone := fun t₁ t₂ c' h₁ h₂ => ?_
      waits := fun t' fd w hw => ?_
      loop := h.loop }
  · have hcc : c' ≠ c := by
      rintro rfl
      have hl' : ((s.setConn c' n).conns c').dead = false := hl'
      rw [conns_setConn, if_pos rfl, hd] at hl'
      cases hl'
    exact h.reads c' ho' ((hdead c' hcc).symm.trans hl')
  · rcases (hrem t' c').mp h' with ⟨_, rfl⟩ | h'
    · refine ⟨ho, ?_⟩
      show ((s.setConn c' n).conns c').dead = true
      rw [conns_setConn, if_pos rfl, hd]
    · obtain ⟨ho', hd'⟩ := h.removing t' c' h'
      exact ⟨ho', (hdead c' fun heq => hnone t' (heq ▸ h')).trans hd'⟩
  · rcases (hrem t₁ c').mp h₁ with ⟨heq₁, hc₁⟩ | hr₁
    · rcases (hrem t₂ c').mp h₂ with ⟨heq₂, _⟩ | hr₂
      · rw [heq₁, heq₂]
      · exact absurd (hc₁ ▸ hr₂) (hnone t₂)
    · rcases (hrem t₂ c').mp h₂ with ⟨_, hc₂⟩ | hr₂
      · exact absurd (hc₂ ▸ hr₁) (hnone t₁)
      · exact h.alone t₁ t₂ c' hr₁ hr₂
  · obtain ⟨c', hr, hfd, hu, hwo⟩ := h.waits t' fd w hw
    exact ⟨c', (hrem t' c').mpr (.inr hr), hfd, hu, hwo⟩

/-- A connection that the poll manager serves is watched for one thing more. -/
theorem Sound.addWrite (h : s.Sound pipefd) {c : χ} (ho : s.Open c) (hl : (s.conns c).dead = false) :
    Sound pipefd { s with mgr := s.mgr.next pipefd (.addCallback (s.fd c) .wronly c) } := by
  have hcb := h.callback (served_of_live ho hl)
  have hupd : Function.update s.mgr.callbacks (s.fd c) (some c) = s.mgr.callbacks := by
    rw [← hcb, Function.update_eq_self]
  rw [PollMgr.next_addCallback pipefd (h.small c ho).1 (.inr hcb), hupd]
  refine
    { aborted := h.aborted
      deleted := h.deleted
      small := h.small
      distinct := h.distinct
      entry := h.entry
      reads := fun c' ho' hl' => PollMgr.mem_watchFd_of_mem (h.reads c' ho' hl')
      watched := fun fd hw hne => ?_
      removing := h.removing
      alone := h.alone
      waits := fun t fd w hw => ?_
      loop := h.loop }
  · rcases PollMgr.mem_watchFd hw with rfl | hw
    · show (s.mgr.callbacks (s.fd c)).isSome = true
      rw [hcb]
      rfl
    · exact h.watched fd hw hne
  · obtain ⟨c', hr, hfd, hu, hwo⟩ := h.waits t fd w hw
    refine ⟨c', hr, hfd, hu.watchFd ?_, hwo⟩
    rintro rfl
    obtain ⟨ho', hd'⟩ := h.removing t c' hr
    rw [h.distinct c' c ho' ho hfd, hl] at hd'
    cases hd'

/-- A new connection. -/
theorem Sound.opens (h : s.Sound pipefd) {c : χ} {fd : Nat} (hg : guard pipefd s (.opens c fd))
    (hfd : fd < PollMgr.maxPollFds) : (next pipefd s (.opens c fd)).Sound pipefd := by
  obtain ⟨_, hk, hp, hfree⟩ := hg
  have hdel : c ∉ s.deleted := fun hin => hk (h.deleted c hin)
  have hnone : s.mgr.callbacks fd = none := by
    cases hcb : s.mgr.callbacks fd with
    | none => rfl
    | some c' =>
        obtain ⟨hs, hfd'⟩ := h.served hcb
        exact absurd hfd' (hfree c' hs.1.1 hs.1.2)
  have hrem : ∀ t, s.removing t ≠ some c := fun t ht => hk (h.removing t c ht).1.1
  have hopen : ∀ c', (next pipefd s (.opens c fd)).Open c' ↔ c' = c ∨ s.Open c' := by
    intro c'
    have hiff : (next pipefd s (.opens c fd)).Open c' ↔ (c' = c ∨ c' ∈ s.known) ∧ c' ∉ s.deleted :=
      and_congr List.mem_cons Iff.rfl
    rw [hiff, Open]
    constructor
    · rintro ⟨rfl | hin, hd⟩
      · exact .inl rfl
      · exact .inr ⟨hin, hd⟩
    · rintro (rfl | ⟨hin, hd⟩)
      · exact ⟨.inl rfl, hdel⟩
      · exact ⟨.inr hin, hd⟩
  have hne : ∀ c', s.Open c' → c' ≠ c := fun c' ho heq => hk (heq ▸ ho.1)
  have hconns : ∀ c', (next pipefd s (.opens c fd)).conns c' = if c' = c then .init else s.conns c' :=
    fun c' => conns_setConn s c c' .init
  have hfds : ∀ c', (next pipefd s (.opens c fd)).fd c' = if c' = c then fd else s.fd c' := by
    intro c'
    by_cases hcc : c' = c
    · subst hcc
      simp [next]
    · simp [next, hcc]
  have hmgr : (next pipefd s (.opens c fd)).mgr =
      { s.mgr with aio := s.mgr.aio.watchFd fd .rdonly, callbacks := Function.update s.mgr.callbacks fd (some c) } :=
    PollMgr.next_addCallback pipefd hfd (.inl hnone)
  refine
    { aborted := by rw [hmgr]; exact h.aborted
      deleted := fun c' hin => List.mem_cons_of_mem _ (h.deleted c' hin)
      small := fun c' ho => ?_
      distinct := fun c₁ c₂ h₁ h₂ heq => ?_
      entry := fun fd' c' => ?_
      reads := fun c' ho hl => ?_
      watched := fun fd' hw hne' => ?_
      removing := fun t c' hr => ?_
      alone := h.alone
      waits := fun t fd' w hw => ?_
      loop := ?_ }
  · rw [hfds]
    rcases (hopen c').mp ho with rfl | ho
    · rw [if_pos rfl]
      exact ⟨hfd, hp⟩
    · rw [if_neg (hne c' ho)]
      exact h.small c' ho
  · rw [hfds, hfds] at heq
    rcases (hopen c₁).mp h₁ with hc₁ | ho₁
    · rcases (hopen c₂).mp h₂ with hc₂ | ho₂
      · rw [hc₁, hc₂]
      · rw [if_pos hc₁, if_neg (hne c₂ ho₂)] at heq
        exact absurd heq.symm (hfree c₂ ho₂.1 ho₂.2)
    · rcases (hopen c₂).mp h₂ with hc₂ | ho₂
      · rw [if_pos hc₂, if_neg (hne c₁ ho₁)] at heq
        exact absurd heq (hfree c₁ ho₁.1 ho₁.2)
      · rw [if_neg (hne c₁ ho₁), if_neg (hne c₂ ho₂)] at heq
        exact h.distinct c₁ c₂ ho₁ ho₂ heq
  · rw [hmgr, Served, hopen, hconns, hfds]
    by_cases hcc : c' = c
    · subst hcc
      by_cases hff : fd' = fd
      · subst hff
        simp [Sender.init]
      · have hold : s.mgr.callbacks fd' ≠ some c' := fun hcb => hk (h.served hcb).1.1.1
        simp [Function.update_of_ne hff, hold, Ne.symm hff]
    · by_cases hff : fd' = fd
      · subst hff
        have hold : ¬ (s.Served c' ∧ s.fd c' = fd') := fun hs => hfree c' hs.1.1.1 hs.1.1.2 hs.2
        rw [Served] at hold
        simp only [Function.update_self, Option.some.injEq, hcc, Ne.symm hcc, if_false, false_or, false_iff]
        exact hold
      · simp only [Function.update_of_ne hff, hcc, if_false, false_or]
        exact h.entry fd' c'
  · rw [hconns] at hl
    rw [hfds, hmgr]
    rcases (hopen c').mp ho with rfl | ho
    · rw [if_pos rfl]
      exact Finset.mem_insert_self _ _
    · rw [if_neg (hne c' ho)] at hl ⊢
      exact PollMgr.mem_watchFd_of_mem (h.reads c' ho hl)
  · rw [hmgr] at hw ⊢
    by_cases hff : fd' = fd
    · subst hff
      simp
    · have hold := h.watched fd' ((PollMgr.mem_watchFd hw).resolve_left hff) hne'
      simpa only [Function.update_of_ne hff] using hold
  · obtain ⟨ho, hd⟩ := h.removing t c' hr
    refine ⟨(hopen c').mpr (.inr ho), ?_⟩
    rw [hconns, if_neg (hne c' ho)]
    exact hd
  · rw [hmgr] at hw ⊢
    obtain ⟨c', hr, hfd', hu, hwo⟩ := h.waits t fd' w hw
    obtain ⟨ho, _⟩ := h.removing t c' hr
    refine ⟨c', hr, by rw [hfds, if_neg (hne c' ho)]; exact hfd', hu.watchFd ?_, hwo⟩
    rintro rfl
    exact hfree c' ho.1 ho.2 hfd'
  · rw [hmgr]
    refine h.loop.mono fun fd' hs => .inl ?_
    by_cases hff : fd' = fd
    · rw [hff, hnone] at hs
      cases hs
    · exact Function.update_of_ne hff _ _

/-- A connection is no longer watched for writing. -/
theorem Sound.delWrite (h : s.Sound pipefd) {c : χ} (ho : s.Open c) (hl : (s.conns c).dead = false) :
    Sound pipefd { s with mgr := s.mgr.next pipefd (.delCallback (s.fd c) .wronly) } := by
  obtain ⟨a, hr, hw, hn⟩ := PollMgr.next_delWrite pipefd (h.reads c ho hl)
  rw [hn]
  refine
    { aborted := h.aborted
      deleted := h.deleted
      small := h.small
      distinct := h.distinct
      entry := h.entry
      reads := fun c' ho' hl' => by rw [hr]; exact h.reads c' ho' hl'
      watched := fun fd hw' hne => h.watched fd (hw'.imp (fun h => by rwa [hr] at h) fun h => ?_) hne
      removing := h.removing
      alone := h.alone
      waits := fun t fd w hwt => ?_
      loop := h.loop }
  · rw [hw] at h
    exact Finset.mem_of_mem_erase h
  · obtain ⟨c', hr', hfd, hu, hwo⟩ := h.waits t fd w hwt
    exact ⟨c', hr', hfd, ⟨by rw [hr]; exact hu.1, by rw [hw]; exact fun hin => hu.2 (Finset.mem_of_mem_erase hin)⟩, hwo⟩

/-- A connection dies in its own callback, and is out of the poll manager at once. -/
theorem Sound.gone (h : s.Sound pipefd) {c : χ} {n : Sender} (ho : s.Open c) (hl : (s.conns c).dead = false)
    (hd : n.dead = true) (hp : Past (s.fd c) s.mgr.loop) :
    Sound pipefd { s.setConn c n with mgr := s.mgr.next pipefd (.delCallback (s.fd c) .rdwr) } := by
  obtain ⟨a, hr, hw, hn⟩ := PollMgr.next_delReadWrite pipefd s.mgr (s.fd c)
  rw [hn]
  have hdead : ∀ c', c' ≠ c → ((s.setConn c n).conns c').dead = (s.conns c').dead := fun c' hne => by
    rw [conns_setConn, if_neg hne]
  have hself : ((s.setConn c n).conns c).dead = true := by rw [conns_setConn, if_pos rfl, hd]
  have hnone : ∀ t, s.removing t ≠ some c := fun t ht => by
    rw [(h.removing t c ht).2] at hl
    cases hl
  refine
    { aborted := h.aborted
      deleted := h.deleted
      small := h.small
      distinct := h.distinct
      entry := fun fd c' => ?_
      reads := fun c' ho' hl' => ?_
      watched := fun fd hw' hne => ?_
      removing := fun t c' ht => ?_
      alone := h.alone
      waits := fun t fd w hwt => ?_
      loop := h.loop.mono fun fd hs => ?_ }
  · by_cases hcc : c' = c
    · subst hcc
      refine iff_of_false (fun hcb => ?_) fun hs => ?_
      · by_cases hff : fd = s.fd c'
        · subst hff
          simp at hcb
        · simp only [Function.update_of_ne hff] at hcb
          exact hff (h.served hcb).2.symm
      · obtain ⟨t, ht⟩ := hs.1.2 hself
        exact hnone t ht
    · have hs : Served { s.setConn c n with mgr := { s.mgr with
          aio := a, callbacks := Function.update s.mgr.callbacks (s.fd c) none } } c' ↔ s.Served c' :=
        and_congr Iff.rfl (imp_congr (by rw [← hdead c' hcc]) Iff.rfl)
      rw [hs]
      by_cases hff : fd = s.fd c
      · subst hff
        refine iff_of_false (by simp) fun hs' => hcc (h.distinct c' c hs'.1.1 ho hs'.2)
      · simp only [Function.update_of_ne hff]
        exact h.entry fd c'
  · have hcc : c' ≠ c := by
      rintro rfl
      have hl' : ((s.setConn c' n).conns c').dead = false := hl'
      rw [hself] at hl'
      cases hl'
    have hne : s.fd c' ≠ s.fd c := fun heq => hcc (h.distinct c' c ho' ho heq)
    show s.fd c' ∈ a.rfds
    rw [hr]
    exact Finset.mem_erase.mpr ⟨hne, h.reads c' ho' ((hdead c' hcc).symm.trans hl')⟩
  · have hin : fd ≠ s.fd c ∧ (fd ∈ s.mgr.aio.rfds ∨ fd ∈ s.mgr.aio.wfds) := by
      have hw' : fd ∈ a.rfds ∨ fd ∈ a.wfds := hw'
      rw [hr, hw, Finset.mem_erase, Finset.mem_erase] at hw'
      rcases hw' with hw' | hw'
      · exact ⟨hw'.1, .inl hw'.2⟩
      · exact ⟨hw'.1, .inr hw'.2⟩
    simp only [Function.update_of_ne hin.1]
    exact h.watched fd hin.2 hne
  · obtain ⟨ho', hd'⟩ := h.removing t c' ht
    exact ⟨ho', (hdead c' fun heq => hnone t (heq ▸ ht)).trans hd'⟩
  · obtain ⟨c', hr', hfd, hu, hwo⟩ := h.waits t fd w hwt
    refine ⟨c', hr', hfd, ⟨?_, ?_⟩, hwo⟩
    · rw [hr]
      exact fun hin => hu.1 (Finset.mem_of_mem_erase hin)
    · rw [hw]
      exact fun hin => hu.2 (Finset.mem_of_mem_erase hin)
  · by_cases hff : fd = s.fd c
    · subst hff
      exact .inr hp
    · exact .inl (Function.update_of_ne hff _ _)

/-- A thread calls `block_remove_fd`. -/
theorem Sound.blockRemove (h : s.Sound pipefd) {t : Tid} {c : χ} (ht : s.removing t = some c) :
    Sound pipefd { s with mgr := s.mgr.next pipefd (.blockRemove t (s.fd c)) } := by
  obtain ⟨a, hr, hw, hn⟩ := PollMgr.next_blockRemove pipefd s.mgr t (s.fd c)
  rw [hn]
  obtain ⟨ho, hd⟩ := h.removing t c ht
  refine
    { aborted := h.aborted
      deleted := h.deleted
      small := h.small
      distinct := h.distinct
      entry := h.entry
      reads := fun c' ho' hl => ?_
      watched := fun fd hw' hne => h.watched fd ?_ hne
      removing := h.removing
      alone := h.alone
      waits := fun t' fd w hwt => ?_
      loop := h.loop }
  · have hne : s.fd c' ≠ s.fd c := by
      intro heq
      rw [h.distinct c' c ho' ho heq, hd] at hl
      cases hl
    show s.fd c' ∈ a.rfds
    rw [hr]
    exact Finset.mem_erase.mpr ⟨hne, h.reads c' ho' hl⟩
  · have hw' : fd ∈ a.rfds ∨ fd ∈ a.wfds := hw'
    rw [hr, hw] at hw'
    exact hw'.imp Finset.mem_of_mem_erase Finset.mem_of_mem_erase
  · by_cases htt : t' = t
    · subst htt
      have heq : Removal.waiting (s.fd c) false = .waiting fd w := by simpa using hwt
      cases heq
      refine ⟨c, ht, rfl, ⟨?_, ?_⟩, fun h => nomatch h⟩
      · rw [hr]
        exact Finset.notMem_erase _ _
      · rw [hw]
        exact Finset.notMem_erase _ _
    · simp only [Function.update_of_ne htt] at hwt
      obtain ⟨c', hr', hfd, hu, hwo⟩ := h.waits t' fd w hwt
      refine ⟨c', hr', hfd, ⟨?_, ?_⟩, hwo⟩
      · rw [hr]
        exact fun hin => hu.1 (Finset.mem_of_mem_erase hin)
      · rw [hw]
        exact fun hin => hu.2 (Finset.mem_of_mem_erase hin)

/-- A thread returns from `block_remove_fd`. -/
theorem Sound.removed (h : s.Sound pipefd) {t : Tid} (hg : s.mgr.guard (.removed t)) :
    (next pipefd s (.removed t)).Sound pipefd := by
  obtain ⟨_, fd, hw⟩ := hg
  obtain ⟨c, ht, hfd, hu, hwo⟩ := h.waits t fd true hw
  obtain ⟨ho, hd⟩ := h.removing t c ht
  have hmgr : s.mgr.next pipefd (.removed t) = { s.mgr with
      callbacks := Function.update s.mgr.callbacks fd none
      removals := Function.update s.mgr.removals t .out } := by
    simp only [PollMgr.next, PollMgr.removed, hw]
  have hrem : ∀ t' c', (next pipefd s (.removed t)).removing t' = some c' ↔ t' ≠ t ∧ s.removing t' = some c' := by
    intro t' c'
    by_cases htt : t' = t
    · subst htt
      simp [next, setRemoving]
    · simp [next, setRemoving, htt]
  have hserved : ∀ c', (next pipefd s (.removed t)).Served c' ↔ s.Served c' ∧ c' ≠ c := by
    intro c'
    have hiff : (next pipefd s (.removed t)).Served c' ↔ s.Open c' ∧
        ((s.conns c').dead = true → ∃ t', t' ≠ t ∧ s.removing t' = some c') :=
      and_congr Iff.rfl (imp_congr Iff.rfl (exists_congr fun t' => hrem t' c'))
    rw [hiff]
    constructor
    · rintro ⟨ho', hall⟩
      refine ⟨⟨ho', fun hd' => ?_⟩, ?_⟩
      · obtain ⟨t', _, hr⟩ := hall hd'
        exact ⟨t', hr⟩
      · rintro rfl
        obtain ⟨t', hne, hr⟩ := hall hd
        exact hne (h.alone t' t c' hr ht)
    · rintro ⟨⟨ho', hall⟩, hne⟩
      refine ⟨ho', fun hd' => ?_⟩
      obtain ⟨t', hr⟩ := hall hd'
      refine ⟨t', ?_, hr⟩
      rintro rfl
      rw [ht] at hr
      exact hne (Option.some.inj hr).symm
  have hcb : ∀ fd', (next pipefd s (.removed t)).mgr.callbacks fd' =
      Function.update s.mgr.callbacks fd none fd' := fun fd' => by
    show (s.mgr.next pipefd (.removed t)).callbacks fd' = _
    rw [hmgr]
  have haio : (next pipefd s (.removed t)).mgr.aio = s.mgr.aio := by
    show (s.mgr.next pipefd (.removed t)).aio = _
    rw [hmgr]
  have hloop : (next pipefd s (.removed t)).mgr.loop = s.mgr.loop := by
    show (s.mgr.next pipefd (.removed t)).loop = _
    rw [hmgr]
  refine
    { aborted := (congrArg PollMgr.aborted hmgr).trans h.aborted
      deleted := h.deleted
      small := h.small
      distinct := h.distinct
      entry := fun fd' c' => ?_
      reads := fun c' ho' hl => by rw [haio]; exact h.reads c' ho' hl
      watched := fun fd' hw' hne => ?_
      removing := fun t' c' hr => h.removing t' c' ((hrem t' c').mp hr).2
      alone := fun t₁ t₂ c' h₁ h₂ => h.alone t₁ t₂ c' ((hrem t₁ c').mp h₁).2 ((hrem t₂ c').mp h₂).2
      waits := fun t' fd' w hwt => ?_
      loop := ?_ }
  · rw [hcb, hserved]
    by_cases hff : fd' = fd
    · subst hff
      rw [Function.update_self]
      refine iff_of_false (by simp) ?_
      rintro ⟨⟨hs, hne⟩, hfd'⟩
      exact hne (h.distinct c' c hs.1 ho (hfd'.trans hfd.symm))
    · rw [Function.update_of_ne hff, h.entry fd' c']
      constructor
      · rintro ⟨hs, hfd'⟩
        refine ⟨⟨hs, ?_⟩, hfd'⟩
        rintro rfl
        exact hff (hfd'.symm.trans hfd)
      · rintro ⟨⟨hs, _⟩, hfd'⟩
        exact ⟨hs, hfd'⟩
  · rw [haio] at hw'
    rw [hcb]
    have hff : fd' ≠ fd := by
      rintro rfl
      exact hw'.elim hu.1 hu.2
    rw [Function.update_of_ne hff]
    exact h.watched fd' hw' hne
  · have hwt : (s.mgr.next pipefd (.removed t)).removals t' = .waiting fd' w := hwt
    rw [hmgr] at hwt
    by_cases htt : t' = t
    · subst htt
      simp at hwt
    · simp only [Function.update_of_ne htt] at hwt
      obtain ⟨c', hr', hfd', hu', hwo'⟩ := h.waits t' fd' w hwt
      exact ⟨c', (hrem t' c').mpr ⟨htt, hr'⟩, hfd', by rw [haio]; exact hu', by rw [hloop]; exact hwo'⟩
  · rw [hloop]
    refine h.loop.mono fun fd' hs => ?_
    by_cases hff : fd' = fd
    · subst hff
      exact .inr (past_of_without (hwo rfl))
    · rw [hcb]
      exact .inl (Function.update_of_ne hff _ _)

/-- The object is freed. -/
theorem Sound.delete (h : s.Sound pipefd) {c : χ} (hg : guard pipefd s (.delete c)) :
    (next pipefd s (.delete c)).Sound pipefd := by
  obtain ⟨_, ho, hd, _, hrem⟩ := hg
  have hopen : ∀ c', (next pipefd s (.delete c)).Open c' ↔ s.Open c' ∧ c' ≠ c := by
    intro c'
    simp only [Open, next, List.mem_cons, not_or]
    tauto
  have hserved : ∀ c', (next pipefd s (.delete c)).Served c' ↔ s.Served c' := by
    intro c'
    rw [Served, hopen]
    constructor
    · rintro ⟨⟨ho', _⟩, hall⟩
      exact ⟨ho', hall⟩
    · rintro ⟨ho', hall⟩
      refine ⟨⟨ho', ?_⟩, hall⟩
      rintro rfl
      obtain ⟨t, ht⟩ := hall hd
      exact hrem t ht
  exact
    { aborted := h.aborted
      deleted := fun c' hin => by
        rcases List.mem_cons.mp hin with rfl | hin
        · exact ho.1
        · exact h.deleted c' hin
      small := fun c' ho' => h.small c' ((hopen c').mp ho').1
      distinct := fun c₁ c₂ h₁ h₂ => h.distinct c₁ c₂ ((hopen c₁).mp h₁).1 ((hopen c₂).mp h₂).1
      entry := fun fd c' => (h.entry fd c').trans (by rw [hserved]; rfl)
      reads := fun c' ho' => h.reads c' ((hopen c').mp ho').1
      watched := h.watched
      removing := fun t c' hr => by
        obtain ⟨ho', hd'⟩ := h.removing t c' hr
        refine ⟨(hopen c').mpr ⟨ho', ?_⟩, hd'⟩
        rintro rfl
        exact hrem t hr
      alone := h.alone
      waits := h.waits
      loop := h.loop }

/-! ## The poll loop moves -/

omit [DecidableEq χ] in
/-- Only the loop has moved, and threads have been woken. -/
theorem Sound.turn (h : s.Sound pipefd) {m : PollMgr χ} {cur : Option χ} {round : Nat → Option χ}
    (hab : m.aborted = false) (ha : m.aio = s.mgr.aio) (hc : m.callbacks = s.mgr.callbacks)
    (hw : ∀ t fd w, m.removals t = .waiting fd w → ∃ c, s.removing t = some c ∧ s.fd c = fd ∧
      s.mgr.aio.Unwatched fd ∧ (w = true → m.loop.Without fd))
    (hl : LoopOk pipefd s.mgr.callbacks round cur m.loop) :
    Sound pipefd { s with mgr := m, current := cur, round := round } where
  aborted := hab
  deleted := h.deleted
  small := h.small
  distinct := h.distinct
  entry fd c := (Eq.congr_left (congrFun hc fd)).trans (h.entry fd c)
  reads c ho hd := ha ▸ h.reads c ho hd
  watched fd hin hne := by
    show (m.callbacks fd).isSome
    have hin : fd ∈ m.aio.rfds ∨ fd ∈ m.aio.wfds := hin
    rw [ha] at hin
    rw [hc]
    exact h.watched fd hin hne
  removing := h.removing
  alone := h.alone
  waits t fd w hwt := by
    obtain ⟨c, hr, hfd, hu, hwo⟩ := hw t fd w hwt
    exact ⟨c, hr, hfd, ha ▸ hu, hwo⟩
  loop := by
    show LoopOk pipefd m.callbacks round cur m.loop
    rw [hc]
    exact hl

theorem Sound.polls (h : s.Sound pipefd) {a : PollMgr.Act χ} (hp : a.polls = true) (hg : s.mgr.guard a)
    {cur : Option χ} {round : Nat → Option χ} (hab : (s.mgr.next pipefd a).aborted = false)
    (hl : LoopOk pipefd s.mgr.callbacks round cur (s.mgr.next pipefd a).loop) :
    Sound pipefd { s with mgr := s.mgr.next pipefd a, current := cur, round := round } := by
  obtain ⟨l, b, hn⟩ := PollMgr.polls_frame pipefd s.mgr hp
  refine h.turn hab (by rw [hn]) (by rw [hn]) (fun t fd w hw => ?_) hl
  rw [hn] at hw
  obtain ⟨c, hr, hfd, hu, hwo⟩ := h.waits t fd w hw
  exact ⟨c, hr, hfd, hu, fun ht => PollMgr.without_step hu (hwo ht) hg⟩

theorem Sound.checkPending (h : s.Sound pipefd) {cur : Option χ} (hcur : cur = none) {round : Nat → Option χ} :
    Sound pipefd { s with mgr := s.mgr.next pipefd .checkPending, current := cur, round := round } := by
  have hl : (s.mgr.next pipefd .checkPending).loop = .clearing := (PollMgr.checkPending_frame s.mgr).2
  refine h.turn ?_ (PollMgr.checkPending_frame s.mgr).1 ?_ (fun t fd w hw => ?_) ?_
  · simp only [PollMgr.next, PollMgr.checkPending]
    split <;> exact h.aborted
  · simp only [PollMgr.next, PollMgr.checkPending]
    split <;> rfl
  · have hold : ∃ w', s.mgr.removals t = .waiting fd w' := by
      simp only [PollMgr.next, PollMgr.checkPending] at hw
      split at hw
      · cases hr : s.mgr.removals t with
        | out => simp [hr, PollMgr.wake] at hw
        | waiting fd' w' =>
            simp only [hr, PollMgr.wake, Removal.waiting.injEq] at hw
            exact ⟨w', by rw [hw.1]⟩
      · exact ⟨w, hw⟩
    obtain ⟨w', hw'⟩ := hold
    obtain ⟨c, hr, hfd, hu, _⟩ := h.waits t fd w' hw'
    refine ⟨c, hr, hfd, hu, fun _ => ?_⟩
    rw [hl]
    trivial
  · rw [hl]
    exact hcur

omit [DecidableEq χ] in
/-- `select` is asked about descriptors that have their entry now, and gives each at most once. -/
theorem Sound.fresh (h : s.Sound pipefd) {fd : Nat} (hin : fd ∈ s.mgr.aio.rfds) (hne : fd ≠ pipefd) :
    Fresh s.mgr.callbacks s.mgr.callbacks fd := by
  obtain ⟨c, hc⟩ := Option.isSome_iff_exists.mp (h.watched fd (.inl hin) hne)
  exact ⟨c, hc, hc⟩

open SelectAIO (ready) in
omit [DecidableEq χ] in
theorem ready_read {pipefd high : Nat} {trfds twfds : Finset Nat} :
    (ready pipefd high trfds twfds).1.Nodup ∧
      ∀ fd ∈ (ready pipefd high trfds twfds).1, fd ∈ trfds ∧ fd ≠ pipefd := by
  refine ⟨(List.nodup_range.filter _).filter _, fun fd hin => ?_⟩
  simp only [ready, List.mem_filter, decide_eq_true_eq] at hin
  exact ⟨hin.2, fun heq => hin.1.2 ⟨heq, hin.2⟩⟩

/-- A step of the loop between callbacks. What it is to call is there. -/
theorem Sound.poll (h : s.Sound pipefd) {a : PollMgr.Act χ} (ha : loops a = true) (hg : s.mgr.guard a)
    (hf : a ≠ .selectFailed) : (next pipefd s (.poll a)).Sound pipefd := by
  have hgs := hg
  obtain ⟨_, hgs⟩ := hgs
  have hab := h.aborted
  have hok := h.loop
  cases a with
  | addCallback | delCallback | blockRemove | removed | readReturns | writeReturns => cases ha
  | selectFailed => exact absurd rfl hf
  | checkPending => exact h.checkPending rfl
  | snapshot => exact h.polls rfl hg hab ⟨rfl, fun fd hin hne => h.fresh hin hne⟩
  | select r w =>
      obtain ⟨tr, tw, high, hl, hr, _⟩ := hgs
      rw [hl] at hok
      refine h.polls rfl hg (by simpa only [PollMgr.next, PollMgr.select, hl] using hab) ?_
      simp only [PollMgr.next, PollMgr.select, hl, reduceCtorEq, ↓reduceIte]
      split
      · rfl
      · refine ⟨rfl, ready_read.1, fun fd hin => ?_⟩
        obtain ⟨hin, hne⟩ := ready_read.2 fd hin
        exact hok.2 fd (hr hin) hne
  | interrupted => exact h.polls rfl hg hab rfl
  | checkRead =>
      obtain ⟨rs, ws, hl⟩ := hgs
      rw [hl] at hok
      cases rs with
      | nil =>
          refine h.polls rfl hg (by simpa only [PollMgr.next, PollMgr.checkRead, hl] using hab) ?_
          simp only [PollMgr.next, PollMgr.checkRead, hl]
          rfl
      | cons fd rs =>
          refine h.polls rfl hg (by simpa only [PollMgr.next, PollMgr.checkRead, hl] using hab) ?_
          simp only [PollMgr.next, PollMgr.checkRead, hl, reduceCtorEq, ↓reduceIte]
          split
          · exact ⟨rfl, hok.2⟩
          · exact ⟨rfl, hok.2.1.of_cons, fun fd' hin => hok.2.2 fd' (List.mem_cons_of_mem _ hin)⟩
  | callRead =>
      obtain ⟨fd, rs, ws, hl⟩ := hgs
      rw [hl] at hok
      obtain ⟨c, hc, _⟩ := hok.2.2 fd List.mem_cons_self
      refine h.polls rfl hg ?_ ?_
      all_goals simp only [PollMgr.next, PollMgr.callRead, hl, hc, Option.isSome_some, ↓reduceIte, called]
      · exact hab
      · exact ⟨hc.symm, hok.2⟩
  | checkWrite =>
      obtain ⟨ws, hl⟩ := hgs
      cases ws with
      | nil =>
          refine h.polls rfl hg (by simpa only [PollMgr.next, PollMgr.checkWrite, hl] using hab) ?_
          simp only [PollMgr.next, PollMgr.checkWrite, hl]
          rfl
      | cons fd ws =>
          refine h.polls rfl hg (by simpa only [PollMgr.next, PollMgr.checkWrite, hl] using hab) ?_
          simp only [PollMgr.next, PollMgr.checkWrite, hl, reduceCtorEq, ↓reduceIte]
          split
          · rename_i hc
            exact ⟨rfl, hc⟩
          · rfl
  | callWrite =>
      obtain ⟨fd, ws, hl⟩ := hgs
      rw [hl] at hok
      refine h.polls rfl hg ?_ ?_
      all_goals simp only [PollMgr.next, PollMgr.callWrite, hl, hok.2, ↓reduceIte, called]
      · exact hab
      · exact ⟨rfl, hok.2⟩

/-! ## Callbacks -/

omit [DecidableEq χ] in
/-- The callback that runs is that of a connection that exists, at the descriptor of the round. -/
theorem Sound.inRead (h : s.Sound pipefd) {fd : Nat} {rs ws : List Nat} (hl : s.mgr.loop = .inRead fd rs ws) :
    ∃ c, s.current = some c ∧ s.round fd = some c ∧ s.Served c ∧ s.fd c = fd := by
  have hok := h.loop
  rw [hl] at hok
  obtain ⟨c, hc, hr⟩ := hok.2.2 fd List.mem_cons_self
  exact ⟨c, hok.1.trans hc, hr, h.served hc⟩

omit [DecidableEq χ] in
theorem Sound.inWrite (h : s.Sound pipefd) {fd : Nat} {ws : List Nat} (hl : s.mgr.loop = .inWrite fd ws) :
    ∃ c, s.current = some c ∧ s.Served c ∧ s.fd c = fd := by
  have hok := h.loop
  rw [hl] at hok
  obtain ⟨c, hc⟩ := Option.isSome_iff_exists.mp hok.2
  exact ⟨c, hok.1.trans hc, h.served hc⟩

theorem next_readReturns_comm (m : PollMgr χ) (fd : Nat) (flag : PollFlag) :
    (m.next pipefd (.delCallback fd flag)).next pipefd .readReturns =
      (m.next pipefd .readReturns).next pipefd (.delCallback fd flag) := by
  obtain ⟨aio, _, _, _, loop, _⟩ := m
  cases hu : aio.unwatchFd pipefd fd flag with
  | none => cases loop <;> simp only [PollMgr.next, PollMgr.readReturns, PollMgr.delCallback, hu]
  | some u => cases loop <;> simp only [PollMgr.next, PollMgr.readReturns, PollMgr.delCallback, hu]

theorem next_writeReturns_comm (m : PollMgr χ) (fd : Nat) (flag : PollFlag) :
    (m.next pipefd (.delCallback fd flag)).next pipefd .writeReturns =
      (m.next pipefd .writeReturns).next pipefd (.delCallback fd flag) := by
  obtain ⟨aio, _, _, _, loop, _⟩ := m
  cases hu : aio.unwatchFd pipefd fd flag with
  | none => cases loop <;> simp only [PollMgr.next, PollMgr.writeReturns, PollMgr.delCallback, hu]
  | some u => cases loop <;> simp only [PollMgr.next, PollMgr.writeReturns, PollMgr.delCallback, hu]

/-- `read_cb`, and the loop is past the descriptor: it is in the list of the readable ones no second time. -/
theorem Sound.readCb (h : s.Sound pipefd) {succ : Bool} (hg : s.mgr.guard .readReturns) :
    (next pipefd s (.readCb succ)).Sound pipefd := by
  obtain ⟨fd, rs, ws, hl⟩ := hg.2
  obtain ⟨c, hcur, _, hs, rfl⟩ := h.inRead hl
  have hok := h.loop
  rw [hl] at hok
  have hloop : (s.mgr.next pipefd .readReturns).loop = .reading rs ws := by
    simp only [PollMgr.next, PollMgr.readReturns, hl]
  have hret : Sound pipefd { s with mgr := s.mgr.next pipefd .readReturns, current := none } := by
    refine h.polls rfl hg ?_ ?_
    · simpa only [PollMgr.next, PollMgr.readReturns, hl] using h.aborted
    rw [hloop]
    exact ⟨rfl, hok.2.1.of_cons, fun fd' hin => hok.2.2 fd' (List.mem_cons_of_mem _ hin)⟩
  simp only [next, hcur, Fleet.readCb]
  split
  · exact hret
  · rename_i hds
    have hd : (s.conns c).dead = false := by
      rw [Bool.or_eq_true, not_or] at hds
      simpa using hds.1
    have hpast : Past (s.fd c) (s.mgr.next pipefd .readReturns).loop := by
      rw [hloop]
      exact (List.nodup_cons.mp hok.2.1).1
    have hgone := hret.gone (c := c) (n := (s.conns c).next .readFailed) hs.1 hd rfl hpast
    rw [next_readReturns_comm]
    exact hgone

theorem Sound.writeCb (h : s.Sound pipefd) {r : WriteResult} (hg : s.mgr.guard .writeReturns) :
    (next pipefd s (.writeCb r)).Sound pipefd := by
  obtain ⟨fd, ws, hl⟩ := hg.2
  obtain ⟨c, hcur, hs, rfl⟩ := h.inWrite hl
  have hloop : (s.mgr.next pipefd .writeReturns).loop = .writing ws := by
    simp only [PollMgr.next, PollMgr.writeReturns, hl]
  have hret : Sound pipefd { s with mgr := s.mgr.next pipefd .writeReturns, current := none } := by
    refine h.polls rfl hg ?_ ?_
    · simpa only [PollMgr.next, PollMgr.writeReturns, hl] using h.aborted
    rw [hloop]
    rfl
  have hkept : ((s.conns c).next (.writeCb r)).dead = (s.conns c).dead →
      Sound pipefd { s.setConn c ((s.conns c).next (.writeCb r)) with
        mgr := s.mgr.next pipefd .writeReturns, current := none } := fun hd => hret.setConn (c := c) hd
  simp only [next, hcur, Fleet.writeCb]
  cases hd : (s.conns c).dead with
  | true =>
      rw [if_pos rfl]
      refine hkept ?_
      simp [Sender.next, hd]
  | false =>
      rw [if_neg (by simp)]
      split
      · -- nothing to write: the connection is as before, but no longer watched for writing
        rename_i hz
        have hn : (s.conns c).next (.writeCb r) = s.conns c := by
          simp [Sender.next, hd, hz]
        have hdel := (hkept (by rw [hn])).delWrite (c := c) hs.1 (by rw [conns_setConn, if_pos rfl, hn, hd])
        rw [next_writeReturns_comm]
        exact hdel
      · split
        · rename_i hn
          have hpast : Past (s.fd c) (s.mgr.next pipefd .writeReturns).loop := by
            rw [hloop]
            trivial
          have hgone := hret.gone (c := c) hs.1 hd hn hpast
          rw [next_writeReturns_comm]
          exact hgone
        · rename_i hn
          exact hkept ((Bool.eq_false_of_not_eq_true hn).trans hd.symm)

/-! ## Threads -/

/-- What `send` does after its first wait. -/
theorem Sound.entering (h : s.Sound pipefd) {c : χ} {a : Sender.Act} {t : Tid} {b : Pdu} {r : WriteResult}
    (ha : a = .send t b r ∨ a = .resume t r ∧ ∃ w, (s.conns c).threads t = .waiting b w) (ho : s.Open c)
    (ht : s.removing t = none) : (s.sent pipefd c t ((s.conns c).next a)).Sound pipefd := by
  cases hd : ((s.conns c).next a).dead with
  | true =>
      rcases Polled.entering_dead ha hd with ⟨hd', hp⟩ | ⟨hd', _, _, hp⟩
      · simp only [sent, hp]
        exact h.setConn (hd.trans hd'.symm)
      · simp only [sent, hp]
        exact h.dies ho hd' hd ht
  | false =>
      obtain ⟨hd', hp⟩ := Polled.entering_live ha hd
      have hset := h.setConn (c := c) (hd.trans hd'.symm)
      simp only [sent]
      split
      · exact hset.addWrite (c := c) ho (by rw [conns_setConn, if_pos rfl, hd])
      · rename_i heq
        exact absurd heq (hp _)
      · exact hset

theorem Sound.send (h : s.Sound pipefd) {c : χ} {a : Sender.Act} (hg : guard pipefd s (.send c a)) :
    (next pipefd s (.send c a)).Sound pipefd := by
  obtain ⟨_, ho, ha, hga, ht⟩ := hg
  cases a with
  | send t b r => exact h.entering (.inl rfl) ho ht
  | resume t r =>
      obtain ⟨b, hw⟩ := hga.2
      exact h.entering (.inr ⟨rfl, true, hw⟩) ho ht
  | complete t => exact h.setConn (Polled.next_complete_dead _ t)
  | removed t => exact h.setConn (Polled.next_removed_dead _ t)
  | spurious t => exact h.setConn (Polled.next_spurious_dead _ t)
  | writeCb | closeconn | readFailed => cases ha

theorem Sound.closeconn (h : s.Sound pipefd) {t : Tid} {c : χ} (hg : guard pipefd s (.closeconn t c)) :
    (next pipefd s (.closeconn t c)).Sound pipefd := by
  obtain ⟨_, ho, _, ht⟩ := hg
  simp only [next]
  split
  · exact h
  · rename_i hd
    exact h.dies ho (Bool.eq_false_of_not_eq_true hd) rfl ht

/-! ## Steps and runs -/

/-- The steps that abort: `callbacks_` has no entry for a descriptor, or `select` fails. -/
def Fails : Act χ → Prop
  | .opens _ fd => PollMgr.maxPollFds ≤ fd
  | .poll a => a = .selectFailed
  | _ => False

theorem Sound.step (h : s.Sound pipefd) {a : Act χ} (hg : guard pipefd s a) (hf : ¬ Fails a) :
    (next pipefd s a).Sound pipefd := by
  cases a with
  | opens c fd => exact h.opens hg (not_le.mp hf)
  | send c a => exact h.send hg
  | closeconn t c => exact h.closeconn hg
  | blockRemove t =>
      obtain ⟨_, ⟨c, ht⟩, _⟩ := hg
      simp only [next, ht]
      exact h.blockRemove ht
  | removed t => exact h.removed hg.2
  | poll a => exact h.poll hg.2.1 hg.2.2 hf
  | readCb succ => exact h.readCb hg.2
  | writeCb r => exact h.writeCb hg.2
  | delete c => exact h.delete hg

theorem aborted_of_fails {a : Act χ} (hf : Fails a) : (next pipefd s a).mgr.aborted = true := by
  cases a with
  | opens c fd =>
      have hfd : ¬ fd < PollMgr.maxPollFds := not_lt.mpr hf
      simp only [next, PollMgr.next, PollMgr.addCallback, if_neg hfd]
  | poll a =>
      cases hf
      rfl
  | _ => cases hf

/-- A run is sound, or its last step has failed. -/
theorem sound_of_run {tr : List (Act χ)} (h : (lts pipefd).Run tr s) :
    s.Sound pipefd ∨ s.mgr.aborted = true ∧ ∃ a early, tr = a :: early ∧ Fails a := by
  refine h.invariant
    (I := fun tr s => s.Sound pipefd ∨ s.mgr.aborted = true ∧ ∃ a early, tr = a :: early ∧ Fails a) ?_ ?_
  · rintro s rfl
    exact .inl sound_init
  · intro tr s a _ hs hg
    have hab : s.mgr.aborted = false := hg.1.1
    rcases hs with hs | ⟨hab', _⟩
    · by_cases hf : Fails a
      · exact .inr ⟨aborted_of_fails hf, a, tr, rfl, hf⟩
      · exact .inl (hs.step hg hf)
    · rw [hab] at hab'
      cases hab'

/-- The poll loop calls only connections that exist, each with its own descriptor, and for reading the one
that had the descriptor when `select` was called. A connection that is not dead has its entry in `callbacks_`,
and the asserts of the poll manager fail only where `callbacks_` has no room or `select` fails. -/
theorem callbacks_live {tr : List (Act χ)} (h : (lts pipefd).Run tr s) :
    (s.mgr.aborted = true → ∃ a early, tr = a :: early ∧ Fails a) ∧
      (s.mgr.aborted = false →
        (∀ fd c, s.mgr.callbacks fd = some c → s.Open c ∧ s.fd c = fd) ∧
        (∀ c, s.Open c → (s.conns c).dead = false → s.mgr.callbacks (s.fd c) = some c) ∧
        (∀ fd, s.mgr.Running fd → ∃ c, s.current = some c ∧ s.Open c ∧ s.fd c = fd) ∧
        ∀ fd rs ws, s.mgr.loop = .inRead fd rs ws → s.current = s.round fd) := by
  rcases sound_of_run h with hs | ⟨hab, hf⟩
  · refine ⟨fun hab => ?_, fun _ => ⟨fun fd c hc => ?_, fun c ho hd => ?_, fun fd hr => ?_, fun fd rs ws hl => ?_⟩⟩
    · rw [hs.aborted] at hab
      cases hab
    · obtain ⟨hc, hfd⟩ := hs.served hc
      exact ⟨hc.1, hfd⟩
    · exact hs.callback (served_of_live ho hd)
    · rcases hr with ⟨rs, ws, hl⟩ | ⟨ws, hl⟩
      · obtain ⟨c, hcur, _, hc, hfd⟩ := hs.inRead hl
        exact ⟨c, hcur, hc.1, hfd⟩
      · obtain ⟨c, hcur, hc, hfd⟩ := hs.inWrite hl
        exact ⟨c, hcur, hc.1, hfd⟩
    · obtain ⟨c, hcur, hr, _⟩ := hs.inRead hl
      rw [hcur, hr]
  · refine ⟨fun _ => hf, fun hab' => ?_⟩
    rw [hab] at hab'
    cases hab'

/-- The peer of a connection goes away; the connection dies in `read_cb` and is deleted, a new one gets its
descriptor while the loop is still in the round, and the loop comes to `read_cb` of the new one. -/
theorem callbacks_live_reused : ∃ s : Fleet Nat, (∃ tr, (lts 3).Run tr s) ∧ s.deleted = [0] ∧
    s.fd 0 = s.fd 1 ∧ ∃ c, s.current = some c ∧ s.Open c ∧ s.fd c = 5 := by
  have h0 : (lts 3).Run [] (init 3 : Fleet Nat) := .init rfl
  have h1 : (lts 3).Run [.opens 0 5] _ := .step h0 ⟨by decide, by decide, by decide, by decide⟩
  have h2 : (lts 3).Run [.poll .checkPending, _] _ := .step h1 ⟨by decide, rfl, rfl, rfl⟩
  have h3 : (lts 3).Run [.poll .snapshot, _, _] _ := .step h2 ⟨by decide, rfl, rfl, rfl⟩
  have h4 : (lts 3).Run [.poll (.select {5} ∅), _, _, _] _ :=
    .step h3 ⟨by decide, rfl, rfl, _, _, _, rfl, by decide, by decide⟩
  have h5 : (lts 3).Run [.poll .checkRead, _, _, _, _] _ := .step h4 ⟨by decide, rfl, rfl, [5], [], rfl⟩
  have h6 : (lts 3).Run [.poll .callRead, _, _, _, _, _] _ := .step h5 ⟨by decide, rfl, rfl, 5, [], [], rfl⟩
  have h7 : (lts 3).Run [.readCb false, _, _, _, _, _, _] _ := .step h6 ⟨by decide, rfl, 5, [], [], rfl⟩
  have h8 : (lts 3).Run [.delete 0, _, _, _, _, _, _, _] _ :=
    .step h7 ⟨by decide, ⟨by decide, by decide⟩, rfl, fun _ => rfl, fun _ => nofun⟩
  have h9 : (lts 3).Run [.opens 1 5, _, _, _, _, _, _, _, _] _ :=
    .step h8 ⟨by decide, by decide, by decide, by decide⟩
  have h10 : (lts 3).Run [.poll .checkRead, _, _, _, _, _, _, _, _, _] _ :=
    .step h9 ⟨by decide, rfl, rfl, [], [], rfl⟩
  have h11 : (lts 3).Run [.poll .checkWrite, _, _, _, _, _, _, _, _, _, _] _ :=
    .step h10 ⟨by decide, rfl, rfl, [], rfl⟩
  have h12 : (lts 3).Run [.poll .checkPending, _, _, _, _, _, _, _, _, _, _, _] _ :=
    .step h11 ⟨by decide, rfl, rfl, rfl⟩
  have h13 : (lts 3).Run [.poll .snapshot, _, _, _, _, _, _, _, _, _, _, _, _] _ :=
    .step h12 ⟨by decide, rfl, rfl, rfl⟩
  have h14 : (lts 3).Run [.poll (.select {5} ∅), _, _, _, _, _, _, _, _, _, _, _, _, _] _ :=
    .step h13 ⟨by decide, rfl, rfl, _, _, _, rfl, by decide, by decide⟩
  have h15 : (lts 3).Run [.poll .checkRead, _, _, _, _, _, _, _, _, _, _, _, _, _, _] _ :=
    .step h14 ⟨by decide, rfl, rfl, [5], [], rfl⟩
  have h16 : (lts 3).Run [.poll .callRead, _, _, _, _, _, _, _, _, _, _, _, _, _, _, _] _ :=
    .step h15 ⟨by decide, rfl, rfl, 5, [], [], rfl⟩
  have hlive := (callbacks_live h16).2 rfl
  exact ⟨_, ⟨_, h16⟩, rfl, rfl, hlive.2.2.1 5 (.inl ⟨[], [], rfl⟩)⟩

end Fleet
end StanDfs
