import StanDfs.PollMgr.Basic

/-!
# What the return of block_remove_fd guarantees

The broadcast comes at the top of the loop, between two rounds. A thread that it wakes had unwatched its
descriptor before, so the next copy of the watched sets is without it.
-/

namespace StanDfs

/-- The round does not come to the descriptor. -/
def LoopPc.Without (fd : Nat) : LoopPc → Prop
  | .top => True
  | .clearing => True
  | .selecting trfds twfds _ => fd ∉ trfds ∧ fd ∉ twfds
  | .reading rs ws => fd ∉ rs ∧ fd ∉ ws
  | .toRead fd' rs ws => fd ≠ fd' ∧ fd ∉ rs ∧ fd ∉ ws
  | .inRead fd' rs ws => fd ≠ fd' ∧ fd ∉ rs ∧ fd ∉ ws
  | .writing ws => fd ∉ ws
  | .toWrite fd' ws => fd ≠ fd' ∧ fd ∉ ws
  | .inWrite fd' ws => fd ≠ fd' ∧ fd ∉ ws

namespace SelectAIO

def Unwatched (a : SelectAIO) (fd : Nat) : Prop := fd ∉ a.rfds ∧ fd ∉ a.wfds

variable {pipefd fd fd' : Nat} {flag : PollFlag} {a a' : SelectAIO} {b : Bool}

theorem Unwatched.watchFd (h : a.Unwatched fd) (hne : fd ≠ fd') : (a.watchFd fd' flag).Unwatched fd := by
  cases flag with
  | rdonly => exact ⟨Finset.mem_insert.not.mpr (not_or.mpr ⟨hne, h.1⟩), h.2⟩
  | wronly => exact ⟨h.1, Finset.mem_insert.not.mpr (not_or.mpr ⟨hne, h.2⟩)⟩
  | none | rdwr | mask =>
      exact ⟨Finset.mem_insert.not.mpr (not_or.mpr ⟨hne, h.1⟩),
        Finset.mem_insert.not.mpr (not_or.mpr ⟨hne, h.2⟩)⟩

/-- Only `clear` changes the sets. -/
theorem clear_of_unwatchFd (h : a.unwatchFd pipefd fd flag = some (b, a')) :
    ∃ a₀, a.clear fd flag = some a₀ ∧ a'.rfds = a₀.rfds ∧ a'.wfds = a₀.wfds := by
  rw [unwatchFd, Option.map_eq_some_iff] at h
  obtain ⟨a₀, h₀, heq⟩ := h
  cases heq
  exact ⟨a₀, h₀, rfl, rfl⟩

theorem Unwatched.unwatchFd (h : a.Unwatched fd) (hu : a.unwatchFd pipefd fd' flag = some (b, a')) :
    a'.Unwatched fd := by
  obtain ⟨a₀, h₀, hr, hw⟩ := clear_of_unwatchFd hu
  rw [Unwatched, hr, hw]
  cases flag with
  | rdonly =>
      cases h₀
      exact ⟨fun hm => h.1 (Finset.mem_of_mem_erase hm), h.2⟩
  | wronly =>
      cases h₀
      exact ⟨h.1, fun hm => h.2 (Finset.mem_of_mem_erase hm)⟩
  | rdwr =>
      cases h₀
      exact ⟨fun hm => h.1 (Finset.mem_of_mem_erase hm), fun hm => h.2 (Finset.mem_of_mem_erase hm)⟩
  | none | mask => cases h₀

/-- `CB_RDWR` clears both. -/
theorem unwatched_of_rdwr (hu : a.unwatchFd pipefd fd .rdwr = some (b, a')) : a'.Unwatched fd := by
  obtain ⟨a₀, h₀, hr, hw⟩ := clear_of_unwatchFd hu
  cases h₀
  rw [Unwatched, hr, hw]
  exact ⟨Finset.notMem_erase _ _, Finset.notMem_erase _ _⟩

theorem unwatchFd_rdwr (pipefd : Nat) (a : SelectAIO) (fd : Nat) :
    ∃ b a', a.unwatchFd pipefd fd .rdwr = some (b, a') := ⟨_, _, rfl⟩

/-- What `wait_ready` gives was in the sets. -/
theorem mem_ready {high : Nat} {trfds twfds : Finset Nat} :
    (fd ∈ (ready pipefd high trfds twfds).1 → fd ∈ trfds) ∧
      (fd ∈ (ready pipefd high trfds twfds).2 → fd ∈ twfds) := by
  simp only [ready, List.mem_filter, decide_eq_true_eq]
  exact ⟨fun h => h.2, fun h => h.2⟩

end SelectAIO

namespace PollMgr

section

variable {κ : Type*}

/-- A callback for the descriptor is running. -/
def Running (s : PollMgr κ) (fd : Nat) : Prop :=
  (∃ rs ws, s.loop = .inRead fd rs ws) ∨ ∃ ws, s.loop = .inWrite fd ws

/-- The action is an `add_callback` for the descriptor. -/
def Adds (fd : Nat) : Act κ → Prop
  | .addCallback fd' _ _ => fd' = fd
  | _ => False

/-- The poll thread takes the step, between two looks at `pending_change_`. -/
def Act.polls : Act κ → Bool
  | .addCallback _ _ _ => false
  | .delCallback _ _ => false
  | .blockRemove _ _ => false
  | .removed _ => false
  | .checkPending => false
  | _ => true

theorem not_running_of_without {s : PollMgr κ} {fd : Nat} (h : s.loop.Without fd) : ¬ s.Running fd := by
  rintro (⟨rs, ws, hl⟩ | ⟨ws, hl⟩)
  · rw [hl] at h
    exact h.1 rfl
  · rw [hl] at h
    exact h.1 rfl

/-! ## What a step leaves -/

theorem delCallback_frame (pipefd : Nat) (s : PollMgr κ) (fd : Nat) (flag : PollFlag) :
    (s.delCallback pipefd fd flag).loop = s.loop ∧ (s.delCallback pipefd fd flag).removals = s.removals := by
  unfold delCallback
  split <;> exact ⟨rfl, rfl⟩

theorem blockRemove_eq (pipefd : Nat) (s : PollMgr κ) (t : Tid) (fd : Nat) :
    ∃ a : SelectAIO, a.Unwatched fd ∧ (∀ fd', s.aio.Unwatched fd' → a.Unwatched fd') ∧
      s.blockRemove pipefd t fd = { s with
        aio := a, pendingChange := true, removals := Function.update s.removals t (.waiting fd false) } := by
  obtain ⟨b, a, hu⟩ := SelectAIO.unwatchFd_rdwr pipefd s.aio fd
  refine ⟨a, SelectAIO.unwatched_of_rdwr hu, fun fd' h => h.unwatchFd hu, ?_⟩
  simp only [blockRemove, hu]

theorem removed_frame (s : PollMgr κ) (t : Tid) :
    (s.removed t).aio = s.aio ∧ (s.removed t).loop = s.loop ∧
      ∀ t', t' ≠ t → (s.removed t).removals t' = s.removals t' := by
  unfold removed
  split
  · exact ⟨rfl, rfl, fun t' hne => Function.update_of_ne hne _ _⟩
  · exact ⟨rfl, rfl, fun _ _ => rfl⟩

theorem checkPending_frame (s : PollMgr κ) : s.checkPending.aio = s.aio ∧ s.checkPending.loop = .clearing := by
  simp only [checkPending]
  split <;> exact ⟨rfl, rfl⟩

end

variable {κ : Type*} [DecidableEq κ] {pipefd fd : Nat} {s : PollMgr κ} {a : Act κ} {t : Tid}

/-- The poll thread moves on, or fails. -/
theorem polls_frame (pipefd : Nat) (s : PollMgr κ) (h : a.polls = true) :
    ∃ l b, next pipefd s a = { s with loop := l, aborted := b } := by
  cases a with
  | addCallback | delCallback | blockRemove | removed | checkPending => cases h
  | snapshot | interrupted | selectFailed => exact ⟨_, _, rfl⟩
  | select =>
      simp only [next, select]
      split <;> exact ⟨_, _, rfl⟩
  | checkRead =>
      simp only [next, checkRead]
      split <;> exact ⟨_, _, rfl⟩
  | callRead =>
      simp only [next, callRead]
      split
      · split <;> exact ⟨_, _, rfl⟩
      · exact ⟨_, _, rfl⟩
  | readReturns =>
      simp only [next, readReturns]
      split <;> exact ⟨_, _, rfl⟩
  | checkWrite =>
      simp only [next, checkWrite]
      split <;> exact ⟨_, _, rfl⟩
  | callWrite =>
      simp only [next, callWrite]
      split
      · split <;> exact ⟨_, _, rfl⟩
      · exact ⟨_, _, rfl⟩
  | writeReturns =>
      simp only [next, writeReturns]
      split <;> exact ⟨_, _, rfl⟩

theorem addCallback_frame (s : PollMgr κ) (fd : Nat) (flag : PollFlag) (ch : κ) :
    (s.addCallback fd flag ch).loop = s.loop ∧ (s.addCallback fd flag ch).removals = s.removals := by
  simp only [addCallback]
  split
  · split <;> exact ⟨rfl, rfl⟩
  · exact ⟨rfl, rfl⟩

/-! ## A descriptor that is not watched -/

theorem unwatched_step (h : s.aio.Unwatched fd) (hadd : ¬ Adds fd a) :
    (next pipefd s a).aio.Unwatched fd := by
  cases hp : a.polls with
  | true =>
      obtain ⟨l, b, hn⟩ := polls_frame pipefd s hp
      rw [hn]
      exact h
  | false =>
      cases a with
      | addCallback fd' flag ch =>
          have h' : (s.aio.watchFd fd' flag).Unwatched fd := h.watchFd fun heq => hadd heq.symm
          simp only [next, addCallback]
          split
          · split <;> exact h'
          · exact h
      | delCallback fd' flag =>
          simp only [next, delCallback]
          split
          · rename_i hu
            exact h.unwatchFd hu
          · exact h
      | blockRemove t fd' =>
          obtain ⟨a, _, hu, hn⟩ := blockRemove_eq pipefd s t fd'
          rw [next, hn]
          exact hu fd h
      | removed t =>
          rw [next, (removed_frame s t).1]
          exact h
      | checkPending =>
          rw [next, (checkPending_frame s).1]
          exact h
      | _ => cases hp

/-- A round that starts without the descriptor stays without it. -/
theorem without_step (hu : s.aio.Unwatched fd) (h : s.loop.Without fd) (hg : guard s a) :
    (next pipefd s a).loop.Without fd := by
  obtain ⟨_, hg⟩ := hg
  cases a with
  | addCallback fd' flag ch =>
      rw [next, (addCallback_frame s fd' flag ch).1]
      exact h
  | delCallback fd' flag =>
      rw [next, (delCallback_frame pipefd s fd' flag).1]
      exact h
  | blockRemove t fd' =>
      obtain ⟨_, _, _, hn⟩ := blockRemove_eq pipefd s t fd'
      rw [next, hn]
      exact h
  | removed t =>
      rw [next, (removed_frame s t).2.1]
      exact h
  | checkPending =>
      rw [next, (checkPending_frame s).2]
      trivial
  | snapshot => exact hu
  | select r w =>
      obtain ⟨tr, tw, high, hl, hr, hw⟩ := hg
      rw [hl] at h
      simp only [next, select, hl]
      split
      · trivial
      · refine ⟨fun hm => h.1 (hr ?_), fun hm => h.2 (hw ?_)⟩
        · exact SelectAIO.mem_ready.1 hm
        · exact SelectAIO.mem_ready.2 hm
  | interrupted => trivial
  | selectFailed => exact h
  | checkRead =>
      obtain ⟨rs, ws, hl⟩ := hg
      rw [hl] at h
      cases rs with
      | nil =>
          simp only [next, checkRead, hl]
          exact h.2
      | cons fd' rs =>
          obtain ⟨hne, hrs⟩ := not_or.mp (List.mem_cons.not.mp h.1)
          simp only [next, checkRead, hl]
          split
          · exact ⟨hne, hrs, h.2⟩
          · exact ⟨hrs, h.2⟩
  | callRead =>
      obtain ⟨fd', rs, ws, hl⟩ := hg
      rw [hl] at h
      simp only [next, callRead, hl]
      split <;> exact h
  | readReturns =>
      obtain ⟨fd', rs, ws, hl⟩ := hg
      rw [hl] at h
      simp only [next, readReturns, hl]
      exact h.2
  | checkWrite =>
      obtain ⟨ws, hl⟩ := hg
      rw [hl] at h
      cases ws with
      | nil =>
          simp only [next, checkWrite, hl]
          trivial
      | cons fd' ws =>
          obtain ⟨hne, hws⟩ := not_or.mp (List.mem_cons.not.mp h)
          simp only [next, checkWrite, hl]
          split
          · exact ⟨hne, hws⟩
          · exact hws
  | callWrite =>
      obtain ⟨fd', ws, hl⟩ := hg
      rw [hl] at h
      simp only [next, callWrite, hl]
      split <;> exact h
  | writeReturns =>
      obtain ⟨fd', ws, hl⟩ := hg
      rw [hl] at h
      simp only [next, writeReturns, hl]
      exact h.2

/-! ## A thread in block_remove_fd -/

/-- What holds of a thread in `block_remove_fd` as long as its descriptor is not added again: once it is
woken, the loop has been at its top since the call. -/
structure Removing (t : Tid) (fd : Nat) (mid : List (Act κ)) (s : PollMgr κ) : Prop where
  unwatched : s.aio.Unwatched fd
  waits : s.removals t = .waiting fd false ∨
    s.removals t = .waiting fd true ∧ s.loop.Without fd ∧ .checkPending ∈ mid

theorem Removing.of_eq {mid : List (Act κ)} (h : Removing t fd mid s) (hadd : ¬ Adds fd a)
    (hg : guard s a) (hr : (next pipefd s a).removals t = s.removals t) :
    Removing t fd (a :: mid) (next pipefd s a) where
  unwatched := unwatched_step h.unwatched hadd
  waits := by
    rw [hr]
    exact h.waits.imp_right fun hw =>
      ⟨hw.1, without_step h.unwatched hw.2.1 hg, List.mem_cons_of_mem _ hw.2.2⟩

theorem Removing.step {mid : List (Act κ)} (h : Removing t fd mid s) (hadd : ¬ Adds fd a)
    (hne : a ≠ .removed t) (hg : guard s a) : Removing t fd (a :: mid) (next pipefd s a) := by
  cases hp : a.polls with
  | true =>
      obtain ⟨l, b, hn⟩ := polls_frame pipefd s hp
      exact h.of_eq hadd hg (by rw [hn])
  | false =>
      cases a with
      | addCallback fd' flag ch => exact h.of_eq hadd hg (congrFun (addCallback_frame s fd' flag ch).2 t)
      | delCallback fd' flag => exact h.of_eq hadd hg (congrFun (delCallback_frame pipefd s fd' flag).2 t)
      | blockRemove t' fd' =>
          have hne' : t ≠ t' := by
            rintro rfl
            rcases h.waits with hw | ⟨hw, _⟩
            · cases hw.symm.trans hg.2
            · cases hw.symm.trans hg.2
          obtain ⟨a, _, _, hn⟩ := blockRemove_eq pipefd s t' fd'
          apply h.of_eq hadd hg
          rw [next, hn]
          exact Function.update_of_ne hne' _ _
      | removed t' =>
          have hne' : t ≠ t' := fun heq => hne (heq ▸ rfl)
          exact h.of_eq hadd hg ((removed_frame s t').2.2 t hne')
      | checkPending =>
          refine ⟨unwatched_step h.unwatched hadd, ?_⟩
          have hw : wake (s.removals t) = .waiting fd true := by
            rcases h.waits with hw | ⟨hw, _⟩
            · rw [hw]
              rfl
            · rw [hw]
              rfl
          rw [next, (checkPending_frame s).2]
          by_cases hpend : s.pendingChange
          · refine .inr ⟨?_, trivial, List.mem_cons_self⟩
            simp only [checkPending, hpend, if_true]
            exact hw
          · have hr : s.checkPending.removals t = s.removals t := by
              simp only [checkPending, if_neg hpend]
            rw [hr]
            exact h.waits.imp_right fun hw => ⟨hw.1, trivial, List.mem_cons_self⟩
      | _ => cases hp

theorem removing_of_run {early mid : List (Act κ)}
    (h : (lts pipefd).Run (mid ++ .blockRemove t fd :: early) s) (hmid : .removed t ∉ mid)
    (hadd : ∀ a ∈ mid, ¬ Adds fd a) : Removing t fd mid s := by
  refine Lts.Run.since (I := fun mid s => .removed t ∉ mid → (∀ a ∈ mid, ¬ Adds fd a) → Removing t fd mid s)
    ?_ ?_ h hmid hadd
  · intro s h _ _
    obtain ⟨s₀, _, hg, rfl⟩ := h.uncons
    obtain ⟨a, hu, _, hn⟩ := blockRemove_eq pipefd s₀ t fd
    have hn' : (lts pipefd).next s₀ (.blockRemove t fd) = _ := hn
    rw [hn']
    exact ⟨hu, .inl (Function.update_self _ _ _)⟩
  · intro mid s a _ ih hg hmid hadd
    have hr := ih (fun hm => hmid (List.mem_cons_of_mem _ hm)) fun a ha => hadd a (List.mem_cons_of_mem _ ha)
    exact hr.step (hadd a List.mem_cons_self) (fun heq => hmid (heq ▸ List.mem_cons_self)) hg

theorem returned_of_run {early mid : List (Act κ)}
    (h : (lts pipefd).Run (.removed t :: mid ++ .blockRemove t fd :: early) s) (hmid : .removed t ∉ mid)
    (hadd : ∀ a ∈ mid, ¬ Adds fd a) : .checkPending ∈ mid ∧ s.aio.Unwatched fd ∧ s.loop.Without fd := by
  obtain ⟨s₀, h₀, hg, rfl⟩ := h.uncons
  obtain ⟨fd', hw'⟩ := hg.2
  have hr := removing_of_run h₀ hmid hadd
  rcases hr.waits with hw | ⟨_, hl, hc⟩
  · cases hw.symm.trans hw'
  · refine ⟨hc, unwatched_step hr.unwatched not_false, ?_⟩
    show (s₀.removed t).loop.Without fd
    rw [(removed_frame s₀ t).2.1]
    exact hl

/-- A thread returns from `block_remove_fd` only when the loop has been at its top since the call. From then on,
and until a later `add_callback` for the descriptor, no callback for it runs. -/
theorem block_remove_fd_guarantee {early mid late : List (Act κ)}
    (h : (lts pipefd).Run (late ++ (.removed t :: mid ++ .blockRemove t fd :: early)) s)
    (hmid : .removed t ∉ mid) (hadd : ∀ a ∈ mid, ¬ Adds fd a) :
    .checkPending ∈ mid ∧ ((∀ a ∈ late, ¬ Adds fd a) → ¬ s.Running fd) := by
  have hlate : .checkPending ∈ mid ∧
      ((∀ a ∈ late, ¬ Adds fd a) → s.aio.Unwatched fd ∧ s.loop.Without fd) := by
    refine Lts.Run.since (I := fun late s => .checkPending ∈ mid ∧
      ((∀ a ∈ late, ¬ Adds fd a) → s.aio.Unwatched fd ∧ s.loop.Without fd)) ?_ ?_ h
    · intro s h
      obtain ⟨hc, hu⟩ := returned_of_run h hmid hadd
      exact ⟨hc, fun _ => hu⟩
    · rintro late s a - ⟨hc, hu⟩ hg
      refine ⟨hc, fun ha => ?_⟩
      obtain ⟨hu, hl⟩ := hu fun a' ha' => ha a' (List.mem_cons_of_mem _ ha')
      exact ⟨unwatched_step hu (ha a List.mem_cons_self), without_step hu hl hg⟩
  exact ⟨hlate.1, fun ha => not_running_of_without (hlate.2 ha).2⟩

/-- Two descriptors are removed, the first while its callback runs. The thread that removes the second is
not woken by the broadcast for the first, and the loop takes a copy of the watched sets before it returns. -/
theorem block_remove_fd_guarantee_two : ∃ s : PollMgr Unit,
    (∃ tr, (lts 3).Run tr s) ∧ s.removals 1 = .waiting 6 false ∧ ¬ s.Running 5 := by
  have h0 : (lts 3).Run [] (init 3 : PollMgr Unit) := .init rfl
  have h1 : (lts 3).Run [.addCallback 5 .rdonly ()] _ := .step h0 ⟨rfl, trivial⟩
  have h2 : (lts 3).Run [.addCallback 6 .rdonly (), _] _ := .step h1 ⟨rfl, trivial⟩
  have h3 : (lts 3).Run [.checkPending, _, _] _ := .step h2 ⟨rfl, rfl⟩
  have h4 : (lts 3).Run [.snapshot, _, _, _] _ := .step h3 ⟨rfl, rfl⟩
  have h5 : (lts 3).Run [.select {5} ∅, _, _, _, _] _ :=
    .step h4 ⟨rfl, _, _, _, rfl, by decide, by decide⟩
  have h6 : (lts 3).Run [.checkRead, _, _, _, _, _] _ := .step h5 ⟨rfl, [5], [], rfl⟩
  have h7 : (lts 3).Run [.callRead, _, _, _, _, _, _] _ := .step h6 ⟨rfl, 5, [], [], rfl⟩
  have h8 : (lts 3).Run [.blockRemove 0 5, _, _, _, _, _, _, _] _ := .step h7 ⟨rfl, rfl⟩
  have h9 : (lts 3).Run [.readReturns, _, _, _, _, _, _, _, _] _ := .step h8 ⟨rfl, 5, [], [], rfl⟩
  have h10 : (lts 3).Run [.checkRead, _, _, _, _, _, _, _, _, _] _ := .step h9 ⟨rfl, [], [], rfl⟩
  have h11 : (lts 3).Run [.checkWrite, _, _, _, _, _, _, _, _, _, _] _ := .step h10 ⟨rfl, [], rfl⟩
  have h12 : (lts 3).Run [.checkPending, _, _, _, _, _, _, _, _, _, _, _] _ := .step h11 ⟨rfl, rfl⟩
  have h13 : (lts 3).Run [.blockRemove 1 6, _, _, _, _, _, _, _, _, _, _, _, _] _ := .step h12 ⟨rfl, rfl⟩
  have h14 : (lts 3).Run [.removed 0, _, _, _, _, _, _, _, _, _, _, _, _, _] _ := .step h13 ⟨rfl, 5, rfl⟩
  have h15 : (lts 3).Run [.snapshot, _, _, _, _, _, _, _, _, _, _, _, _, _, _] _ := .step h14 ⟨rfl, rfl⟩
  have h : (lts 3).Run ([.snapshot] ++ (.removed 0 ::
      [.blockRemove 1 6, .checkPending, .checkWrite, .checkRead, .readReturns] ++ .blockRemove 0 5 :: _)) _ := h15
  have hr := block_remove_fd_guarantee h (by decide) (by simp [Adds])
  exact ⟨_, ⟨_, h15⟩, rfl, hr.2 (by simp [Adds])⟩

end PollMgr
end StanDfs
