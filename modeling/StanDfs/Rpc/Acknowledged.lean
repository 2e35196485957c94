import StanDfs.Rpc.ReplySpec

/-!
# Acknowledged requests

By its `xid_rep` a client says that it has received, or given up on, every call up to and including that
one. The window forgets what is below it, and so treats the call `xid_rep` itself as not acknowledged.
-/

namespace StanDfs.Ledger

/-- The client has acknowledged what its `xid_rep` says, and the window treats it so: no call up to there is
new, and after a new call no entry up to there is left. -/
def Finished (f x : UInt32) (st : Rpcstate) (l : List ReplyT) : Prop :=
  (x ≤ f → st ≠ .new) ∧ (st = .new → ∀ e ∈ l, f < e.xid)

/-- Acknowledged calls are finished unless the call at the floor is at hand: it is the one that comes for the
first time, or another does and it was new before. -/
theorem acknowledged_finished {tr : List WindowCall} {s : Ledger} (h : lts.Run tr s) {n x r : UInt32}
    {st : Rpcstate} (hg : s.guard (.check n x r st)) : ∃ f, Largest tr n r f ∧
      (Finished f x st ((s.next (.check n x r st)).table.replies n) ↔
        (f ≤ x → ¬ Seen tr n x → x ≠ f ∧ ¬ Seen tr n f)) := by
  have hfaith := faithful_of_run h
  obtain rfl := log_of_run h
  refine ⟨_, hfaith.floor n r, ?_⟩
  constructor
  · rintro ⟨hnew, hlist⟩ hge hs
    obtain rfl : st = .new := (hfaith.new_iff hg (UInt32.not_lt.mpr hge)).mpr hs
    refine ⟨fun heq => hnew (by rw [heq]; exact UInt32.le_refl _) rfl, fun hsf => ?_⟩
    obtain ⟨e, he, hx⟩ := (hfaith.kept hg).all _ hsf (UInt32.le_refl _)
    have hlt := hlist rfl e he
    rw [hx] at hlt
    exact UInt32.lt_irrefl _ hlt
  · intro hcond
    have hfirst : st = .new → s.table.newFloor n r ≤ x ∧ ¬ Seen s.log n x := by
      rintro rfl
      have hge : ¬ x < s.table.newFloor n r := fun hlt => by cases (forgotten_iff hg).mpr hlt
      exact ⟨UInt32.not_lt.mp hge, (hfaith.new_iff hg hge).mp rfl⟩
    refine ⟨fun hle hst => ?_, ?_⟩
    · obtain ⟨hge, hs⟩ := hfirst hst
      exact (hcond hge hs).1 (UInt32.le_antisymm hle hge)
    · rintro rfl e he
      obtain ⟨hge, hs⟩ := hfirst rfl
      obtain ⟨hne, hsf⟩ := hcond hge hs
      obtain ⟨hf, hy⟩ := ((hfaith.list hg).2 e.xid).mp (List.mem_map_of_mem he)
      refine UInt32.lt_of_le_of_ne hf fun heq => ?_
      rcases hy with hs' | hx
      · rw [← heq] at hs'
        exact hsf hs'
      · exact hne (by rw [← hx, ← heq])

/-- The client has given up a call the server has not seen, and another comes. -/
theorem acknowledged_finished_next : ∃ tr s, lts.Run tr s ∧ s.guard (.check 5 3 1 .new) ∧
    Finished 1 3 .new ((s.next (.check 5 3 1 .new)).table.replies 5) := by
  obtain ⟨s, hr, hs⟩ := Lts.run_of_exec (M := lts) (s := init) (l := [.create 5, .check 5 2 0 .new])
    (f := fun s => decide (lts.guard s (.check 5 3 1 .new))) rfl (by decide +kernel)
  have hg := of_decide_eq_true hs
  obtain ⟨f, hf, hiff⟩ := acknowledged_finished hr hg
  have h1 : Largest [.check 5 2 0 .new, .create 5] 5 1 1 :=
    ⟨.inl rfl, by decide, fun x r st hm => by
      obtain ⟨-, rfl, -⟩ : x = 2 ∧ r = 0 ∧ st = .new := by simpa using hm
      decide⟩
  obtain rfl := h1.unique hf
  exact ⟨_, s, hr, hg, hiff.mpr fun _ _ => by decide⟩

/-- The client gives up call 2, and its next request says so and overtakes the first copy of call 2, which
is then new. And the reply to call 2 stays in the list when the client has acknowledged it. -/
theorem acknowledged_not_finished :
    (¬ ∀ tr s, lts.Run tr s → ∀ n x r st, s.guard (.check n x r st) → ∀ f, Largest tr n r f →
      x ≤ f → st ≠ .new) ∧
    ¬ ∀ tr s, lts.Run tr s → ∀ n x r, s.guard (.check n x r .new) → ∀ f, Largest tr n r f →
      ∀ e ∈ (s.next (.check n x r .new)).table.replies n, f < e.xid := by
  constructor
  · intro hall
    obtain ⟨s, hr, hs⟩ := Lts.run_of_exec (M := lts) (s := init) (l := [.create 5, .check 5 3 2 .new])
      (f := fun s => decide (lts.guard s (.check 5 2 1 .new))) rfl (by decide +kernel)
    have h2 : Largest [.check 5 3 2 .new, .create 5] 5 1 2 :=
      ⟨.inr ⟨3, .new, by decide⟩, by decide, fun x r st hm => by
        obtain ⟨-, rfl, -⟩ : x = 3 ∧ r = 2 ∧ st = .new := by simpa using hm
        exact UInt32.le_refl _⟩
    exact hall _ s hr 5 2 1 .new (of_decide_eq_true hs) 2 h2 (UInt32.le_refl _) rfl
  · intro hall
    obtain ⟨s, hr, hs⟩ := Lts.run_of_exec (M := lts) (s := init)
      (l := [.create 5, .check 5 2 1 .new, .addReply 5 2 (some 0) 24])
      (f := fun s => decide (lts.guard s (.check 5 3 2 .new) ∧
        ⟨2, some 0, 24⟩ ∈ (s.next (.check 5 3 2 .new)).table.replies 5)) rfl (by decide +kernel)
    obtain ⟨hg, hin⟩ := of_decide_eq_true hs
    have h2 : Largest [.addReply 5 2 (some 0) 24, .check 5 2 1 .new, .create 5] 5 2 2 :=
      ⟨.inl rfl, by decide, fun x r st hm => by
        obtain ⟨-, rfl, -⟩ : x = 2 ∧ r = 1 ∧ st = .new := by simpa using hm
        decide⟩
    exact UInt32.lt_irrefl _ (hall _ s hr 5 3 2 hg 2 h2 _ hin)

end StanDfs.Ledger
