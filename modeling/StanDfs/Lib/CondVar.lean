import Mathlib.Data.Finset.Card

/-!
# Condition variables

What the threads are to one condition variable: `none` is a thread that does not wait on it, `some false`
one that is blocked, and `some true` one that was woken and does not have the mutex yet. There is no lost
wakeup as long as enough threads are woken for what there is to do whenever one is blocked.
-/

namespace CondVar

variable {ι : Type*}

/-- There are at least `n` threads with the property. -/
def AtLeast (n : Nat) (P : ι → Prop) : Prop := ∃ W : Finset ι, n ≤ W.card ∧ ∀ t ∈ W, P t

/-- If some thread is blocked, `n` others are woken. -/
def Covered (f : ι → Option Bool) (n : Nat) : Prop :=
  (∃ t, f t = some false) → AtLeast n fun t => f t = some true

/-- The thread that a signal may wake: one that is blocked, and none if there is none. -/
def Signals (f : ι → Option Bool) : Option ι → Prop
  | some t => f t = some false
  | none => ∀ t, f t ≠ some false

variable {f : ι → Option Bool} {m n : Nat} {t : ι}

theorem AtLeast.mono {P : ι → Prop} (h : AtLeast n P) (hle : m ≤ n) : AtLeast m P := by
  obtain ⟨W, hn, hW⟩ := h
  exact ⟨W, Nat.le_trans hle hn, hW⟩

theorem Covered.mono (h : Covered f n) (hle : m ≤ n) : Covered f m := fun hb => (h hb).mono hle

theorem covered_zero (f : ι → Option Bool) : Covered f 0 := fun _ => ⟨∅, Nat.zero_le _, by simp⟩

variable [DecidableEq ι]

/-- The threads after a signal. -/
def signal (f : ι → Option Bool) : Option ι → ι → Option Bool
  | some t => Function.update f t (some true)
  | none => f

/-- A signal pays for one thing more. -/
theorem Covered.signal {x : Option ι} (h : Covered f n) (hx : Signals f x) :
    Covered (signal f x) (n + 1) := by
  cases x with
  | none =>
      rintro ⟨t, ht⟩
      exact absurd ht (hx t)
  | some x =>
      have hx : f x = some false := hx
      intro _
      obtain ⟨W, hn, hW⟩ := h ⟨x, hx⟩
      have hnew : x ∉ W := by
        intro hm
        have heq := hW x hm
        simp [hx] at heq
      refine ⟨insert x W, ?_, ?_⟩
      · rw [Finset.card_insert_of_notMem hnew]
        exact Nat.succ_le_succ hn
      · intro t ht
        rcases Finset.mem_insert.mp ht with rfl | ht
        · simp [CondVar.signal]
        · have hne : t ≠ x := fun heq => hnew (heq ▸ ht)
          simp [CondVar.signal, hne, hW t ht]

theorem blocked_of_update {o : Option Bool} {t' : ι} (h : Function.update f t o t' = some false)
    (ho : o ≠ some false) : ∃ t, f t = some false := by
  have hne : t' ≠ t := by
    rintro rfl
    rw [Function.update_self] at h
    exact ho h
  rw [Function.update_of_ne hne] at h
  exact ⟨t', h⟩

/-- A thread that goes on uses up one wakeup at most. -/
theorem Covered.leave (h : Covered f n) (t : ι) : Covered (Function.update f t none) (n - 1) := by
  rintro ⟨t', ht'⟩
  obtain ⟨W, hn, hW⟩ := h (blocked_of_update ht' (by simp))
  refine ⟨W.erase t, Nat.le_trans (Nat.sub_le_sub_right hn 1) Finset.pred_card_le_card_erase, ?_⟩
  intro x hx
  rw [Finset.mem_erase] at hx
  simp [hx.1, hW x hx.2]

/-- A wakeup for no reason does no harm. -/
theorem Covered.wake (h : Covered f n) (t : ι) : Covered (Function.update f t (some true)) n := by
  rintro ⟨t', ht'⟩
  obtain ⟨W, hn, hW⟩ := h (blocked_of_update ht' (by simp))
  refine ⟨W, hn, ?_⟩
  intro x hx
  by_cases hxt : x = t
  · simp [hxt]
  · simp [hxt, hW x hx]

end CondVar
