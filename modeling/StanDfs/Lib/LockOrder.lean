import Mathlib.Logic.Relation
import Mathlib.Tactic.Common

/-!
# Mutexes in order

What each thread is about to lock, and who has each mutex. Where the mutexes have ranks, and whoever has a
mutex that is waited for waits at most for one of a greater rank, nobody waits for himself, and every wait is in
the end for a thread that does not wait.
-/

namespace LockOrder

variable {τ μ : Type*} (wants : τ → Option μ) (holder : μ → Option τ)

/-- The thread is about to lock a mutex that the other one has. -/
def WaitsFor (t t' : τ) : Prop := ∃ m, wants t = some m ∧ holder m = some t'

def Blocked (t : τ) : Prop := ∃ t', WaitsFor wants holder t t'

/-- Along a wait the ranks grow, and no rank is above the bound. -/
structure Ranked (rank : μ → Nat) (bound : Nat) : Prop where
  le : ∀ m, rank m ≤ bound
  lt : ∀ t t' m m', wants t = some m → holder m = some t' → wants t' = some m' → rank m < rank m'

variable {wants holder} {rank : μ → Nat} {bound : Nat} {t t' : τ} {m m' : μ}

theorem Ranked.chain_lt (h : Ranked wants holder rank bound)
    (hw : Relation.TransGen (WaitsFor wants holder) t t') (hm : wants t = some m)
    (hm' : wants t' = some m') : rank m < rank m' := by
  induction hw generalizing m' with
  | single hw =>
      obtain ⟨m₁, hw₁, hh⟩ := hw
      cases hm.symm.trans hw₁
      exact h.lt _ _ _ _ hw₁ hh hm'
  | tail _ hw ih =>
      obtain ⟨m₁, hw₁, hh⟩ := hw
      exact Nat.lt_trans (ih hw₁) (h.lt _ _ _ _ hw₁ hh hm')

/-- Nobody waits for himself. -/
theorem Ranked.acyclic (h : Ranked wants holder rank bound) (t : τ) :
    ¬ Relation.TransGen (WaitsFor wants holder) t t := by
  intro hw
  obtain ⟨_, ⟨m, hm, _⟩, _⟩ := Relation.TransGen.head'_iff.mp hw
  exact Nat.lt_irrefl _ (h.chain_lt hw hm hm)

/-- Every wait is in the end for a thread that does not wait. -/
theorem Ranked.exists_running (h : Ranked wants holder rank bound) (hb : Blocked wants holder t) :
    ∃ t', Relation.TransGen (WaitsFor wants holder) t t' ∧ ¬ Blocked wants holder t' := by
  obtain ⟨t₁, m, hm, hh⟩ := hb
  induction hn : bound - rank m using Nat.strongRecOn generalizing t t₁ m with
  | ind n ih =>
      by_cases hb : Blocked wants holder t₁
      · obtain ⟨t₂, m₁, hm₁, hh₁⟩ := hb
        have hlt := h.lt _ _ _ _ hm hh hm₁
        have hle := h.le m₁
        obtain ⟨t', hc, hrun⟩ := ih _ (by omega) t₂ m₁ hm₁ hh₁ rfl
        exact ⟨t', .head ⟨m, hm, hh⟩ hc, hrun⟩
      · exact ⟨t₁, .single ⟨m, hm, hh⟩, hb⟩

end LockOrder
