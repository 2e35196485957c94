import StanDfs.Lib.Lts

/-!
# Simulation

What a step of a system looks like from outside is a list of actions of another system, with the newest
first. A simulation relates the states of the two such that what a run looks like is a run of the other.
-/

namespace Lts

variable {σ ε τ δ : Type*} {M : Lts σ ε} {N : Lts τ δ}

/-- The run `tr` to `s` looks like `l`, if a step `a` from `s` looks like `view s a`. -/
inductive Sees (M : Lts σ ε) (view : σ → ε → List δ) : List ε → σ → List δ → Prop
  | init {s} : M.init s → Sees M view [] s []
  | step {tr s l a} : Sees M view tr s l → M.guard s a →
      Sees M view (a :: tr) (M.next s a) (view s a ++ l)

variable {view : σ → ε → List δ}

theorem Sees.run {tr : List ε} {s : σ} {l : List δ} (h : M.Sees view tr s l) : M.Run tr s := by
  induction h with
  | init h => exact .init h
  | step _ hg ih => exact .step ih hg

theorem Run.sees (view : σ → ε → List δ) {tr : List ε} {s : σ} (h : M.Run tr s) :
    ∃ l, M.Sees view tr s l := by
  induction h with
  | init h => exact ⟨[], .init h⟩
  | step _ hg ih =>
      obtain ⟨l, hl⟩ := ih
      exact ⟨_, hl.step hg⟩

/-- A run looks the same where each of its steps meets a condition. -/
theorem Sees.restrict (h0 : ∀ s s', M.init s → M.init s' → s = s') {C : σ → ε → Prop} {tr : List ε} {s : σ}
    {l : List δ} (h : M.Sees view tr s l) (hr : (M.restrict C).Run tr s) :
    (M.restrict C).Sees view tr s l := by
  induction h with
  | init h => exact .init h
  | step hs hg ih =>
      obtain ⟨s₀, h₀, hg₀, _⟩ := hr.uncons
      obtain rfl := hs.run.unique h0 h₀.of_restrict
      exact .step (ih h₀) hg₀

/-- `R` relates the states of `M` to those of `N` that `N` is in when it does what `M` looks like. -/
structure Simulation (M : Lts σ ε) (N : Lts τ δ) (view : σ → ε → List δ) (R : σ → τ → Prop) : Prop where
  init : ∀ s, M.init s → ∃ t, N.init t ∧ R s t
  step : ∀ {tr s l t a}, M.Run tr s → N.Run l t → R s t → M.guard s a →
    ∃ t', N.Run (view s a ++ l) t' ∧ R (M.next s a) t'

theorem Simulation.run {R : σ → τ → Prop} (h : Simulation M N view R) {tr : List ε} {s : σ} {l : List δ}
    (hs : M.Sees view tr s l) : ∃ t, N.Run l t ∧ R s t := by
  induction hs with
  | init h0 =>
      obtain ⟨t, ht, hr⟩ := h.init _ h0
      exact ⟨t, .init ht, hr⟩
  | step hs hg ih =>
      obtain ⟨t, ht, hr⟩ := ih
      exact h.step hs.run ht hr hg

/-! ## Replaying what a run looks like -/

/-- What the actions `as`, oldest first, look like from `s`. -/
def views (M : Lts σ ε) (view : σ → ε → List δ) : σ → List ε → List δ
  | _, [] => []
  | s, a :: as => views M view (M.next s a) as ++ view s a

theorem Sees.exec [∀ s a, Decidable (M.guard s a)] {tr as : List ε} {s s' : σ} {l : List δ}
    (h : M.Sees view tr s l) (he : M.exec s as = some s') :
    M.Sees view (as.reverse ++ tr) s' (M.views view s as ++ l) := by
  induction as generalizing tr s l with
  | nil =>
      rw [Lts.exec, Option.some.injEq] at he
      exact he ▸ h
  | cons a as ih =>
      unfold Lts.exec at he
      split at he
      · rename_i hg
        simpa [views] using ih (.step h hg) he
      · cases he

theorem views_concat (s : σ) (as : List ε) (a : ε) :
    M.views view s (as ++ [a]) = view (as.foldl M.next s) a ++ M.views view s as := by
  induction as generalizing s with
  | nil => simp [views]
  | cons b as ih => rw [List.cons_append, views, ih, views, List.foldl_cons, List.append_assoc]

/-! ## Simulations one above the other -/

theorem Run.foldl_next (h0 : ∀ s s', M.init s → M.init s' → s = s') {tr late : List ε} {s s' : σ}
    (h : M.Run tr s) (h' : M.Run (late ++ tr) s') : s' = late.reverse.foldl M.next s := by
  induction late generalizing s' with
  | nil => exact h'.unique h0 h
  | cons a late ih =>
      obtain ⟨s₀, h₀, _, rfl⟩ := h'.uncons
      rw [ih h₀, List.reverse_cons, List.foldl_append]
      rfl

/-- Some steps at once. -/
theorem Sees.late (h0 : ∀ s s', M.init s → M.init s' → s = s') {tr late : List ε} {s s' : σ} {l : List δ}
    (h : M.Sees view tr s l) (h' : M.Run (late ++ tr) s') :
    M.Sees view (late ++ tr) s' (M.views view s late.reverse ++ l) := by
  induction late generalizing s' with
  | nil => exact h.run.unique h0 h' ▸ h
  | cons a late ih =>
      obtain ⟨s₀, h₀, hg, rfl⟩ := h'.uncons
      rw [List.reverse_cons, views_concat, ← h.run.foldl_next h0 h₀, List.append_assoc]
      exact (ih h₀).step hg

/-- Where a step looks to the third system like the steps of the second that it is, a run looks to it like
the run of the second. -/
theorem Simulation.sees {ζ : Type*} {view₁ : τ → δ → List ζ} {view₂ : σ → ε → List ζ} {R : σ → τ → Prop}
    (h : Simulation M N view R) (h0 : ∀ t t', N.init t → N.init t' → t = t')
    (hview : ∀ s t a, R s t → view₂ s a = N.views view₁ t (view s a).reverse) {tr : List ε} {s : σ}
    {l : List ζ} (hs : M.Sees view₂ tr s l) : ∃ l' t, N.Sees view₁ l' t l ∧ R s t := by
  induction hs with
  | init hi =>
      obtain ⟨t, ht, hr⟩ := h.init _ hi
      exact ⟨[], t, .init ht, hr⟩
  | @step _ s _ a hs hg ih =>
      obtain ⟨l', t, ht, hr⟩ := ih
      obtain ⟨t', ht', hr'⟩ := h.step hs.run ht.run hr hg
      exact ⟨_, t', hview s t a hr ▸ ht.late h0 ht', hr'⟩

end Lts
