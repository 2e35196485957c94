import Mathlib.Data.List.Infix
import Mathlib.Logic.Function.Basic

/-!
# Guarded transition systems and their runs

A system is given by its initial states, by the guard of each action and by the state each action
leads to. The trace of a run lists its actions with the newest first. All nondeterminism is in the
choice of the action, so a run can be replayed by evaluating `exec`.
-/

/-- A transition system over states `σ` and actions `ε`. -/
structure Lts (σ ε : Type*) where
  init : σ → Prop
  guard : σ → ε → Prop
  next : σ → ε → σ

namespace Lts

variable {σ ε : Type*}

/-- `M.Run tr s`: the actions of `tr`, newest first, lead from an initial state to `s`. -/
inductive Run (M : Lts σ ε) : List ε → σ → Prop
  | init {s} : M.init s → Run M [] s
  | step {tr s a} : Run M tr s → M.guard s a → Run M (a :: tr) (M.next s a)

variable {M : Lts σ ε}

theorem Run.nil_init {s : σ} : M.Run [] s → M.init s
  | .init h => h

/-- The last action of a run was enabled in the state before it. -/
theorem Run.uncons {tr : List ε} {a : ε} {s : σ} (h : M.Run (a :: tr) s) :
    ∃ s₀, M.Run tr s₀ ∧ M.guard s₀ a ∧ s = M.next s₀ a := by
  cases h with
  | step h hg => exact ⟨_, h, hg, rfl⟩

/-- The rule of inductive invariants over traces and states. -/
theorem Run.invariant {I : List ε → σ → Prop} (h0 : ∀ s, M.init s → I [] s)
    (hstep : ∀ tr s a, M.Run tr s → I tr s → M.guard s a → I (a :: tr) (M.next s a))
    {tr : List ε} {s : σ} (h : M.Run tr s) : I tr s := by
  induction h with
  | init h => exact h0 _ h
  | step h hg ih => exact hstep _ _ _ h ih hg

/-- The state a trace leads to from the only initial state is determined by the trace. -/
theorem Run.unique (h0 : ∀ s s', M.init s → M.init s' → s = s') {tr : List ε} {s s' : σ}
    (h : M.Run tr s) (h' : M.Run tr s') : s = s' := by
  induction h generalizing s' with
  | init h => exact h0 _ _ h h'.nil_init
  | step _ _ ih =>
      obtain ⟨s₀, h₀, _, rfl⟩ := h'.uncons
      rw [ih h₀]

/-- The step that a longer trace makes is made in the state of the shorter one. -/
theorem Run.step_of_cons (h0 : ∀ s s', M.init s → M.init s' → s = s') {tr : List ε} {a : ε} {s s' : σ}
    (h : M.Run tr s) (h' : M.Run (a :: tr) s') : M.guard s a ∧ s' = M.next s a := by
  obtain ⟨s₀, h₀, hg, rfl⟩ := h'.uncons
  obtain rfl := h.unique h0 h₀
  exact ⟨hg, rfl⟩

/-- The rule of relations between an earlier and a later state of a run. -/
theorem Run.later (h0 : ∀ s s', M.init s → M.init s' → s = s') {R : σ → σ → Prop}
    (hrefl : ∀ s, R s s) (hstep : ∀ s s' a, R s s' → M.guard s' a → R s (M.next s' a))
    {tr late : List ε} {s s' : σ} (h : M.Run tr s) (h' : M.Run (late ++ tr) s') : R s s' := by
  induction late generalizing s' with
  | nil => exact (h.unique h0 h') ▸ hrefl s
  | cons a late ih =>
      obtain ⟨s₀, h₀, hg, rfl⟩ := h'.uncons
      exact hstep s s₀ a (ih h₀) hg

/-- The rule of invariants over what happens from a point of the run on. -/
theorem Run.since {early : List ε} {I : List ε → σ → Prop} (h0 : ∀ s, M.Run early s → I [] s)
    (hstep : ∀ late s a, M.Run (late ++ early) s → I late s → M.guard s a → I (a :: late) (M.next s a))
    {late : List ε} {s : σ} (h : M.Run (late ++ early) s) : I late s := by
  induction late generalizing s with
  | nil => exact h0 s h
  | cons a late ih =>
      obtain ⟨s₀, h₀, hg, rfl⟩ := h.uncons
      exact hstep late s₀ a h₀ (ih h₀) hg

/-! ## Restricting the actions -/

/-- The system whose every step also meets the condition `C`. -/
def restrict (M : Lts σ ε) (C : σ → ε → Prop) : Lts σ ε where
  init := M.init
  guard s a := M.guard s a ∧ C s a
  next := M.next

instance {C : σ → ε → Prop} [∀ s a, Decidable (M.guard s a)] [∀ s a, Decidable (C s a)] (s : σ) (a : ε) :
    Decidable ((M.restrict C).guard s a) :=
  inferInstanceAs (Decidable (_ ∧ _))

theorem Run.of_restrict {C : σ → ε → Prop} {tr : List ε} {s : σ} (h : (M.restrict C).Run tr s) :
    M.Run tr s := by
  induction h with
  | init h => exact .init h
  | step _ hg ih => exact .step ih hg.1

/-- Each step of a restricted run meets the condition in the state that the run has come to. -/
theorem Run.condition_of_append (h0 : ∀ s s', M.init s → M.init s' → s = s') {C : σ → ε → Prop}
    {late early : List ε} {a : ε} {s s' : σ} (h : (M.restrict C).Run (late ++ a :: early) s')
    (hr : M.Run early s) : C s a := by
  induction late generalizing s' with
  | nil =>
      obtain ⟨s₀, h₀, hg, _⟩ := h.uncons
      obtain rfl := hr.unique h0 h₀.of_restrict
      exact hg.2
  | cons b late ih =>
      obtain ⟨s₀, h₀, _⟩ := h.uncons
      exact ih h₀

theorem Run.restrict_mono {C D : σ → ε → Prop} (hCD : ∀ s a, C s a → D s a) {tr : List ε} {s : σ}
    (h : (M.restrict C).Run tr s) : (M.restrict D).Run tr s := by
  induction h with
  | init h => exact .init h
  | step _ hg ih => exact .step ih ⟨hg.1, hCD _ _ hg.2⟩

theorem Run.restrict_inner {C D : σ → ε → Prop} {tr : List ε} {s : σ}
    (h : ((M.restrict C).restrict D).Run tr s) : (M.restrict D).Run tr s := by
  induction h with
  | init h => exact .init h
  | step _ hg ih => exact .step ih ⟨hg.1.1, hg.2⟩

theorem Run.restrict_of_forall {C : σ → ε → Prop} {tr : List ε} {s : σ} (h : M.Run tr s)
    (hc : ∀ a ∈ tr, ∀ s, C s a) : (M.restrict C).Run tr s := by
  induction h with
  | init h => exact .init h
  | step _ hg ih =>
      exact .step (ih fun a ha => hc a (List.mem_cons_of_mem _ ha)) ⟨hg, hc _ List.mem_cons_self _⟩

/-- A run that meets two conditions at every step meets both. -/
theorem Run.restrict_and (h0 : ∀ s s', M.init s → M.init s' → s = s') {C D : σ → ε → Prop} {tr : List ε}
    {s : σ} (h : (M.restrict C).Run tr s) (h' : (M.restrict D).Run tr s) :
    ((M.restrict C).restrict D).Run tr s := by
  induction h with
  | init h => exact .init h
  | step hr hg ih =>
      obtain ⟨s₀, h₀, hg₀, _⟩ := h'.uncons
      obtain rfl := hr.of_restrict.unique h0 h₀.of_restrict
      exact .step (ih h₀) ⟨hg, hg₀.2⟩

/-! ## Projecting a run to a component -/

/-- A component reads the state through `f` and the actions through `p`. It moves by its own rules on
the actions `p` keeps and stays on the others. -/
structure Component {σ' ε' : Type*} (M : Lts σ ε) (N : Lts σ' ε') (f : σ → σ') (p : ε → Option ε') :
    Prop where
  init : ∀ s, M.init s → N.init (f s)
  moves : ∀ s a b, M.guard s a → p a = some b → N.guard (f s) b ∧ f (M.next s a) = N.next (f s) b
  stays : ∀ s a, M.guard s a → p a = none → f (M.next s a) = f s

theorem Run.component {σ' ε' : Type*} {N : Lts σ' ε'} {f : σ → σ'} {p : ε → Option ε'}
    (hc : Component M N f p) {tr : List ε} {s : σ} (h : M.Run tr s) :
    N.Run (tr.filterMap p) (f s) := by
  induction h with
  | init h => exact .init (hc.init _ h)
  | @step tr s a _ hg ih =>
      cases hp : p a with
      | none =>
          rw [List.filterMap_cons_none hp, hc.stays _ _ hg hp]
          exact ih
      | some b =>
          obtain ⟨hb, hn⟩ := hc.moves _ _ _ hg hp
          rw [List.filterMap_cons_some hp, hn]
          exact .step ih hb

/-- A component of a restricted system is restricted by what the condition says about it. -/
theorem Component.restrict {σ' ε' : Type*} {N : Lts σ' ε'} {f : σ → σ'} {p : ε → Option ε'}
    (hc : Component M N f p) {C : σ → ε → Prop} {D : σ' → ε' → Prop}
    (hD : ∀ s a b, C s a → p a = some b → D (f s) b) :
    Component (M.restrict C) (N.restrict D) f p where
  init := hc.init
  moves s a b hg hp := by
    obtain ⟨hb, hn⟩ := hc.moves s a b hg.1 hp
    exact ⟨⟨hb, hD s a b hg.2 hp⟩, hn⟩
  stays s a hg hp := hc.stays s a hg.1 hp

/-- A condition that the run of a component meets restricts the run of the whole. -/
theorem Run.restrict_of_component {σ' ε' : Type*} {N : Lts σ' ε'} {f : σ → σ'} {p : ε → Option ε'}
    (hc : Component M N f p) (h0 : ∀ s s', N.init s → N.init s' → s = s') {D : σ' → ε' → Prop}
    {tr : List ε} {s : σ} (h : M.Run tr s) (h' : (N.restrict D).Run (tr.filterMap p) (f s)) :
    (M.restrict fun s a => ∀ b ∈ p a, D (f s) b).Run tr s := by
  induction h with
  | init h => exact .init h
  | @step tr s a hr hg ih =>
      cases hp : p a with
      | none =>
          rw [List.filterMap_cons_none hp, hc.stays _ _ hg hp] at h'
          exact .step (ih h') ⟨hg, by simp [hp]⟩
      | some b =>
          rw [List.filterMap_cons_some hp] at h'
          obtain ⟨s₀, h₀, hg₀, _⟩ := h'.uncons
          obtain rfl := (hr.component hc).unique h0 h₀.of_restrict
          exact .step (ih h₀) ⟨hg, by simpa [hp] using hg₀.2⟩

/-- A run without the actions that do not concern the view `V` of its states. -/
theorem Run.filter {p : ε → Bool} {V : σ → σ → Prop} (h0 : ∀ s, M.init s → V s s)
    (hout : ∀ s s₀ a, V s s₀ → M.guard s a → p a = false → V (M.next s a) s₀)
    (hin : ∀ s s₀ a, V s s₀ → M.guard s a → p a = true → M.guard s₀ a ∧ V (M.next s a) (M.next s₀ a))
    {tr : List ε} {s : σ} (h : M.Run tr s) : ∃ s₀, M.Run (tr.filter p) s₀ ∧ V s s₀ := by
  induction h with
  | @init s h => exact ⟨s, .init h, h0 s h⟩
  | @step tr s a _ hg ih =>
      obtain ⟨s₀, hr, hv⟩ := ih
      cases hp : p a with
      | false =>
          rw [List.filter_cons_of_neg (by simp [hp])]
          exact ⟨s₀, hr, hout s s₀ a hv hg hp⟩
      | true =>
          rw [List.filter_cons_of_pos hp]
          obtain ⟨hg₀, hv'⟩ := hin s s₀ a hv hg hp
          exact ⟨_, .step hr hg₀, hv'⟩

/-! ## Replaying a run -/

/-- The state the actions `as`, oldest first, lead to from `s`, where each is enabled in its turn. -/
def exec (M : Lts σ ε) [∀ s a, Decidable (M.guard s a)] : σ → List ε → Option σ
  | s, [] => some s
  | s, a :: as => if M.guard s a then exec M (M.next s a) as else none

theorem exec_append [∀ s a, Decidable (M.guard s a)] (s : σ) (l l' : List ε) :
    M.exec s (l ++ l') = (M.exec s l).bind fun s' => M.exec s' l' := by
  induction l generalizing s with
  | nil => rfl
  | cons a l ih =>
      rw [List.cons_append, exec, exec]
      split
      · exact ih _
      · rfl

theorem Run.exec [∀ s a, Decidable (M.guard s a)] {tr as : List ε} {s s' : σ} (h : M.Run tr s)
    (he : M.exec s as = some s') : M.Run (as.reverse ++ tr) s' := by
  induction as generalizing tr s with
  | nil =>
      rw [Lts.exec, Option.some.injEq] at he
      exact he ▸ h
  | cons a as ih =>
      unfold Lts.exec at he
      split at he
      · rename_i hg
        simpa using ih (.step h hg) he
      · cases he

/-- What is replayed from a state can be done from a state related to it. -/
theorem Run.exec_of {M₀ : Lts σ ε} [∀ s a, Decidable (M₀.guard s a)] {R : σ → σ → Prop}
    {tr as : List ε} {s s₀ s₀' : σ} (h : M.Run tr s) (hR : R s s₀) (he : M₀.exec s₀ as = some s₀')
    (hstep : ∀ s s₀ a, R s s₀ → M₀.guard s₀ a → M.guard s a ∧ R (M.next s a) (M₀.next s₀ a)) :
    ∃ s', M.Run (as.reverse ++ tr) s' ∧ R s' s₀' := by
  induction as generalizing tr s s₀ with
  | nil =>
      rw [Lts.exec, Option.some.injEq] at he
      exact ⟨s, h, he ▸ hR⟩
  | cons a as ih =>
      unfold Lts.exec at he
      split at he
      · rename_i hg
        obtain ⟨hg', hR'⟩ := hstep s s₀ a hR hg
        simpa using ih (.step h hg') hR' he
      · cases he

/-- A replay that ends in a state with a tested property is a run to it. -/
theorem run_of_exec [∀ s a, Decidable (M.guard s a)] {l : List ε} {s : σ} {f : σ → Bool}
    (h0 : M.init s) (h : (M.exec s l).elim false f = true) :
    ∃ s', M.Run l.reverse s' ∧ f s' = true := by
  cases he : M.exec s l with
  | none =>
      rw [he] at h
      cases h
  | some s' =>
      rw [he] at h
      have hr := (Run.init h0).exec he
      rw [List.append_nil] at hr
      exact ⟨s', hr, h⟩

end Lts
