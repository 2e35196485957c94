import StanDfs.Rpc.Lemmas.Steps

/-!
# Handlers that were called

Each call of a handler has returned or is the work of one worker.
-/

namespace StanDfs

namespace Rpcs

variable {χ : Type*} {e : Env χ} {s : Rpcs χ}

/-- No handler is called and none returns, or one is called, or one returns. -/
inductive Handling (s s' : Rpcs χ) : Act χ → Prop
  | other {a} : (∀ w j ret body, a ≠ .handled w j ret body) → s'.execs = s.execs →
      s'.results = s.results → (∀ w j, s'.workers w = .running j ↔ s.workers w = .running j) →
      Handling s s' a
  | called {a w j} : (∀ w j ret body, a ≠ .handled w j ret body) → (∀ j', s.workers w ≠ .running j') →
      s'.workers = Function.update s.workers w (.running j) → s'.execs = s.execs ++ [j] →
      s'.results = s.results → Handling s s' a
  | returned {w j ret body p} : s.workers w = .running j → (∀ j', p ≠ .running j') →
      s'.workers = Function.update s.workers w p → s'.execs = s.execs →
      s'.results = s.results ++ [⟨j, ret, body⟩] → Handling s s' (.handled w j ret body)

theorem running_setWorker {w : Worker} {p : Pc χ} (hs : ∀ j, s.workers w ≠ .running j)
    (hp : ∀ j, p ≠ .running j) (w' : Worker) (j : Job χ) :
    (s.setWorker w p).workers w' = .running j ↔ s.workers w' = .running j := by
  by_cases hw : w' = w
  · subst hw
    simp [setWorker, hs j, hp j]
  · simp [setWorker, Function.update_of_ne hw]

variable [DecidableEq χ]

theorem handling {a : Act χ} (hg : guard e s a) : Handling s (s.next e a) a := by
  cases a with
  | gotPdu c b accept =>
      cases accept <;> exact .other (by intros; simp) rfl rfl fun _ _ => Iff.rfl
  | begin w c b =>
      have hw : ∀ j, s.workers w ≠ .running j := by simp [hg.2.1]
      simp only [next, begin]
      split
      · exact .other (by intros; simp) rfl rfl fun _ _ => Iff.rfl
      · split
        · exact .other (by intros; simp) rfl rfl
            (running_setWorker (s := { s with jobs := s.jobs.erase (c, b) }) hw (by simp))
        · split
          · exact .other (by intros; simp) rfl rfl fun _ _ => Iff.rfl
          · split
            · exact .other (by intros; simp) rfl rfl
                (running_setWorker (s := { s with jobs := s.jobs.erase (c, b) }) hw (by simp))
            · exact .called (by intros; simp) hw rfl rfl rfl
  | seen w j => exact .other (by intros; simp) rfl rfl (running_setWorker (by simp [hg.2]) (p := .save j) (by simp))
  | save w j => exact .other (by intros; simp) rfl rfl (running_setWorker (by simp [hg.2]) (p := .check j) (by simp))
  | check w j =>
      have hw : ∀ j, s.workers w ≠ .running j := by simp [hg.2]
      simp only [next, check]
      split
      · exact .other (by intros; simp) rfl rfl fun _ _ => Iff.rfl
      · rename_i st t freed _
        have hset : ∀ p : Pc χ, (∀ j, p ≠ .running j) → ∀ w' j',
            (setWorker { s with table := t, freed := s.freed ++ freed } w p).workers w' = .running j' ↔
              s.workers w' = .running j' :=
          fun p hp => running_setWorker (s := { s with table := t, freed := s.freed ++ freed }) hw hp
        cases st with
        | new => exact .called (by intros; simp) hw rfl rfl rfl
        | inprogress => exact .other (by intros; simp) rfl rfl (hset _ (by simp))
        | done b sz =>
            cases b with
            | none => exact .other (by intros; simp) rfl rfl fun _ _ => Iff.rfl
            | some b => exact .other (by intros; simp) rfl rfl (hset _ (by simp))
        | forgotten => exact .other (by intros; simp) rfl rfl (hset _ (by simp))
  | handled w j ret body =>
      simp only [next, handled]
      split
      · exact .returned hg.2.1 (by simp) rfl rfl rfl
      · exact .returned hg.2.1 (by simp) rfl rfl rfl
  | record w j b =>
      simp only [next, record]
      split
      · exact .other (by intros; simp) rfl rfl fun _ _ => Iff.rfl
      · exact .other (by intros; simp) rfl rfl
          (running_setWorker (by simp [hg.2]) (p := .choose j b) (by simp))
  | choose w j b =>
      simp only [next, choose]
      split
      · exact .other (by intros; simp) rfl rfl fun _ _ => Iff.rfl
      · exact .other (by intros; simp) rfl rfl (running_setWorker (by simp [hg.2]) (by simp))
  | tx w j c b sz ok =>
      exact .other (by intros; simp) rfl rfl
        (running_setWorker (by simp [hg.2.1]) (p := .sending j c b sz) (by simp))
  | sent w j c b sz =>
      exact .other (by intros; simp) rfl rfl (running_setWorker (by simp [hg.2]) (p := .idle) (by simp))
  | txReply w j r ok =>
      exact .other (by intros; simp) rfl rfl (running_setWorker (by simp [hg.2.1]) (by simp))
  | die c => exact .other (by intros; simp) rfl rfl fun _ _ => Iff.rfl

/-- The handlers called are those that returned and those of the workers `ws`. -/
def Matched (s : Rpcs χ) (ws : List (Worker × Job χ)) : Prop :=
  (ws.map Prod.fst).Nodup ∧ (∀ w j, (w, j) ∈ ws ↔ s.workers w = .running j) ∧
    s.execs.Perm (s.results.map Result.job ++ ws.map Prod.snd)

theorem Matched.next {s' : Rpcs χ} {a : Act χ} {ws : List (Worker × Job χ)} (h : s.Matched ws)
    (hs : Handling s s' a) : ∃ ws', s'.Matched ws' := by
  obtain ⟨hnd, hrun, hperm⟩ := h
  cases hs with
  | other _ he hr hw =>
      exact ⟨ws, hnd, fun w j => (hrun w j).trans (hw w j).symm, by rw [he, hr]; exact hperm⟩
  | @called _ w j _ hw hws he hr =>
      have hnew : w ∉ ws.map Prod.fst := fun hm => by
        obtain ⟨⟨w', j'⟩, hj', rfl⟩ := List.mem_map.mp hm
        exact hw j' ((hrun _ _).mp hj')
      refine ⟨(w, j) :: ws, List.nodup_cons.mpr ⟨hnew, hnd⟩, fun w' j' => ?_, ?_⟩
      · rw [hws]
        by_cases hww : w' = w
        · subst hww
          rw [Function.update_self, List.mem_cons, Prod.mk.injEq, hrun, Pc.running.injEq]
          simp [hw j', eq_comm]
        · rw [Function.update_of_ne hww, List.mem_cons, Prod.mk.injEq, hrun]
          simp [hww]
      · rw [he, hr]
        calc (s.execs ++ [j]).Perm (s.results.map Result.job ++ ws.map Prod.snd ++ [j]) :=
              hperm.append_right _
          _ = s.results.map Result.job ++ (ws.map Prod.snd ++ [j]) := List.append_assoc ..
          List.Perm _ (s.results.map Result.job ++ (j :: ws.map Prod.snd)) :=
              (List.perm_append_singleton j _).append_left _
  | @returned w j ret body p hw hp hws he hr =>
      have hmem : (w, j) ∈ ws := (hrun w j).mpr hw
      have hfst : ∀ j', (w, j') ∈ ws → j' = j := fun j' hj' => by
        have hj := (hrun w j').mp hj'
        rw [hw, Pc.running.injEq] at hj
        exact hj.symm
      refine ⟨ws.erase (w, j), hnd.sublist ((List.erase_sublist).map _), fun w' j' => ?_, ?_⟩
      · have hws' : ws.Nodup := List.Nodup.of_map _ hnd
        rw [hws'.mem_erase_iff, hrun, hws]
        by_cases hww : w' = w
        · subst hww
          rw [Function.update_self]
          refine iff_of_false ?_ (hp j')
          rintro ⟨hne, hj'⟩
          exact hne (by rw [hfst j' ((hrun _ _).mpr hj')])
        · rw [Function.update_of_ne hww]
          simp [hww]
      · rw [he, hr, List.map_append]
        calc s.execs.Perm (s.results.map Result.job ++ ws.map Prod.snd) := hperm
          List.Perm _ (s.results.map Result.job ++ (j :: (ws.erase (w, j)).map Prod.snd)) :=
              ((List.perm_cons_erase hmem).map Prod.snd).append_left _
          _ = s.results.map Result.job ++ [j] ++ (ws.erase (w, j)).map Prod.snd := by simp

theorem matched_of_run {tr : List (Act χ)} (h : (lts e).Run tr s) : ∃ ws, s.Matched ws := by
  refine h.invariant (I := fun _ s => ∃ ws, s.Matched ws) ?_ ?_
  · rintro s rfl
    exact ⟨[], List.nodup_nil, by simp [init], List.Perm.refl _⟩
  · rintro tr s a _ ⟨ws, hs⟩ hg
    exact hs.next (handling hg)

/-- A handler that runs was called apart from those that returned. -/
theorem countP_lt_of_running {tr : List (Act χ)} (h : (lts e).Run tr s) {w : Worker} {j : Job χ}
    (hw : s.workers w = .running j) {P : Job χ → Bool} (hj : P j = true) :
    (s.results.map Result.job).countP P < s.execs.countP P := by
  obtain ⟨ws, _, hrun, hperm⟩ := matched_of_run h
  have hmem : j ∈ ws.map Prod.snd := List.mem_map.mpr ⟨(w, j), (hrun w j).mpr hw, rfl⟩
  rw [hperm.countP_eq, List.countP_append]
  have hpos : 0 < (ws.map Prod.snd).countP P := List.countP_pos_iff.mpr ⟨j, hmem, hj⟩
  omega

end Rpcs
end StanDfs
