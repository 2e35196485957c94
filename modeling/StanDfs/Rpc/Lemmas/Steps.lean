import StanDfs.Rpc.Lemmas.Recording
import StanDfs.Rpc.Lemmas.Traffic

/-!
# What a step does to calls and handlers

A thread is in a call from `call1` to its return, and a worker in a handler from its invocation to its
return.
-/

namespace StanDfs

namespace Rpcc

variable {χ : Type*} {e : Env} {s : Rpcc χ}

theorem inCall_setThread {t : Tid} {p p₀ : Thread χ} (ht : s.threads t = p₀) (hp : p.inCall = p₀.inCall)
    (t' : Tid) : ((s.setThread t p).threads t').inCall = (s.threads t').inCall := by
  by_cases htt : t' = t
  · subst htt
    simp [Rpcc.setThread, hp, ht]
  · simp [Rpcc.setThread, Function.update_of_ne htt]

variable [DecidableEq χ]

/-- Calls go on, or one begins, or one ends. -/
inductive CallStep (e : Env) (s s' : Rpcc χ) : Act χ → Prop
  | other {a} : (∀ t proc args, a = .call1 t proc args → s.refuses proc = true) →
      (∀ t f r, a ≠ .ret t f r) → s'.issued = s.issued →
      (∀ t, (s'.threads t).inCall = (s.threads t).inCall) → CallStep e s s' a
  | begins {t proc args p} : s.refuses proc = false → (s.threads t).inCall = none →
      p.inCall = some (s.request e proc args) → s'.threads = Function.update s.threads t p →
      s'.issued = s.issued ++ [s.request e proc args] → CallStep e s s' (.call1 t proc args)
  | ends {t f r p} : s.threads t = .returning f → p.inCall = none →
      s'.threads = Function.update s.threads t p → s'.issued = s.issued →
      CallStep e s s' (.ret t f r)

theorem callStep {a : Act χ} (hg : guard s a) : CallStep e s (s.next e a) a := by
  cases a with
  | call1 t proc args =>
      simp only [next, call1]
      split
      · rename_i hr
        exact .other (fun _ _ _ h => by cases h; exact hr) (fun _ _ _ h => by cases h) rfl fun _ => rfl
      · rename_i hr
        exact .begins (by simpa using hr) (by rw [show s.threads t = .idle from hg]; rfl) rfl rfl rfl
  | getRefconn t f conn =>
      refine .other (fun _ _ _ h => by cases h) (fun _ _ _ h => by cases h) (getRefconn_frame s t f conn).1 ?_
      · simp only [next, getRefconn]
        split
        · exact inCall_setThread (s := { s with chan := _ }) hg.1 rfl
        · exact inCall_setThread (s := { s with chan := _ }) hg.1 rfl
  | tx t f c ok =>
      exact .other (fun _ _ _ h => by cases h) (fun _ _ _ h => by cases h) rfl
        (inCall_setThread (p := .waiting f) hg.1 rfl)
  | giveup t f => exact .other (fun _ _ _ h => by cases h) (fun _ _ _ h => by cases h) rfl (inCall_setThread hg rfl)
  | woken t f => exact .other (fun _ _ _ h => by cases h) (fun _ _ _ h => by cases h) rfl (inCall_setThread hg.1 rfl)
  | timedout t f =>
      exact .other (fun _ _ _ h => by cases h) (fun _ _ _ h => by cases h) rfl (inCall_setThread hg.1 rfl)
  | isdead t f =>
      refine .other (fun _ _ _ h => by cases h) (fun _ _ _ h => by cases h) rfl ?_
      rcases isdead_cases (e := e) s t f with heq | ⟨_, heq⟩ <;> rw [next, heq] <;>
        exact inCall_setThread hg rfl
  | leave t f =>
      exact .other (fun _ _ _ h => by cases h) (fun _ _ _ h => by cases h) rfl
        (inCall_setThread (p := .returning f) hg rfl)
  | ret t f r =>
      simp only [next, ret]
      split
      · split
        · exact .ends hg.1 rfl rfl rfl
        · exact .ends hg.1 rfl rfl rfl
      · exact .ends hg.1 rfl rfl rfl
  | bound t r =>
      exact .other (fun _ _ _ h => by cases h) (fun _ _ _ h => by cases h) rfl (inCall_setThread (p := .idle) hg rfl)
  | gotPdu c b =>
      obtain ⟨hi, _, _, hth⟩ := gotPdu_frame s b
      exact .other (fun _ _ _ h => by cases h) (fun _ _ _ h => by cases h) hi fun t => by rw [next, hth]
  | cancel => exact .other (fun _ _ _ h => by cases h) (fun _ _ _ h => by cases h) rfl fun _ => rfl
  | die c => exact .other (fun _ _ _ h => by cases h) (fun _ _ _ h => by cases h) rfl fun _ => rfl

end Rpcc

namespace Rpcs

variable {χ : Type*} {e : Env χ} {s : Rpcs χ}

/-- The worker that takes the step, and where it stands. -/
def Act.mover : Act χ → Option (Worker × Pc χ)
  | .gotPdu _ _ _ => none
  | .begin w _ _ => some (w, .idle)
  | .seen w j => some (w, .seen j)
  | .save w j => some (w, .save j)
  | .check w j => some (w, .check j)
  | .handled w j _ _ => some (w, .running j)
  | .record w j b => some (w, .record j b)
  | .choose w j b => some (w, .choose j b)
  | .tx w j c b sz _ => some (w, .send j c b sz)
  | .sent w j c b sz => some (w, .sending j c b sz)
  | .txReply w j r _ => some (w, .reply j r)
  | .die _ => none

theorem stands_of_mover {a : Act χ} (hg : guard e s a) {w : Worker} {p : Pc χ} (hm : a.mover = some (w, p)) :
    s.workers w = p := by
  cases a with
  | gotPdu c b accept => cases hm
  | die c => cases hm
  | begin w c b => cases hm; exact hg.2.1
  | handled w j ret body => cases hm; exact hg.2.1
  | tx w j c b sz ok => cases hm; exact hg.2.1
  | txReply w j r ok => cases hm; exact hg.2.1
  | _ => cases hm; exact hg.2

variable [DecidableEq χ]

/-- No worker moves but the one that takes the step. -/
theorem workers_next (e : Env χ) (s : Rpcs χ) (a : Act χ) : (s.next e a).workers = s.workers ∨
    ∃ w p q, a.mover = some (w, p) ∧ (s.next e a).workers = Function.update s.workers w q := by
  cases a with
  | gotPdu c b accept => cases accept <;> exact .inl rfl
  | begin w c b =>
      simp only [next, begin]
      split
      · exact .inl rfl
      · split
        · exact .inr ⟨w, _, _, rfl, rfl⟩
        · split
          · exact .inl rfl
          · split <;> exact .inr ⟨w, _, _, rfl, rfl⟩
  | check w j =>
      simp only [next, check]
      split
      · exact .inl rfl
      · rename_i st t freed _
        cases st with
        | done b sz =>
            cases b with
            | none => exact .inl rfl
            | some b => exact .inr ⟨w, _, _, rfl, rfl⟩
        | _ => exact .inr ⟨w, _, _, rfl, rfl⟩
  | handled w j ret body =>
      simp only [next, handled]
      split <;> exact .inr ⟨w, _, _, rfl, rfl⟩
  | record w j b =>
      simp only [next, record]
      split
      · exact .inl rfl
      · exact .inr ⟨w, _, _, rfl, rfl⟩
  | choose w j b =>
      simp only [next, choose]
      split
      · exact .inl rfl
      · exact .inr ⟨w, _, _, rfl, rfl⟩
  | die c => exact .inl rfl
  | _ => exact .inr ⟨_, _, _, rfl, rfl⟩

theorem running_next {a : Act χ} (hg : guard e s a) {w : Worker} {j : Job χ}
    (hw : s.workers w = .running j) :
    (s.next e a).workers w = .running j ∨ ∃ ret body, a = .handled w j ret body := by
  rcases workers_next e s a with h | ⟨w', p, q, hm, h⟩
  · exact .inl (h ▸ hw)
  · by_cases hww : w = w'
    · subst hww
      obtain rfl : p = .running j := (stands_of_mover hg hm).symm.trans hw
      cases a with
      | handled w j ret body =>
          cases hm
          exact .inr ⟨ret, body, rfl⟩
      | _ => cases hm
    · exact .inl (by rw [h, Function.update_of_ne hww, hw])

/-- Only the first `N` workers take jobs. -/
def Within (N : Nat) : Act χ → Prop
  | .begin w _ _ => w < N
  | _ => True

instance (N : Nat) (a : Act χ) : Decidable (Within N a) := by
  unfold Within
  apply @Act.casesOn _ _ a <;> intros <;> infer_instance

theorem idle_next {a : Act χ} {w : Worker} (hg : guard e s a) (h : s.workers w = .idle)
    (ha : ∀ c b, a ≠ .begin w c b) : (s.next e a).workers w = .idle := by
  rcases workers_next e s a with hs | ⟨w', p, q, hm, hs⟩
  · rw [hs, h]
  · by_cases hww : w = w'
    · subst hww
      obtain rfl : p = .idle := (stands_of_mover hg hm).symm.trans h
      cases a with
      | begin w c b =>
          cases hm
          exact absurd rfl (ha c b)
      | _ => cases hm
    · rw [hs, Function.update_of_ne hww, h]

theorem idle_of_run {N : Nat} {tr : List (Act χ)} (h : ((lts e).restrict fun _ a => Within N a).Run tr s)
    {w : Worker} (hw : N ≤ w) : s.workers w = .idle := by
  refine h.invariant (I := fun _ s => s.workers w = .idle) ?_ ?_
  · rintro s rfl
    rfl
  · rintro tr s a _ hs ⟨hg, ha⟩
    apply idle_next hg hs
    rintro c b rfl
    exact absurd ha (Nat.not_lt.mpr hw)

theorem results_next (s : Rpcs χ) (a : Act χ) : (s.next e a).results = s.results ∨
    ∃ w j ret body, a = .handled w j ret body ∧
      (s.next e a).results = s.results ++ [⟨j, ret, body⟩] := by
  cases a with
  | handled w j ret body =>
      refine .inr ⟨w, j, ret, body, rfl, ?_⟩
      simp only [next, handled]
      split <;> rfl
  | gotPdu c b accept => cases accept <;> exact .inl rfl
  | begin w c b =>
      obtain ⟨_, _, _, _, heq⟩ := begin_eq (e := e) s w c b
      exact .inl (by rw [next, heq])
  | check w j =>
      obtain ⟨_, _, _, _, _, heq⟩ := check_eq s w j
      exact .inl (by rw [next, heq])
  | record w j b =>
      refine .inl ?_
      simp only [next, record]
      split <;> rfl
  | choose w j b =>
      refine .inl ?_
      simp only [next, choose]
      split <;> rfl
  | _ => exact .inl rfl

end Rpcs

namespace RpcNet

variable {κ ι : Type*} [DecidableEq κ] [DecidableEq ι] {g : Config κ ι} {s : RpcNet κ ι}

/-- The request of the call a thread of a client is in. -/
def inCall (s : RpcNet κ ι) (k : κ) (t : Tid) : Option Request := ((s.clt k).threads t).inCall

/-- Calls go on, or one begins, or one ends. -/
inductive CallStep (g : Config κ ι) (s s' : RpcNet κ ι) : Act κ ι → Prop
  | other {a} : (∀ k t proc args, a = .clt k (.call1 t proc args) → (s.clt k).refuses proc = true) →
      (∀ k t f r, a ≠ .clt k (.ret t f r)) → (∀ k, (s'.clt k).issued = (s.clt k).issued) →
      (∀ k t, s'.inCall k t = s.inCall k t) → CallStep g s s' a
  | begins {k t proc args q} : (s.clt k).refuses proc = false → q = (s.clt k).request (g.clt k) proc args →
      s.inCall k t = none → s'.inCall k t = some q →
      (∀ k' t', (k', t') ≠ (k, t) → s'.inCall k' t' = s.inCall k' t') →
      (∀ k' q', q' ∈ (s'.clt k').issued ↔ q' ∈ (s.clt k').issued ∨ k' = k ∧ q' = q) →
      CallStep g s s' (.clt k (.call1 t proc args))
  | ends {k t f r} : s.inCall k t = some f.req → s'.inCall k t = none →
      (∀ k' t', (k', t') ≠ (k, t) → s'.inCall k' t' = s.inCall k' t') →
      (∀ k, (s'.clt k).issued = (s.clt k).issued) → CallStep g s s' (.clt k (.ret t f r))

theorem callStep {a : Act κ ι} (hg : guard g s a) : CallStep g s (next g s a) a := by
  cases a with
  | srv i a =>
      exact .other (fun _ _ _ _ h => by cases h) (fun _ _ _ _ h => by cases h) (fun _ => rfl) fun _ _ => rfl
  | clt k a =>
      have hother : ∀ k', k' ≠ k → (next g s (.clt k a)).clt k' = s.clt k' := fun k' hk => by
        simp [next, Function.update_of_ne hk]
      have hself : (next g s (.clt k a)).clt k = (s.clt k).next (g.clt k) a := by simp [next]
      have hc := Rpcc.callStep (e := g.clt k) hg.1
      rw [← hself] at hc
      have hin : ∀ {t p}, ((next g s (.clt k a)).clt k).threads = Function.update (s.clt k).threads t p →
          (next g s (.clt k a)).inCall k t = p.inCall ∧ ∀ k' t', (k', t') ≠ (k, t) →
            (next g s (.clt k a)).inCall k' t' = s.inCall k' t' := by
        intro t p hth
        refine ⟨by rw [inCall, hth, Function.update_self], fun k' t' hne => ?_⟩
        by_cases hk : k' = k
        · subst hk
          have ht : t' ≠ t := fun h => hne (by rw [h])
          rw [inCall, inCall, hth, Function.update_of_ne ht]
        · rw [inCall, inCall, hother k' hk]
      generalize next g s (.clt k a) = s' at hc hother hin
      have hissued : (s'.clt k).issued = (s.clt k).issued → ∀ k', (s'.clt k').issued = (s.clt k').issued := by
        intro h k'
        by_cases hk : k' = k
        · rw [hk, h]
        · rw [hother k' hk]
      cases hc with
      | other hcall hret hi hic =>
          refine .other (fun k' t proc args h => ?_) (fun k' t f r h => ?_) (hissued hi) fun k' t => ?_
          · cases h
            exact hcall t proc args rfl
          · cases h
            exact hret t f r rfl
          · by_cases hk : k' = k
            · rw [hk]
              exact hic t
            · rw [inCall, inCall, hother k' hk]
      | begins hr hn hp hth hi =>
          obtain ⟨hs, ho⟩ := hin hth
          refine .begins hr rfl hn (hs.trans hp) ho fun k' q' => ?_
          by_cases hk : k' = k
          · rw [hk, hi]
            simp
          · rw [hother k' hk]
            simp [hk]
      | ends ht hp hth hi =>
          obtain ⟨hs, ho⟩ := hin hth
          exact .ends (by rw [inCall, ht]; rfl) (hs.trans hp) ho (hissued hi)

/-- Only the first `N` workers of the servers take jobs. -/
def Within (N : Nat) : Act κ ι → Prop
  | .srv _ a => Rpcs.Within N a
  | .clt _ _ => True

instance (N : Nat) (a : Act κ ι) : Decidable (Within N a) := by
  unfold Within
  apply @Act.casesOn _ _ _ a <;> intros <;> infer_instance

theorem idle_of_run {N : Nat} {tr : List (Act κ ι)} (h : ((lts g).restrict fun _ a => Within N a).Run tr s)
    {i : ι} {w : Worker} (hw : N ≤ w) : (s.srv i).workers w = .idle := by
  refine Rpcs.idle_of_run (h.component ((srv_component g i).restrict fun s a b hc hp => ?_)) hw
  rwa [eq_of_srvAct hp] at hc

/-- Only the first `n` threads of the clients make calls. -/
def CalledBy (n : Nat) : Act κ ι → Prop
  | .clt _ (.call1 t _ _) => t < n
  | _ => True

instance (n : Nat) (a : Act κ ι) : Decidable (CalledBy n a) := by
  unfold CalledBy
  apply @Act.casesOn _ _ _ a
  · intro k a
    apply @Rpcc.Act.casesOn _ _ a <;> intros <;> infer_instance
  · intros
    infer_instance

theorem not_inCall_of_run {n : Nat} {tr : List (Act κ ι)}
    (h : ((lts g).restrict fun _ a => CalledBy n a).Run tr s) (k : κ) {t : Tid} (ht : n ≤ t) :
    s.inCall k t = none := by
  refine h.invariant (I := fun _ s => s.inCall k t = none) ?_ ?_
  · rintro s rfl
    rfl
  · rintro tr s a _ hs ⟨hg, ha⟩
    have hc := callStep hg
    generalize hs' : next g s a = s' at hc
    rw [show ((lts g).restrict fun _ a => CalledBy n a).next s a = s' from hs']
    cases hc with
    | other _ _ _ hin => exact (hin k t).trans hs
    | @begins k' t' _ _ _ _ _ _ _ ho _ =>
        refine (ho k t fun heq => ?_).trans hs
        cases heq
        exact absurd ha (Nat.not_lt.mpr ht)
    | @ends k' t' f r hsome hnone ho _ =>
        by_cases heq : (k, t) = (k', t')
        · cases heq
          exact hnone
        · exact (ho k t heq).trans hs

end RpcNet
end StanDfs
