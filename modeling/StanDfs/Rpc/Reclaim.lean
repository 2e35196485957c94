import StanDfs.Rpc.Balance

/-!
# When dead connections are reclaimed

`process_accept` looks at every entry of `conns_` and drops the dead ones that have no other reference, but
its loop does not survive the first. What keeps a dead connection although no dispatch uses it is an entry
of `rpcs::conns_`, which goes only when its client comes back, or a reference that a dispatch has forgotten.
-/

namespace StanDfs

open Holders (one count)

/-- The connection that a dispatch works on. -/
def Pc.conn {χ : Type*} : Pc χ → Option χ
  | .idle => none
  | .seen j | .save j | .check j | .running j | .record j _ | .choose j _ | .reply j _ => some j.conn
  | .send _ c _ _ | .sending _ c _ _ => some c

theorem Pc.conn_of_held {χ : Type*} {p : Pc χ} {c : χ} (h : p.held = some c) : p.conn = some c := by
  cases p with
  | reply j r =>
      simp only [Pc.held] at h
      split at h
      · cases h
      · exact h
  | _ => exact h

namespace Rpcs

variable {χ : Type*} [DecidableEq χ]

/-- A worker that works on a connection has a reference to it, unless it has just begun with a request for
another instance. -/
theorem held_next (e : Env χ) (s : Rpcs χ) (a : Act χ) : (s.next e a).workers = s.workers ∨
    ∃ w p, (s.next e a).workers = Function.update s.workers w p ∧
      (p.held = p.conn ∨ ∃ c b q, a = .begin w c b ∧ decodeReq b = some q ∧ OldInstance e q ∧ p.conn = some c) := by
  cases a with
  | gotPdu c b accept => cases accept <;> exact .inl rfl
  | die c => exact .inl rfl
  | begin w c b =>
      simp only [next, begin]
      split
      · exact .inl rfl
      · rename_i q hq
        split
        · rename_i hold
          exact .inr ⟨w, _, rfl, .inr ⟨c, b, q, rfl, hq, hold, rfl⟩⟩
        · split
          · exact .inl rfl
          · split <;> exact .inr ⟨w, _, rfl, .inl rfl⟩
  | check w j =>
      simp only [next, check]
      split
      · exact .inl rfl
      · rename_i st t freed _
        cases st with
        | done b sz =>
            cases b with
            | none => exact .inl rfl
            | some b => exact .inr ⟨w, _, rfl, .inl rfl⟩
        | _ => exact .inr ⟨w, _, rfl, .inl rfl⟩
  | handled w j ret body =>
      simp only [next, handled]
      split <;> exact .inr ⟨w, _, rfl, .inl rfl⟩
  | record w j b =>
      simp only [next, record]
      split
      · exact .inl rfl
      · exact .inr ⟨w, _, rfl, .inl rfl⟩
  | choose w j b =>
      simp only [next, choose]
      split
      · exact .inl rfl
      · exact .inr ⟨w, _, rfl, .inl rfl⟩
  | _ => exact .inr ⟨_, _, rfl, .inl rfl⟩

end Rpcs

namespace Refs

open Rpcs (Env OldInstance)

variable {χ : Type*} {s : Refs χ}

/-- A dispatch on the connection is queued or running. -/
def Busy (s : Refs χ) (c : χ) : Prop := (∃ j ∈ s.jobs, j.conn = c) ∨ ∃ w, (s.srv.workers w).conn = some c

theorem Quiet.not_busy (h : Quiet s) (c : χ) : ¬ s.Busy c := by
  rintro (⟨j, hj, -⟩ | ⟨w, hw⟩)
  · rw [h.jobs] at hj
    cases hj
  · rw [h.workers w] at hw
    cases hw

/-- The connection is alive, or a dispatch uses it. -/
def InUse (s : Refs χ) (c : χ) : Prop := c ∉ s.srv.dead ∨ s.Busy c

/-- The step begins a `process_accept`. -/
def Act.Accepts : Act χ → Prop
  | .accept _ fd _ => fd < maxPollFds
  | _ => False

instance (a : Act χ) : Decidable a.Accepts := by
  unfold Act.Accepts
  apply @Act.casesOn _ _ a <;> intros <;> infer_instance

/-- Nothing is left to collect: if the connection is dead, a dispatch uses it, and `refno_` counts more than the
entry of `conns_`. -/
def Spared (s : Refs χ) (c : χ) : Prop := c ∈ s.srv.dead → s.Busy c ∧ s.refno c ≠ 1

/-- The collector takes the connection. -/
def Garbage (s : Refs χ) (c : χ) : Prop := c ∈ s.srv.dead ∧ s.refno c = 1

theorem Spared.not_garbage {c : χ} (h : s.Spared c) : ¬ s.Garbage c := fun hg => (h hg.1).2 hg.2

theorem Spared.inUse {c : χ} (h : s.Spared c) : s.InUse c := by
  by_cases hd : c ∈ s.srv.dead
  · exact .inr (h hd).1
  · exact .inl hd

theorem InUse.spared {c : χ} (h : s.InUse c) (hg : ¬ s.Garbage c) : s.Spared c :=
  fun hd => ⟨h.resolve_left (not_not_intro hd), fun h1 => hg ⟨hd, h1⟩⟩

variable [DecidableEq χ] {e : Env χ} {tr : List (Act χ)}

/-- What happened before the last `process_accept` looked at the connection, or accepted it. -/
def lastLook (c : χ) : List (Act χ) → Option (List (Act χ))
  | [] => none
  | .collect _ c' _ :: tr => if c' = c then some tr else lastLook c tr
  | .accept c' fd _ :: tr =>
    if fd < maxPollFds then if c' = c then some tr else none else lastLook c tr
  | _ :: tr => lastLook c tr

/-- The last `process_accept` looked at the connection in the state `s₀`, after the steps `early`. -/
def LookedAt (e : Env χ) (tr : List (Act χ)) (c : χ) (early : List (Act χ)) (s₀ : Refs χ) : Prop :=
  lastLook c tr = some early ∧ (lts e).Run early s₀

/-- `P` held when the last `process_accept` looked at the connection. -/
def AtLook (e : Env χ) (tr : List (Act χ)) (c : χ) (P : List (Act χ) → Refs χ → Prop) : Prop :=
  ∃ early s₀, LookedAt e tr c early s₀ ∧ P early s₀

theorem init_unique (s s' : Refs χ) (h : (lts e).init s) (h' : (lts e).init s') : s = s' := h.trans h'.symm

theorem LookedAt.unique {c : χ} {early early' : List (Act χ)} {s₀ s₁ : Refs χ} (h : LookedAt e tr c early s₀)
    (h' : LookedAt e tr c early' s₁) : early = early' ∧ s₀ = s₁ := by
  obtain rfl : early = early' := Option.some.inj (h.1.symm.trans h'.1)
  exact ⟨rfl, h.2.unique init_unique h'.2⟩

/-- While nothing happens that changes what `process_accept` saw, what it saw is the same. -/
theorem lookedAt_cons {a : Act χ} {c : χ} (ha : ¬ a.Accepts) (hc : ∀ ch rest, a ≠ .collect ch c rest)
    {early : List (Act χ)} {s₀ : Refs χ} : LookedAt e (a :: tr) c early s₀ ↔ LookedAt e tr c early s₀ := by
  have hlook : lastLook c (a :: tr) = lastLook c tr := by
    cases a with
    | collect ch c' rest =>
        have hne : c' ≠ c := by
          rintro rfl
          exact hc ch rest rfl
        rw [lastLook, if_neg hne]
    | accept c' fd others => rw [lastLook, if_neg (show ¬ fd < maxPollFds from ha)]
    | _ => rfl
  rw [LookedAt, LookedAt, hlook]

/-! ## References to a dead connection -/

/-- A dispatch that has no reference to its connection has forgotten it. -/
def Forgot (e : Env χ) (tr : List (Act χ)) (s : Refs χ) : Prop :=
  ∀ w c, (s.srv.workers w).conn = some c → (s.srv.workers w).held = none → 0 < forgotten e tr c

theorem Forgot.step {a : Act χ} (h : Forgot e tr s) (hg : guard e s a) : Forgot e (a :: tr) (s.next e a) := by
  intro w c hc hheld
  rw [forgotten_cons]
  cases ha : srvAct a with
  | none =>
      have hs : (s.next e a).srv = s.srv := (srv_component e).stays s a hg ha
      rw [hs] at hc hheld
      have := h w c hc hheld
      omega
  | some b =>
      have hs : (s.next e a).srv = s.srv.next e b := ((srv_component e).moves s a b hg ha).2
      rw [hs] at hc hheld
      rcases Rpcs.held_next e s.srv b with hw | ⟨w', p, hw, hp⟩
      · rw [hw] at hc hheld
        have := h w c hc hheld
        omega
      · rw [hw] at hc hheld
        by_cases hww : w = w'
        · subst hww
          rw [Function.update_self] at hc hheld
          rcases hp with hp | ⟨c', b', q, rfl, hq, hold, hc'⟩
          · rw [← hp, hheld] at hc
            cases hc
          · obtain rfl : c' = c := Option.some.inj (hc'.symm.trans hc)
            have hf : forgets e a = some c' := by
              cases a with
              | begin w j =>
                  cases ha
                  simp only [forgets, hq, if_pos hold]
              | other a =>
                  cases ha
                  exact hg.2.2.elim
              | _ => cases ha
            rw [hf, Holders.one_self]
            omega
        · rw [Function.update_of_ne hww] at hc hheld
          have := h w c hc hheld
          omega

theorem forgot_of_run (h : (lts e).Run tr s) : Forgot e tr s := by
  refine h.invariant (I := Forgot e) ?_ fun _ _ _ _ hi hg => hi.step hg
  rintro s rfl w c hc
  cases hc

/-- A dead connection that no dispatch uses has one reference if `rpcs::conns_` has none to it and no dispatch
has forgotten one. One that a dispatch uses has more. A job that was taken back had a reference too many taken
away. -/
theorem refno_at_look (h : (lts e).Run tr s) {ch c : χ} {rest : List χ} (hg : guard e s (.collect ch c rest)) :
    (¬ s.Busy c → (s.refno c = 1 ↔ s.srv.pointers c + forgotten e tr c = takenFrom tr c)) ∧
      (s.Busy c → takenFrom tr c = 0 → s.refno c ≠ 1) := by
  have hl := lists_of_run h
  obtain ⟨H, hidle, heven⟩ := balanced_of_run h hg.1.1
  have hrefs := (heven c).refno
  have hentry : s.entries c = 1 := entries_listed h ((hl.rest _ hg.2.1).2 c List.mem_cons_self)
  have ho : s.offered c = 0 := by
    rw [offered]
    cases hoff : s.offer with
    | none => rfl
    | some o =>
        rw [Option.bind_some, Offer.held]
        split
        · rfl
        · rw [Holders.one_some, if_neg (hg.2.2 o hoff)]
  rw [claims, hentry, ho] at hrefs
  constructor
  · intro hnb
    have hq : s.queued c = 0 := by
      rw [queued, List.count_eq_zero, List.mem_map]
      exact fun hj => hnb (.inl hj)
    have hw : s.working H c = 0 :=
      Holders.count_eq_zero.mpr fun w _ hheld => hnb (.inr ⟨w, Pc.conn_of_held hheld⟩)
    rw [hq, hw] at hrefs
    omega
  · rintro (⟨j, hj, hjc⟩ | ⟨w, hw⟩) ht
    · have hq : 0 < s.queued c := List.count_pos_iff.mpr (List.mem_map.mpr ⟨j, hj, hjc⟩)
      omega
    · cases hheld : (s.srv.workers w).held with
      | none =>
          have hf := forgot_of_run h w c hw hheld
          omega
      | some c' =>
          obtain rfl : c' = c := Option.some.inj ((Pc.conn_of_held hheld).symm.trans hw)
          have hin : w ∈ H := by
            by_contra hm
            rw [hidle w hm] at hw
            cases hw
          have hle := Holders.one_le_count (f := fun w => (s.srv.workers w).held) c' hin
          simp only [hheld, Holders.one_self] at hle
          have hw : 0 < s.working H c' := hle
          omega

/-! ## What the loop has looked at -/

/-- Every entry of `conns_` that `process_accept` has no more to come to was looked at, and so was the new
connection. What was looked at is still there, unless it was garbage: then the loop has gone down with it. -/
structure Swept (e : Env χ) (tr : List (Act χ)) (s : Refs χ) : Prop where
  listed : ∀ c ∈ s.listed, (∀ sw ∈ s.sweep, c ∉ sw.rest) → ∃ early s₀, LookedAt e tr c early s₀
  ch : ∀ sw ∈ s.sweep, ∃ early s₀, LookedAt e tr sw.ch early s₀
  kept : ∀ c early s₀, LookedAt e tr c early s₀ → ¬ s₀.Garbage c →
    c ∈ s.listed ∨ ∃ sw ∈ s.sweep, sw.ch = c
  lost : ∀ c early s₀, LookedAt e tr c early s₀ → s₀.Garbage c → s.sweep ≠ none ∧ s.aborted = true
  refs : ∀ c early s₀, LookedAt e tr c early s₀ → c ∈ s₀.srv.dead →
    (¬ s₀.Busy c → (s₀.refno c = 1 ↔ s₀.srv.pointers c + forgotten e early c = takenFrom early c)) ∧
      (s₀.Busy c → takenFrom early c = 0 → s₀.refno c ≠ 1)
  crash : s.aborted = true → s.sweep ≠ none → ∃ c early s₀, LookedAt e tr c early s₀ ∧ s₀.Garbage c

theorem Swept.keep {a : Act χ} {s' : Refs χ} (h : Swept e tr s) (ha : ¬ a.Accepts)
    (hc : ∀ ch c rest, a ≠ .collect ch c rest) (hl : s'.listed = s.listed) (hs : s'.sweep = s.sweep)
    (hrun : s.aborted = false) (hab : s'.aborted = true → s'.sweep = none) : Swept e (a :: tr) s' where
  listed c hcl hsw := by
    simp only [lookedAt_cons ha (hc · c)]
    exact h.listed c (hl ▸ hcl) (hs ▸ hsw)
  ch sw hsw := by
    simp only [lookedAt_cons ha (hc · sw.ch)]
    exact h.ch sw (hs ▸ hsw)
  kept c early s₀ hlook := by
    rw [hl, hs]
    exact h.kept c early s₀ ((lookedAt_cons ha (hc · c)).mp hlook)
  lost c early s₀ hlook hg := by
    have habs := (h.lost c early s₀ ((lookedAt_cons ha (hc · c)).mp hlook) hg).2
    rw [hrun] at habs
    cases habs
  refs c early s₀ hlook := h.refs c early s₀ ((lookedAt_cons ha (hc · c)).mp hlook)
  crash ha hsw := absurd (hab ha) hsw

theorem Swept.accept {c : χ} {fd : Nat} {others : Finset Nat} (h : Swept e tr s) (hr : (lts e).Run tr s)
    (hg : guard e s (.accept c fd others)) :
    Swept e (.accept c fd others :: tr) (s.next e (.accept c fd others)) := by
  have hd : c ∉ s.srv.dead := hg.2.2.2.1
  simp only [next]
  split
  · rename_i hfd
    -- only the new connection counts as looked at
    have hlook : ∀ c' early s₀, LookedAt e (.accept c fd others :: tr) c' early s₀ → c' = c ∧ s₀ = s := by
      rintro c' early s₀ ⟨hl, hr'⟩
      rw [lastLook, if_pos hfd] at hl
      split at hl
      · rename_i heq
        cases hl
        exact ⟨heq.symm, hr'.unique init_unique hr⟩
      · cases hl
    refine ⟨fun c' hc' hsw => absurd hc' (hsw _ rfl), ?_, fun c' early s₀ hl _ => ?_, fun c' early s₀ hl hgb => ?_,
      fun c' early s₀ hl hdead => ?_, fun hab => ?_⟩
    · rintro _ ⟨⟩
      exact ⟨tr, s, by rw [lastLook, if_pos hfd, if_pos rfl], hr⟩
    · exact .inr ⟨_, rfl, (hlook c' early s₀ hl).1.symm⟩
    · obtain ⟨rfl, rfl⟩ := hlook c' early s₀ hl
      exact absurd hgb.1 hd
    · obtain ⟨rfl, rfl⟩ := hlook c' early s₀ hl
      exact absurd hdead hd
    · rw [hg.1.2] at hab
      cases hab
  · rename_i hfd
    exact h.keep hfd (fun _ _ _ h => by cases h) rfl rfl hg.1.2 fun _ => hg.2.1

theorem Swept.collect {ch c : χ} {rest : List χ} (h : Swept e tr s) (hr : (lts e).Run tr s)
    (hg : guard e s (.collect ch c rest)) :
    Swept e (.collect ch c rest :: tr) (s.next e (.collect ch c rest)) := by
  have hsw := hg.2.1
  have hl := lists_of_run hr
  have hcl : c ∈ s.listed := (hl.rest _ hsw).2 c List.mem_cons_self
  have hch : c ≠ ch := fun heq => (hl.ch _ hsw).1 (heq ▸ hcl)
  have hnow : LookedAt e (.collect ch c rest :: tr) c tr s := ⟨by rw [lastLook, if_pos rfl], hr⟩
  have hold : ∀ c', c ≠ c' → ∀ early s₀, LookedAt e (.collect ch c rest :: tr) c' early s₀ ↔
      LookedAt e tr c' early s₀ := fun c' hne _ _ => lookedAt_cons id fun _ _ heq => hne (Act.collect.inj heq).2.1
  have hnew : ∃ early s₀, LookedAt e (.collect ch c rest :: tr) ch early s₀ := by
    simp only [hold ch hch]
    exact h.ch _ hsw
  have hlisted : ∀ c' ∈ s.listed, c' ∉ rest → ∃ early s₀, LookedAt e (.collect ch c rest :: tr) c' early s₀ := by
    intro c' hc' hrest
    by_cases hne : c = c'
    · exact ⟨tr, s, hne ▸ hnow⟩
    · simp only [hold c' hne]
      refine h.listed c' hc' fun sw hs hm => ?_
      rw [hsw] at hs
      cases hs
      exact (List.mem_cons.mp hm).elim (Ne.symm hne) hrest
  have hkept : ∀ c' early s₀, LookedAt e (.collect ch c rest :: tr) c' early s₀ → c ≠ c' → ¬ s₀.Garbage c' →
      c' ∈ s.listed ∨ ch = c' := by
    intro c' early s₀ hlook hne hng
    refine (h.kept c' early s₀ ((hold c' hne _ _).mp hlook) hng).imp_right ?_
    rintro ⟨sw, hs, heq⟩
    rw [hsw] at hs
    cases hs
    exact heq
  have hrefs : ∀ c' early s₀, LookedAt e (.collect ch c rest :: tr) c' early s₀ → c' ∈ s₀.srv.dead →
      (¬ s₀.Busy c' → (s₀.refno c' = 1 ↔ s₀.srv.pointers c' + forgotten e early c' = takenFrom early c')) ∧
        (s₀.Busy c' → takenFrom early c' = 0 → s₀.refno c' ≠ 1) := by
    intro c' early s₀ hlook hdead
    by_cases hne : c = c'
    · subst hne
      obtain ⟨rfl, rfl⟩ := hlook.unique hnow
      exact refno_at_look hr hg
    · exact h.refs c' early s₀ ((hold c' hne _ _).mp hlook) hdead
  have hlost : ∀ c' early s₀, LookedAt e (.collect ch c rest :: tr) c' early s₀ → s₀.Garbage c' → c = c' := by
    intro c' early s₀ hlook hgb
    by_contra hne
    have habs := (h.lost c' early s₀ ((hold c' hne _ _).mp hlook) hgb).2
    rw [hg.1.2] at habs
    cases habs
  simp only [next]
  split
  · rename_i hgb
    refine ⟨fun c' hc' hs => hlisted c' (List.mem_of_mem_erase hc') (hs _ rfl), ?_, fun c' early s₀ hlook hng => ?_,
      fun _ _ _ _ _ => ⟨Option.some_ne_none _, rfl⟩, hrefs, fun _ _ => ⟨c, tr, s, hnow, hgb⟩⟩
    · rintro _ ⟨⟩
      exact hnew
    · have hne : c ≠ c' := by
        rintro rfl
        obtain ⟨rfl, rfl⟩ := hlook.unique hnow
        exact hng hgb
      refine (hkept c' early s₀ hlook hne hng).imp (fun hm => (List.mem_erase_of_ne (Ne.symm hne)).mpr hm) ?_
      exact fun heq => ⟨_, rfl, heq⟩
  · rename_i hgb
    refine ⟨fun c' hc' hs => hlisted c' hc' (hs _ rfl), ?_, fun c' early s₀ hlook hng => ?_,
      fun c' early s₀ hlook hgb' => ?_, hrefs, fun hab => ?_⟩
    · rintro _ ⟨⟩
      exact hnew
    · by_cases hne : c = c'
      · exact .inl (hne ▸ hcl)
      · exact (hkept c' early s₀ hlook hne hng).imp_right fun heq => ⟨_, rfl, heq⟩
    · obtain rfl := hlost c' early s₀ hlook hgb'
      obtain ⟨rfl, rfl⟩ := hlook.unique hnow
      exact absurd hgb' hgb
    · rw [hg.1.2] at hab
      cases hab

theorem Swept.enlist {ch : χ} (h : Swept e tr s) (hg : guard e s (.enlist ch)) :
    Swept e (.enlist ch :: tr) (s.next e (.enlist ch)) := by
  have hsw := hg.2
  have hlook : ∀ {c early s₀}, LookedAt e (.enlist ch :: tr) c early s₀ ↔ LookedAt e tr c early s₀ :=
    fun {_ _ _} => lookedAt_cons id fun _ _ h => by cases h
  refine ⟨fun c hc _ => ?_, fun sw hs => (by cases hs), fun c early s₀ hl hng => .inl ?_, fun c early s₀ hl hgb => ?_,
    fun c early s₀ hl => h.refs c early s₀ (hlook.mp hl), fun hab => ?_⟩
  · simp only [hlook]
    rcases List.mem_cons.mp hc with rfl | hc
    · exact h.ch _ hsw
    · refine h.listed c hc fun sw hs => ?_
      rw [hsw] at hs
      cases hs
      exact List.not_mem_nil
  · rcases h.kept c early s₀ (hlook.mp hl) hng with hm | ⟨sw, hs, rfl⟩
    · exact List.mem_cons_of_mem _ hm
    · rw [hsw] at hs
      cases hs
      exact List.mem_cons_self
  · have habs := (h.lost c early s₀ (hlook.mp hl) hgb).2
    rw [hg.1.2] at habs
    cases habs
  · rw [show ((s.next e (.enlist ch)).aborted) = s.aborted from rfl, hg.1.2] at hab
    cases hab

theorem swept_of_run (h : (lts e).Run tr s) : Swept e tr s := by
  refine h.invariant (I := Swept e) ?_ ?_
  · rintro s rfl
    exact ⟨fun c hc => (by cases hc), fun sw hsw => (by cases hsw), fun c early s₀ hl => (by cases hl.1),
      fun c early s₀ hl => (by cases hl.1), fun c early s₀ hl => (by cases hl.1), fun hab => (by cases hab)⟩
  · intro tr s a hr hi hg
    have hrun : s.aborted = false := hg.1.2
    have hab : ∀ s' : Refs χ, s'.aborted = s.aborted → s'.aborted = true → s'.sweep = none := by
      intro s' heq habs
      rw [heq, hrun] at habs
      cases habs
    cases a with
    | accept c fd others => exact hi.accept hr hg
    | collect ch c rest => exact hi.collect hr hg
    | enlist ch => exact hi.enlist hg
    | begin w j =>
        obtain ⟨r, d, hb, -⟩ := begin_frame e s w j
        rw [show (lts e).next s (.begin w j) = s.begin e w j from rfl, hb]
        exact hi.keep id (fun _ _ _ h => by cases h) rfl rfl hrun (hab _ rfl)
    | other a =>
        obtain ⟨r, d, hb, -⟩ := refs_frame e s a
        rw [show (lts e).next s (.other a) = { s.refs e a with srv := s.srv.next e a } from rfl, hb]
        exact hi.keep id (fun _ _ _ h => by cases h) rfl rfl hrun (hab _ rfl)
    | gotPdu c b =>
        refine hi.keep id (fun _ _ _ h => by cases h) ?_ ?_ hrun (hab _ ?_) <;> simp only [lts, next] <;>
          split <;> rfl
    | look j succ reach =>
        refine hi.keep id (fun _ _ _ h => by cases h) ?_ ?_ hrun (hab _ ?_) <;> simp only [lts, next] <;>
          split <;> rfl
    | setReachable r => exact hi.keep id (fun _ _ _ h => by cases h) rfl rfl hrun (hab _ rfl)
    | addObjJob j succ => exact hi.keep id (fun _ _ _ h => by cases h) rfl rfl hrun (hab _ rfl)

theorem fds_length (h : (lts e).Run tr s) (hsw : s.sweep = none) : s.fds.length ≤ s.listed.length := by
  have hl := lists_of_run h
  rw [fds, List.length_map]
  refine (List.subperm_of_subset (hl.distinct.filter _) fun c hc => ?_).length_le
  obtain ⟨hk, hd⟩ := List.mem_filter.mp hc
  rcases hl.opened c hk (of_decide_eq_true hd) with hin | ⟨sw, hs, -⟩
  · exact hin
  · rw [hsw] at hs
    cases hs

/-- The kernel gives a descriptor that is too large only if so many are open. -/
theorem fds_full {c : χ} {fd : Nat} {others : Finset Nat} (hg : guard e s (.accept c fd others))
    (hfd : maxPollFds ≤ fd) : maxPollFds ≤ others.card + s.fds.length := by
  have hsub : Finset.range maxPollFds ⊆ others ∪ s.fds.toFinset := fun n hn => by
    have hlt : n < fd := Nat.lt_of_lt_of_le (Finset.mem_range.mp hn) hfd
    rcases hg.2.2.2.2.2.2 n hlt with ho | hf
    · exact Finset.mem_union_left _ ho
    · exact Finset.mem_union_right _ (List.mem_toFinset.mpr hf)
  calc maxPollFds = (Finset.range maxPollFds).card := (Finset.card_range _).symm
    _ ≤ (others ∪ s.fds.toFinset).card := Finset.card_le_card hsub
    _ ≤ others.card + s.fds.toFinset.card := Finset.card_union_le _ _
    _ ≤ others.card + s.fds.length := Nat.add_le_add_left (List.toFinset_card_le _) _

/-- Connections that were in use were alive or had a dispatch. -/
theorem live_or_busy (h : (lts e).Run tr s) (hsw : s.sweep = none)
    (huse : ∀ c ∈ s.listed, AtLook e tr c fun _ s₀ => s₀.InUse c) :
    ∃ live busy : List χ, live.Nodup ∧ busy.Nodup ∧ s.fds.length ≤ live.length + busy.length ∧
      (∀ c ∈ live, AtLook e tr c fun _ s₀ => c ∉ s₀.srv.dead) ∧
      ∀ c ∈ busy, AtLook e tr c fun _ s₀ => s₀.Busy c := by
  classical
  have hl := lists_of_run h
  let alive : χ → Prop := fun c => AtLook e tr c fun _ s₀ => c ∉ s₀.srv.dead
  refine ⟨s.listed.filter fun c => alive c, s.listed.filter fun c => ¬ alive c, hl.nodup.filter _,
    hl.nodup.filter _, ?_, fun c hc => ?_, fun c hc => ?_⟩
  · have hlen := List.length_eq_length_filter_add (l := s.listed) fun c => decide (alive c)
    have hfds := fds_length h hsw
    simp only [decide_not]
    omega
  · exact of_decide_eq_true (List.mem_filter.mp hc).2
  · obtain ⟨hc, hdead⟩ := List.mem_filter.mp hc
    have hdead : ¬ alive c := of_decide_eq_true hdead
    obtain ⟨early, s₀, hlook, hal | hb⟩ := huse c hc
    · exact absurd ⟨early, s₀, hlook, hal⟩ hdead
    · exact ⟨early, s₀, hlook, hb⟩

/-- A `process_accept` ends, and the connections in `conns_` were in use when it looked at them, if and only if
there was nothing to collect: it goes down with what it collects, and keeps a dead connection that no dispatch
uses if `rpcs::conns_` has it or a reference to it was forgotten. Then so few descriptors are open, and the
assertion of `add_callback` fails only if so many are. -/
theorem dead_reclaimed (h : (lts e).Run tr s) (hend : s.sweep = none ∨ s.aborted = true) :
    ((s.sweep = none ∧ ∀ c ∈ s.listed, AtLook e tr c fun _ s₀ => s₀.InUse c) ↔
      ∀ c early s₀, LookedAt e tr c early s₀ → s₀.Spared c) ∧
    (∀ c early s₀, LookedAt e tr c early s₀ → c ∈ s₀.srv.dead →
      (¬ s₀.Busy c → if s₀.srv.pointers c + forgotten e early c = takenFrom early c
        then s.sweep ≠ none ∧ s.aborted = true else c ∈ s.listed ∨ ∃ sw ∈ s.sweep, sw.ch = c) ∧
      (s₀.Busy c → takenFrom early c = 0 → s₀.Spared c)) ∧
    (s.sweep = none → (∀ c ∈ s.listed, AtLook e tr c fun _ s₀ => s₀.InUse c) →
      ∃ live busy : List χ, live.Nodup ∧ busy.Nodup ∧ s.fds.length ≤ live.length + busy.length ∧
        (∀ c ∈ live, AtLook e tr c fun _ s₀ => c ∉ s₀.srv.dead) ∧
        ∀ c ∈ busy, AtLook e tr c fun _ s₀ => s₀.Busy c) ∧
    ∀ c fd others, guard e s (.accept c fd others) → maxPollFds ≤ fd →
      maxPollFds ≤ others.card + s.fds.length := by
  have hswept := swept_of_run h
  refine ⟨⟨?_, fun hsp => ?_⟩, fun c early s₀ hlook hd => ⟨fun hnb => ?_, fun hb ht _ => ?_⟩, live_or_busy h,
    fun c fd others hg => fds_full hg⟩
  · rintro ⟨hsw, huse⟩ c early s₀ hlook
    have hng : ¬ s₀.Garbage c := fun hg => (hswept.lost c early s₀ hlook hg).1 hsw
    have hc : c ∈ s.listed := by
      refine (hswept.kept c early s₀ hlook hng).resolve_right ?_
      rintro ⟨sw, hs, -⟩
      rw [hsw] at hs
      cases hs
    obtain ⟨early', s₁, hlook', hin⟩ := huse c hc
    obtain ⟨rfl, rfl⟩ := hlook.unique hlook'
    exact hin.spared hng
  · have hsw : s.sweep = none := by
      refine hend.elim id fun hab => ?_
      by_contra hne
      obtain ⟨c, early, s₀, hlook, hg⟩ := hswept.crash hab hne
      exact (hsp c early s₀ hlook).not_garbage hg
    refine ⟨hsw, fun c hc => ?_⟩
    obtain ⟨early, s₀, hlook⟩ := hswept.listed c hc fun sw hs => by
      rw [hsw] at hs
      cases hs
    exact ⟨early, s₀, hlook, (hsp c early s₀ hlook).inUse⟩
  · have hone := (hswept.refs c early s₀ hlook hd).1 hnb
    split
    · rename_i heq
      exact hswept.lost c early s₀ hlook ⟨hd, hone.mpr heq⟩
    · rename_i hne
      exact hswept.kept c early s₀ hlook fun hg => hne (hone.mp hg.2)
  · exact ⟨hb, (hswept.refs c early s₀ hlook hd).2 hb ht⟩

open Lone

/-- A dead connection with a job in the queue stays while another is accepted. -/
theorem dead_reclaimed_queued : ∃ tr s, (lts env).Run tr s ∧ s.sweep = none ∧ s.listed = [1, 0] ∧
    0 ∈ s.srv.dead ∧ ∀ c ∈ s.listed, AtLook env tr c fun _ s₀ => s₀.InUse c := by
  let early : List (Act Nat) := arrive 0 0 ++ queue 0 0 (req 7) ++ [.other (.die 0)]
  obtain ⟨s₀, hr₀, hs₀⟩ := Lts.run_of_exec (M := lts env) (s := init) (l := early)
    (f := fun s => decide (1 ∉ s.srv.dead)) rfl (by decide +kernel)
  obtain ⟨s₁, hr₁, hs₁⟩ := Lts.run_of_exec (M := lts env) (s := init) (l := early ++ [.accept 1 1 ∅])
    (f := fun s => decide (s.jobs = [job 0 0 (req 7)] ∧ s.refno 0 = 2)) rfl (by decide +kernel)
  obtain ⟨hj, h2⟩ := of_decide_eq_true hs₁
  obtain ⟨s, hr, hs⟩ := Lts.run_of_exec (M := lts env) (s := init)
    (l := early ++ [.accept 1 1 ∅, .collect 1 0 [], .enlist 1])
    (f := fun s => decide (s.sweep = none ∧ s.listed = [1, 0] ∧ 0 ∈ s.srv.dead)) rfl (by decide +kernel)
  obtain ⟨hsw, hl, hd⟩ := of_decide_eq_true hs
  refine ⟨_, s, hr, hsw, hl, hd, ((dead_reclaimed hr (.inl hsw)).1.mpr fun c early' s' hlook => ?_).2⟩
  by_cases h0 : c = 0
  · subst h0
    obtain ⟨rfl, rfl⟩ := hlook.unique ⟨rfl, hr₁⟩
    exact fun _ => ⟨.inl ⟨_, hj ▸ List.mem_singleton_self _, rfl⟩, by rw [h2]; decide⟩
  · by_cases h1 : c = 1
    · subst h1
      obtain ⟨rfl, rfl⟩ := hlook.unique ⟨rfl, hr₀⟩
      exact fun hdead => absurd hdead (of_decide_eq_true hs₀)
    · have hnone : ∀ l : List (Act Nat), lastLook c (.enlist 1 :: .collect 1 0 [] :: .accept 1 1 ∅ :: l) = none :=
        fun l => by simp [lastLook, maxPollFds, Ne.symm h0, Ne.symm h1]
      have habs := hlook.1
      rw [show List.reverse _ = .enlist 1 :: .collect 1 0 [] :: .accept 1 1 ∅ :: early.reverse from rfl,
        hnone] at habs
      cases habs

theorem not_inUse_of_quiet {early : List (Act χ)} {s₀ : Refs χ} {c : χ} (hl : LookedAt e tr c early s₀)
    (hq : Quiet s₀) (hd : c ∈ s₀.srv.dead) : ¬ AtLook e tr c fun _ s₀ => s₀.InUse c := by
  rintro ⟨early', s₁, hl', huse⟩
  obtain ⟨rfl, rfl⟩ := hl.unique hl'
  exact huse.elim (fun hal => hal hd) (hq.not_busy c)

/-- A client departs. Its connection stays if it was bound to an earlier instance of the server, by the
reference that its dispatch forgot, and if it was served, by the one of `rpcs::conns_`. If it made no call, the
next `process_accept` does not end. -/
theorem dead_kept :
    (∃ tr s, (lts env).Run tr s ∧ s.sweep = none ∧ 0 ∈ s.listed ∧ s.srv.pointers 0 = 0 ∧
      ¬ AtLook env tr 0 fun _ s₀ => s₀.InUse 0) ∧
    (∃ tr s, (lts env).Run tr s ∧ s.sweep = none ∧ 0 ∈ s.listed ∧ s.srv.pointers 0 = 1 ∧
      ¬ AtLook env tr 0 fun _ s₀ => s₀.InUse 0) ∧
    ∃ tr s, (lts env).Run tr s ∧ s.sweep ≠ none ∧ s.aborted = true ∧ s.made = 0 := by
  refine ⟨?_, ?_, ?_⟩
  · let j : Job Nat := ⟨0, req 9⟩
    let served : List (Act Nat) := arrive 0 0 ++ queue 0 0 (req 9) ++
      [.begin 0 (job 0 0 (req 9)), .other (.txReply 0 j (j.reply RpcConst.oldsrvFailure []) true),
        .other (.die 0), .accept 1 1 ∅]
    obtain ⟨s₀, hr₀, hs₀⟩ := Lts.run_of_exec (M := (lts env).restrict fun _ a => Within 1 a) (s := init)
      (l := served)
      (f := fun s => decide ((s.offer = none ∧ s.jobs = [] ∧ ∀ w ∈ List.range 1, s.srv.workers w = .idle) ∧
        0 ∈ s.srv.dead)) rfl (by decide +kernel)
    obtain ⟨⟨ho, hj, hw⟩, hdead⟩ := of_decide_eq_true hs₀
    obtain ⟨s, hr, hs⟩ := Lts.run_of_exec (M := lts env) (s := init)
      (l := served ++ [.collect 1 0 [], .enlist 1])
      (f := fun s => decide (s.sweep = none ∧ 0 ∈ s.listed ∧ s.srv.pointers 0 = 0)) rfl (by decide +kernel)
    obtain ⟨hsw, hl, hp⟩ := of_decide_eq_true hs
    exact ⟨_, s, hr, hsw, hl, hp,
      not_inUse_of_quiet ⟨rfl, hr₀.of_restrict⟩ (quiet_of_run hr₀ ho hj hw) hdead⟩
  · let served : List (Act Nat) :=
      arrive 0 0 ++ queue 0 0 (req 7) ++ dispatch 0 0 0 (req 7) 0 ++ [.other (.die 0), .accept 1 1 ∅]
    obtain ⟨s₀, hr₀, hs₀⟩ := Lts.run_of_exec (M := (lts env).restrict fun _ a => Within 1 a) (s := init)
      (l := served)
      (f := fun s => decide ((s.offer = none ∧ s.jobs = [] ∧ ∀ w ∈ List.range 1, s.srv.workers w = .idle) ∧
        0 ∈ s.srv.dead)) rfl (by decide +kernel)
    obtain ⟨⟨ho, hj, hw⟩, hdead⟩ := of_decide_eq_true hs₀
    obtain ⟨s, hr, hs⟩ := Lts.run_of_exec (M := lts env) (s := init)
      (l := served ++ [.collect 1 0 [], .enlist 1])
      (f := fun s => decide (s.sweep = none ∧ 0 ∈ s.listed ∧ s.srv.pointers 0 = 1)) rfl (by decide +kernel)
    obtain ⟨hsw, hl, hp⟩ := of_decide_eq_true hs
    exact ⟨_, s, hr, hsw, hl, hp,
      not_inUse_of_quiet ⟨rfl, hr₀.of_restrict⟩ (quiet_of_run hr₀ ho hj hw) hdead⟩
  · obtain ⟨s, hr, hs⟩ := Lts.run_of_exec (M := lts env) (s := init)
      (l := arrive 0 0 ++ [.other (.die 0), .accept 1 1 ∅, .collect 1 0 []])
      (f := fun s => decide (s.sweep ≠ none ∧ s.aborted = true ∧ s.made = 0)) rfl (by decide +kernel)
    exact ⟨_, s, hr, of_decide_eq_true hs⟩

end Refs
end StanDfs
