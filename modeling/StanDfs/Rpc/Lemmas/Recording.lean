import StanDfs.Rpc.Lemmas.Once

/-!
# Which replies are recorded

A call whose handler runs, or has returned without its reply recorded yet, is with one worker. The table
has no reply of such a call, and it has no reply that was not recorded.
-/

namespace StanDfs

/-- The job whose handler runs, or whose reply is not recorded yet. -/
def Pc.busy {χ : Type*} : Pc χ → Option (Job χ)
  | .running j | .record j _ => some j
  | _ => none

/-- The call whose handler has returned and whose reply is not recorded yet. -/
def Pc.returned {χ : Type*} : Pc χ → Option (UInt32 × UInt32)
  | .record j _ => some j.key
  | _ => none

namespace Rpcs

variable {χ : Type*} {e : Env χ} {s : Rpcs χ}

structure Recording (s : Rpcs χ) : Prop where
  busy : ∀ w j, (s.workers w).busy = some j → j.nonce ≠ 0 → j.key ∉ s.recorded.map Prod.fst
  apart : ∀ w w' j j', w ≠ w' → (s.workers w).busy = some j → (s.workers w').busy = some j' →
    j.nonce ≠ 0 → j.key ≠ j'.key
  table : ∀ n, ∀ en ∈ s.table.replies n, en.sz ≠ -1 →
    ∃ b, en.buf = some b ∧ ((n, en.xid), b) ∈ s.recorded
  pending : ∀ n, ∀ en ∈ s.table.replies n, en.sz = -1 → en.buf = none
  execs : ∀ r ∈ s.recorded, ∃ j ∈ s.execs, j.key = r.1 ∧ j.nonce ≠ 0

theorem recording_init : Recording (init : Rpcs χ) where
  busy w j hj := by cases hj
  apart w w' j j' _ hj := by cases hj
  table n en hen := by cases hen
  pending n en hen := by cases hen
  execs r hr := by cases hr

/-- The entry of a call that a worker is busy with has no buffer. -/
theorem Recording.pending_of_busy {w : Worker} {j : Job χ} (h : Recording s) (hn : j.nonce ≠ 0)
    (hw : (s.workers w).busy = some j) :
    ∀ en ∈ s.table.replies j.nonce, en.xid = j.xid → en.buf = none := by
  intro en hen hx
  by_cases hsz : en.sz = -1
  · exact h.pending _ en hen hsz
  · obtain ⟨b, _, hmem⟩ := h.table _ en hen hsz
    rw [hx] at hmem
    exact absurd (List.mem_map.mpr ⟨_, hmem, rfl⟩) (h.busy w j hw hn)

theorem Recording.setWorker {w : Worker} {p : Pc χ} (h : Recording s)
    (hp : ∀ j, p.busy = some j → (s.workers w).busy = some j) : Recording (s.setWorker w p) := by
  have hold : ∀ w' j, ((s.setWorker w p).workers w').busy = some j → (s.workers w').busy = some j := by
    intro w' j hj
    by_cases hw : w' = w
    · subst hw
      exact hp j (by simpa [Rpcs.setWorker] using hj)
    · simpa [Rpcs.setWorker, Function.update_of_ne hw] using hj
  exact { h with
    busy := fun w' j hj => h.busy w' j (hold w' j hj)
    apart := fun w₁ w₂ j₁ j₂ hne h₁ h₂ => h.apart w₁ w₂ j₁ j₂ hne (hold w₁ j₁ h₁) (hold w₂ j₂ h₂) }

theorem busy_mem {v : Rpcs χ} {p : Pc χ} {j : Job χ} (h : Ok e v p) (hb : p.busy = some j) :
    j ∈ v.execs := by
  cases p with
  | running j' =>
      cases hb
      exact h
  | record j' b =>
      cases hb
      exact h.1
  | _ => cases hb

theorem Recording.invoke {w : Worker} {j : Job χ} (h : Recording s)
    (hx : ∀ w j, (s.workers w).busy = some j → j ∈ s.execs)
    (hf : ∀ j' ∈ s.execs, j'.nonce ≠ 0 → j'.key ≠ j.key) : Recording (s.invoke w j) where
  busy w' j' hj' hn hrec := by
    by_cases hw : w' = w
    · subst hw
      obtain rfl : j = j' := by simpa [Rpcs.invoke, Rpcs.setWorker, Pc.busy] using hj'
      obtain ⟨r, hr, hrk⟩ := List.mem_map.mp hrec
      obtain ⟨j'', hj'', hk, hn''⟩ := h.execs r hr
      exact hf j'' hj'' hn'' (hk.trans hrk)
    · exact h.busy w' j' (by simpa [Rpcs.invoke, Rpcs.setWorker, Function.update_of_ne hw] using hj')
        hn hrec
  apart w₁ w₂ j₁ j₂ hne h₁ h₂ hn := by
    have hother : ∀ {w' j'}, w' ≠ w → ((s.invoke w j).workers w').busy = some j' →
        (s.workers w').busy = some j' := fun hw hj => by
      simpa [Rpcs.invoke, Rpcs.setWorker, Function.update_of_ne hw] using hj
    have hself : ∀ {j'}, ((s.invoke w j).workers w).busy = some j' → j = j' := fun hj => by
      simpa [Rpcs.invoke, Rpcs.setWorker, Pc.busy] using hj
    by_cases hw₁ : w₁ = w
    · subst hw₁
      obtain rfl := hself h₁
      intro heq
      have hn₂ : j₂.nonce ≠ 0 := by
        rw [← show j.nonce = j₂.nonce from congrArg Prod.fst heq]
        exact hn
      exact hf j₂ (hx w₂ j₂ (hother (Ne.symm hne) h₂)) hn₂ heq.symm
    · by_cases hw₂ : w₂ = w
      · subst hw₂
        obtain rfl := hself h₂
        exact hf j₁ (hx w₁ j₁ (hother hw₁ h₁)) hn
      · exact h.apart w₁ w₂ j₁ j₂ hne (hother hw₁ h₁) (hother hw₂ h₂) hn
  table := h.table
  pending := h.pending
  execs r hr := by
    obtain ⟨j', hj', hk⟩ := h.execs r hr
    exact ⟨j', List.mem_append_left _ hj', hk⟩

theorem Recording.check {w : Worker} {j : Job χ} (h : Recording s) (ho : Once s)
    (hx : ∀ w j, (s.workers w).busy = some j → j ∈ s.execs) : Recording (s.check w j) := by
  unfold Rpcs.check
  split
  · exact { h with }
  · rename_i st t freed hc
    have hck := ReplyTable.checked hc
    have h' : Recording { s with table := t, freed := s.freed ++ freed } :=
      { h with
        table := fun n en hen hsz => by
          rcases hck.of_mem hen with hold | ⟨-, -, rfl⟩
          · exact h.table n en hold hsz
          · exact absurd rfl hsz
        pending := fun n en hen hsz => by
          rcases hck.of_mem hen with hold | ⟨-, -, rfl⟩
          · exact h.pending n en hold hsz
          · rfl }
    cases st with
    | new => exact h'.invoke hx (ho.fresh hck)
    | inprogress => exact h'.setWorker fun j hj => by cases hj
    | done b sz =>
        cases b with
        | none => exact { h' with }
        | some b => exact h'.setWorker fun j hj => by cases hj
    | forgotten => exact h'.setWorker fun j hj => by cases hj

theorem Recording.record {w : Worker} {j : Job χ} {b : Addr} (h : Recording s)
    (hx : ∀ w j, (s.workers w).busy = some j → j ∈ s.execs) (hn : j.nonce ≠ 0)
    (hw : s.workers w = .record j b) : Recording (s.record w j b) := by
  have hb : (s.workers w).busy = some j := by rw [hw]; rfl
  unfold Rpcs.record
  split
  · exact { h with }
  · rename_i t ht
    have hrec := ReplyTable.recorded (by omega) ht
    have h' := h.setWorker (w := w) (p := .choose j b) fun j hj => by cases hj
    refine { h' with
      busy := fun w' j' hj' hn' hmem => ?_
      table := fun n en hen hsz => ?_
      pending := fun n en hen hsz => ?_
      execs := fun r hr => ?_ }
    · rw [List.map_append] at hmem
      rcases List.mem_append.mp hmem with hmem | hmem
      · exact h'.busy w' j' hj' hn' hmem
      · have hk : j'.key = j.key := by simpa using hmem
        by_cases hww : w' = w
        · subst hww
          simp [Rpcs.setWorker, Pc.busy] at hj'
        · have hj'' : (s.workers w').busy = some j' := by
            simpa [Rpcs.setWorker, Function.update_of_ne hww] using hj'
          exact h.apart w' w j' j hww hj'' hb hn' hk
    · rcases hrec.of_mem hen with hold | ⟨rfl, rfl⟩
      · obtain ⟨b', hb', hmem⟩ := h.table n en hold hsz
        exact ⟨b', hb', List.mem_append_left _ hmem⟩
      · exact ⟨b, rfl, List.mem_append_right _ (List.mem_singleton.mpr rfl)⟩
    · rcases hrec.of_mem hen with hold | ⟨rfl, rfl⟩
      · exact h.pending n en hold hsz
      · exact absurd hsz (show ((s.contents b).length : Int) ≠ -1 by omega)
    · rcases List.mem_append.mp hr with hr | hr
      · exact h.execs r hr
      · rw [List.mem_singleton.mp hr]
        exact ⟨j, hx w j hb, rfl, hn⟩

section Step

variable [DecidableEq χ]

theorem Recording.begin {w : Worker} {c : χ} {b : Bytes} (h : Recording s)
    (hx : ∀ w j, (s.workers w).busy = some j → j ∈ s.execs) : Recording (s.begin e w c b) := by
  have h' : Recording { s with jobs := s.jobs.erase (c, b) } := { h with }
  unfold Rpcs.begin
  split
  · exact h'
  · rename_i q _
    simp only
    split
    · exact h'.setWorker fun j hj => by cases hj
    · split
      · exact h'
      · split
        · exact { h'.setWorker (w := w) (p := .seen ⟨c, q⟩) (fun j hj => by cases hj) with }
        · rename_i hn
          exact h'.invoke hx fun j' _ hn' heq => hn fun h0 => hn' ((congrArg Prod.fst heq).trans h0)

theorem Recording.step {a : Act χ} (h : Recording s) (hs : Sourced e s s) (ho : Once s)
    (hg : guard e s a) : Recording (s.next e a) := by
  have hx : ∀ w j, (s.workers w).busy = some j → j ∈ s.execs := fun w j hj =>
    busy_mem (hs.workers w) hj
  cases a with
  | gotPdu c b accept =>
      cases accept with
      | false => exact h
      | true => exact { h with }
  | begin w c b => exact h.begin hx
  | seen w j =>
      have h' := h.setWorker (w := w) (p := .save j) fun j hj => by cases hj
      refine { h' with table := fun n en hen => ?_, pending := fun n en hen => ?_ }
      · have hen : en ∈ (s.table.create j.nonce).replies n := hen
        rw [ReplyTable.replies_create] at hen
        exact h.table n en hen
      · have hen : en ∈ (s.table.create j.nonce).replies n := hen
        rw [ReplyTable.replies_create] at hen
        exact h.pending n en hen
  | save w j => exact { h.setWorker (w := w) (p := .check j) (fun j hj => by cases hj) with }
  | check w j => exact h.check ho hx
  | handled w j ret body =>
      simp only [next, handled]
      split
      · exact { h.setWorker (w := w) (p := .record j s.heap.length) (fun j' hj' => by
          cases hj'
          rw [hg.2.1]
          rfl) with }
      · exact { h.setWorker (w := w) (p := .choose j s.heap.length) (fun j hj => by cases hj) with }
  | record w j b =>
      have hok := hs.workers w
      rw [hg.2] at hok
      exact h.record hx hok.2.1 hg.2
  | choose w j b =>
      simp only [next, choose]
      split
      · exact { h with }
      · exact h.setWorker fun j hj => by cases hj
  | tx w j c b sz ok =>
      exact { h.setWorker (w := w) (p := .sending j c b sz) (fun j hj => by cases hj) with }
  | sent w j c b sz => exact { h.setWorker (w := w) (p := .idle) (fun j hj => by cases hj) with }
  | txReply w j r ok => exact h.setWorker fun j hj => by cases hj
  | die c => exact { h with }

theorem recording_of_run {tr : List (Act χ)} (h : (lts e).Run tr s) : Recording s := by
  refine h.invariant (I := fun _ s => Recording s) ?_ ?_
  · rintro s rfl
    exact recording_init
  · intro tr s a hr hs hg
    exact hs.step (sourced_of_run hr) (once_of_run hr) hg

end Step

/-! ## A handler returns once -/

/-- The result of a call is recorded, or a worker will record it. -/
def Resulted (s : Rpcs χ) : Prop :=
  ∀ r ∈ s.results, r.job.nonce ≠ 0 →
    (∃ w, (s.workers w).returned = some r.job.key) ∨ r.job.key ∈ s.recorded.map Prod.fst

theorem Resulted.setWorker {w : Worker} {p p₀ : Pc χ} (h : Resulted s) (hw : s.workers w = p₀)
    (hp : p₀.returned = none) : Resulted (s.setWorker w p) := by
  intro r hr hn
  refine (h r hr hn).imp_left fun ⟨w', hw'⟩ => ⟨w', ?_⟩
  have hww : w' ≠ w := by
    rintro rfl
    rw [hw, hp] at hw'
    cases hw'
  simpa [Rpcs.setWorker, Function.update_of_ne hww] using hw'

theorem Resulted.handled {w : Worker} {j : Job χ} {ret : Int32} {body : Bytes} (h : Resulted s)
    (hw : s.workers w = .running j) : Resulted (s.handled w j ret body) := by
  have hold : ∀ p : Pc χ, ∀ r ∈ s.results, r.job.nonce ≠ 0 →
      (∃ w', ((s.setWorker w p).workers w').returned = some r.job.key) ∨
        r.job.key ∈ s.recorded.map Prod.fst := fun p => h.setWorker (p := p) hw rfl
  simp only [Rpcs.handled]
  split
  · intro r hr hn
    rcases List.mem_append.mp hr with hr | hr
    · exact hold _ r hr hn
    · obtain rfl := List.mem_singleton.mp hr
      exact .inl ⟨w, by simp [Rpcs.setWorker, Pc.returned]⟩
  · rename_i h0
    intro r hr hn
    rcases List.mem_append.mp hr with hr | hr
    · exact hold _ r hr hn
    · obtain rfl := List.mem_singleton.mp hr
      exact absurd hn h0

theorem Resulted.record {w : Worker} {j : Job χ} {b : Addr} (h : Resulted s)
    (hw : s.workers w = .record j b) : Resulted (s.record w j b) := by
  unfold Rpcs.record
  split
  · exact h
  · intro r hr hn
    rcases h r hr hn with ⟨w', hw'⟩ | hrec
    · by_cases hww : w' = w
      · subst hww
        rw [hw] at hw'
        rw [← Option.some.inj hw']
        exact .inr (by simp)
      · exact .inl ⟨w', by simpa [Rpcs.setWorker, Function.update_of_ne hww] using hw'⟩
    · exact .inr (by simp only [List.map_append]; exact List.mem_append_left _ hrec)

theorem Resulted.check {w : Worker} {j : Job χ} (h : Resulted s) (hw : s.workers w = .check j) :
    Resulted (s.check w j) := by
  unfold Rpcs.check
  split
  · exact h
  · rename_i st t freed _
    have h' : Resulted { s with table := t, freed := s.freed ++ freed } := h
    cases st with
    | new => exact h'.setWorker hw rfl
    | inprogress => exact h'.setWorker hw rfl
    | done b sz =>
        cases b with
        | none => exact h'
        | some b => exact h'.setWorker hw rfl
    | forgotten => exact h'.setWorker hw rfl

theorem Resulted.begin [DecidableEq χ] {w : Worker} {c : χ} {b : Bytes} (h : Resulted s)
    (hw : s.workers w = .idle) : Resulted (s.begin e w c b) := by
  have hset : ∀ p : Pc χ, Resulted (Rpcs.setWorker { s with jobs := s.jobs.erase (c, b) } w p) :=
    fun p => Resulted.setWorker (s := { s with jobs := s.jobs.erase (c, b) }) h hw rfl
  unfold Rpcs.begin
  split
  · exact h
  · simp only
    split
    · exact hset _
    · split
      · exact h
      · split
        · exact hset _
        · exact hset _

theorem Resulted.step [DecidableEq χ] {a : Act χ} (h : Resulted s) (hg : guard e s a) :
    Resulted (s.next e a) := by
  cases a with
  | gotPdu c b accept => cases accept <;> exact h
  | begin w c b => exact h.begin hg.2.1
  | seen w j => exact h.setWorker (p := .save j) hg.2 rfl
  | save w j => exact h.setWorker (p := .check j) hg.2 rfl
  | check w j => exact h.check hg.2
  | handled w j ret body => exact h.handled hg.2.1
  | record w j b => exact h.record hg.2
  | choose w j b =>
      simp only [next, choose]
      split
      · exact h
      · exact h.setWorker hg.2 rfl
  | tx w j c b sz ok => exact h.setWorker (p := .sending j c b sz) hg.2.1 rfl
  | sent w j c b sz => exact h.setWorker (p := .idle) hg.2 rfl
  | txReply w j r ok => exact h.setWorker hg.2.1 rfl
  | die c => exact h

theorem not_resulted_of_running [DecidableEq χ] {tr : List (Act χ)} (h : (lts e).Run tr s) {w : Worker}
    {j : Job χ} (hw : s.workers w = .running j) (hn : j.nonce ≠ 0) :
    ∀ r ∈ s.results, r.job.key ≠ j.key := by
  have hres : Resulted s := by
    refine h.invariant (I := fun _ s => Resulted s) ?_ ?_
    · rintro s rfl r hr
      cases hr
    · intro tr s a _ hs hg
      exact hs.step hg
  have hrec := recording_of_run h
  intro r hr heq
  have hn' : r.job.nonce ≠ 0 := by
    rw [show r.job.nonce = j.nonce from congrArg Prod.fst heq]
    exact hn
  rcases hres r hr hn' with ⟨w', hw'⟩ | hmem
  · cases hp : s.workers w' with
    | record j' b =>
        rw [hp] at hw'
        have hk : j'.key = j.key := (Option.some.inj hw').trans heq
        have hne : w' ≠ w := by
          rintro rfl
          rw [hw] at hp
          cases hp
        exact hrec.apart w w' j j' (Ne.symm hne) (by rw [hw]; rfl) (by rw [hp]; rfl) hn hk.symm
    | _ =>
        rw [hp] at hw'
        cases hw'
  · exact hrec.busy w j (by rw [hw]; rfl) hn (heq ▸ hmem)

end Rpcs
end StanDfs
