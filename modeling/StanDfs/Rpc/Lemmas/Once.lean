import StanDfs.Rpc.Lemmas.Sources

/-!
# A server calls the handler of a call once

A call of a client with at-most-once logic is known to the reply table from the moment its handler is
called: its entry is there or the floor is above it. So it is new only once. Without that logic every job
is new, and the handler is called at most once for each PDU that came in.
-/

namespace StanDfs.Rpcs

variable {χ : Type*} {e : Env χ} {s : Rpcs χ}

/-- The worker relies on the list of the job's client. -/
def NeedsList (p : Pc χ) (j : Job χ) : Prop := p = .save j ∨ p = .check j

/-- What the reply table knows about the handlers called. -/
structure Once (s : Rpcs χ) : Prop where
  distinct : s.table.Distinct
  known : ∀ j ∈ s.execs, j.nonce ≠ 0 → s.table.Known j.nonce j.xid
  once : s.execs.Pairwise fun j j' => j.nonce ≠ 0 → j.key ≠ j'.key
  present : ∀ w j, NeedsList (s.workers w) j → s.table.Present j.nonce

theorem once_init : Once (init : Rpcs χ) where
  distinct n := List.nodup_nil
  known j hj := by cases hj
  once := List.Pairwise.nil
  present w j hj := by rcases hj with hj | hj <;> cases hj

theorem present_setWorker {t : ReplyTable} {p : Pc χ}
    (h : ∀ w j, NeedsList (s.workers w) j → t.Present j.nonce) (w : Worker)
    (hp : ∀ j, NeedsList p j → t.Present j.nonce) :
    ∀ w' j, NeedsList ((s.setWorker w p).workers w') j → t.Present j.nonce :=
  forall_setWorker (P := fun p => ∀ j, NeedsList p j → t.Present j.nonce) h hp

theorem not_needsList_running {j j' : Job χ} : ¬ NeedsList (.running j) j' := by
  rintro (h | h) <;> cases h

/-- A worker moves to a place where it does not need the list of its client. -/
theorem Once.setWorker {p : Pc χ} (h : Once s) (w : Worker) (hp : ∀ j, ¬ NeedsList p j) :
    Once (s.setWorker w p) :=
  { h with present := present_setWorker h.present w fun j hj => absurd hj (hp j) }

theorem Once.invoke {j : Job χ} (h : Once s) (w : Worker)
    (hk : j.nonce ≠ 0 → s.table.Known j.nonce j.xid)
    (hne : ∀ j' ∈ s.execs, j'.nonce ≠ 0 → j'.key ≠ j.key) : Once (s.invoke w j) :=
  { h with
    known := fun j' hj' hn => by
      rcases List.mem_append.mp hj' with hj' | hj'
      · exact h.known j' hj' hn
      · obtain rfl := List.mem_singleton.mp hj'
        exact hk hn
    once := by
      refine List.pairwise_append.mpr ⟨h.once, List.pairwise_singleton _ _, fun j₁ h₁ j₂ h₂ => ?_⟩
      obtain rfl := List.mem_singleton.mp h₂
      exact hne j₁ h₁
    present := present_setWorker h.present w fun j hj => absurd hj not_needsList_running }

theorem Once.fresh {j : Job χ} {t : ReplyTable} {freed : List Addr} (h : Once s)
    (hc : ReplyTable.Checked s.table j.nonce j.xid j.xidRep .new t freed) :
    ∀ j' ∈ s.execs, j'.nonce ≠ 0 → j'.key ≠ j.key := by
  intro j' hj' hn heq
  have hk := h.known j' hj' hn
  obtain ⟨h₁, h₂⟩ := Prod.mk.inj heq
  rw [h₁, h₂] at hk
  exact hc.not_known hk

theorem Once.check {w : Worker} {j : Job χ} (h : Once s) : Once (s.check w j) := by
  unfold Rpcs.check
  split
  · exact { h with }
  · rename_i st t freed hc
    have hck := ReplyTable.checked hc
    have h' : Once { s with table := t, freed := s.freed ++ freed } :=
      { distinct := hck.distinct h.distinct
        known := fun j hj hn => hck.known_mono (h.known j hj hn)
        once := h.once
        present := fun w j hj => hck.present (h.present w j hj) }
    cases st with
    | new => exact h'.invoke w (fun _ => hck.known) (h.fresh hck)
    | inprogress => exact h'.setWorker w (by rintro j (h | h) <;> cases h)
    | done b sz =>
        cases b with
        | none => exact { h' with }
        | some b => exact h'.setWorker w (by rintro j (h | h) <;> cases h)
    | forgotten => exact h'.setWorker w (by rintro j (h | h) <;> cases h)

theorem answer_frame (s : Rpcs χ) (w : Worker) (j : Job χ) (st : Rpcstate) :
    (s.answer w j st).jobs = s.jobs ∧ (s.answer w j st).received = s.received := by
  cases st with
  | new => exact ⟨rfl, rfl⟩
  | inprogress => exact ⟨rfl, rfl⟩
  | done b sz => cases b <;> exact ⟨rfl, rfl⟩
  | forgotten => exact ⟨rfl, rfl⟩

theorem countP_answer {P : Job χ → Bool} {w : Worker} {j : Job χ} (st : Rpcstate) (hj : P j = false) :
    (s.answer w j st).execs.countP P = s.execs.countP P := by
  cases st with
  | new => simp [answer, invoke, hj]
  | inprogress => rfl
  | done b sz => cases b <;> rfl
  | forgotten => rfl

variable [DecidableEq χ]

theorem Once.begin {w : Worker} {c : χ} {b : Bytes} (h : Once s) : Once (s.begin e w c b) := by
  have h' : Once { s with jobs := s.jobs.erase (c, b) } := { h with }
  unfold Rpcs.begin
  split
  · exact h'
  · rename_i q _
    simp only
    split
    · exact h'.setWorker w (by rintro j (h | h) <;> cases h)
    · split
      · exact h'
      · split
        · exact { h' with
            present := present_setWorker h'.present w (by rintro j (h | h) <;> cases h) }
        · rename_i hn
          exact h'.invoke w (fun hn' => absurd hn' hn) fun j' _ hn' heq =>
            hn fun h0 => hn' ((congrArg Prod.fst heq).trans h0)

theorem Once.step {a : Act χ} (h : Once s) (hg : guard e s a) : Once (s.next e a) := by
  cases a with
  | gotPdu c b accept =>
      cases accept with
      | false => exact h
      | true => exact { h with }
  | begin w c b => exact h.begin
  | seen w j =>
      refine
        { distinct := fun n => ?_
          known := fun j' hj' hn => ReplyTable.known_create _ (h.known j' hj' hn)
          once := h.once
          present := present_setWorker (fun w j hj => (h.present w j hj).create _) w ?_ }
      · show ((ReplyTable.replies (s.table.create j.nonce) n).map ReplyT.xid).Nodup
        rw [ReplyTable.replies_create]
        exact h.distinct n
      · rintro j' (h | h)
        · cases h
          exact ReplyTable.present_create _ _
        · cases h
  | save w j =>
      have hp := h.present w j (.inl hg.2)
      refine { h with present := present_setWorker h.present w ?_ }
      rintro j' (h | h)
      · cases h
      · cases h
        exact hp
  | check w j => exact h.check
  | handled w j ret body =>
      simp only [next, handled]
      split
      · exact { h with present := present_setWorker h.present w (by rintro j (h | h) <;> cases h) }
      · exact { h with present := present_setWorker h.present w (by rintro j (h | h) <;> cases h) }
  | record w j b =>
      simp only [next, record]
      split
      · exact { h with }
      · rename_i t ht
        have hrec := ReplyTable.recorded (by omega) ht
        exact
          { distinct := hrec.distinct h.distinct
            known := fun j hj hn => hrec.known_iff.mpr (h.known j hj hn)
            once := h.once
            present := present_setWorker (fun w j hj => hrec.present _ (h.present w j hj)) w
              (by rintro j (h | h) <;> cases h) }
  | choose w j b =>
      simp only [next, choose]
      split
      · exact { h with }
      · exact h.setWorker w (by rintro j (h | h) <;> cases h)
  | tx w j c b sz ok =>
      exact { h with present := present_setWorker h.present w (by rintro j (h | h) <;> cases h) }
  | sent w j c b sz =>
      exact { h with present := present_setWorker h.present w (by rintro j (h | h) <;> cases h) }
  | txReply w j r ok => exact h.setWorker w (by rintro j (h | h) <;> cases h)
  | die c => exact { h with }

theorem once_of_run {tr : List (Act χ)} (h : (lts e).Run tr s) : Once s := by
  refine h.invariant (I := fun _ s => Once s) ?_ ?_
  · rintro s rfl
    exact once_init
  · intro tr s a _ hs hg
    exact hs.step hg

/-! ## Without at-most-once logic -/

/-- The message is a job that satisfies `P`. -/
def jobOf (P : Job χ → Bool) (m : χ × Bytes) : Bool :=
  match decodeReq m.2 with
  | some q => P ⟨m.1, q⟩
  | none => false

theorem received_begin (s : Rpcs χ) (w : Worker) (c : χ) (b : Bytes) :
    (s.begin e w c b).received = s.received := by
  obtain ⟨_, _, _, _, heq⟩ := begin_eq (e := e) s w c b
  rw [heq]

theorem countP_erase_add {α : Type*} [BEq α] [LawfulBEq α] {P : α → Bool} {l : List α} {x : α}
    (hx : x ∈ l) : l.countP P = (l.erase x).countP P + if P x then 1 else 0 := by
  rw [(List.perm_cons_erase hx).countP_eq P, List.countP_cons]

theorem countP_begin {P : Job χ → Bool} {w : Worker} {c : χ} {b : Bytes} (hm : (c, b) ∈ s.jobs) :
    (s.begin e w c b).jobs.countP (jobOf P) + (s.begin e w c b).execs.countP P
      ≤ s.jobs.countP (jobOf P) + s.execs.countP P := by
  have hjobs := countP_erase_add (P := jobOf P) hm
  unfold Rpcs.begin
  split
  · simp only [hjobs]
    omega
  · rename_i q hq
    simp only
    split
    · simp only [setWorker, hjobs]
      omega
    · split
      · simp only [hjobs]
        omega
      · split
        · simp only [enter, setWorker, hjobs]
          omega
        · simp only [invoke, setWorker, List.countP_append, List.countP_singleton, hjobs, jobOf, hq]
          omega

/-- Jobs without at-most-once logic run at most once for each PDU that came in. -/
theorem execs_le_received {tr : List (Act χ)} (h : (lts e).Run tr s) {P : Job χ → Bool}
    (hP : ∀ j, P j = true → j.nonce = 0) :
    s.jobs.countP (jobOf P) + s.execs.countP P ≤ s.received.countP (jobOf P) := by
  induction h with
  | init h =>
      cases h
      exact Nat.le_refl _
  | @step tr s a hr hg ih =>
      cases a with
      | gotPdu c b accept =>
          cases accept with
          | false => exact ih
          | true =>
              simp only [lts, next, ↓reduceIte, List.countP_append]
              omega
      | begin w c b =>
          have hrec : (s.begin e w c b).received = s.received := received_begin s w c b
          simp only [lts, next, hrec]
          exact Nat.le_trans (countP_begin hg.2.2) ih
      | seen w j => exact ih
      | save w j => exact ih
      | check w j =>
          have hj : P j = false := by
            have hok := (sourced_of_run hr).workers w
            rw [hg.2] at hok
            by_contra hpj
            exact hok.2.2 (hP j (by simpa using hpj))
          simp only [lts, next, check]
          split
          · exact ih
          · rename_i st t freed _
            rw [(answer_frame _ w j st).1, (answer_frame _ w j st).2, countP_answer st hj]
            exact ih
      | handled w j ret body =>
          simp only [lts, next, handled]
          split <;> exact ih
      | record w j b =>
          simp only [lts, next, record]
          split <;> exact ih
      | choose w j b =>
          simp only [lts, next, choose]
          split <;> exact ih
      | tx w j c b sz ok => exact ih
      | sent w j c b sz => exact ih
      | txReply w j r ok => exact ih
      | die c => exact ih

end StanDfs.Rpcs
