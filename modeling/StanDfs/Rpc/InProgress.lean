import StanDfs.Rpc.Lemmas.Recording
import StanDfs.Rpc.Net

/-!
# Where `add_reply` finds its entry

A check erases the entries it passes below the client's floor, whether their calls are in progress or not.
As long as it passes none that is in progress, the entry of a call is there until its reply is recorded.
-/

namespace StanDfs

namespace Rpcs

variable {χ : Type*} {e : Env χ} {s : Rpcs χ}

/-- The step erases no entry that is in progress. -/
def SparesRunning (s : Rpcs χ) : Act χ → Prop
  | .check _ j => s.table.Spares (fun en => en.sz = -1) j.nonce j.xid j.xidRep
  | _ => True

instance (s : Rpcs χ) (a : Act χ) : Decidable (SparesRunning s a) := by
  unfold SparesRunning
  apply @Act.casesOn _ _ a <;> intros <;> infer_instance

/-- The calls that workers are busy with have their entries. -/
def Entered (s : Rpcs χ) : Prop :=
  ∀ w j, (s.workers w).busy = some j → j.nonce ≠ 0 →
    ∃ en ∈ s.table.replies j.nonce, en.xid = j.xid ∧ en.sz = -1

theorem Entered.setWorker {w : Worker} {p : Pc χ} (h : Entered s)
    (hp : ∀ j, p.busy = some j → j.nonce ≠ 0 →
      ∃ en ∈ s.table.replies j.nonce, en.xid = j.xid ∧ en.sz = -1) : Entered (s.setWorker w p) :=
  forall_setWorker (P := fun p => ∀ j, p.busy = some j → j.nonce ≠ 0 →
    ∃ en ∈ s.table.replies j.nonce, en.xid = j.xid ∧ en.sz = -1) h hp

theorem Entered.check {w : Worker} {j : Job χ} (h : Entered s)
    (hc : s.SparesRunning (.check w j)) : Entered (s.check w j) := by
  unfold Rpcs.check
  split
  · exact h
  · rename_i st t freed heq
    have hck := ReplyTable.checked heq
    have h' : Entered { s with table := t, freed := s.freed ++ freed } := by
      intro w' j' hj' hn
      obtain ⟨en, hen, hx, hsz⟩ := h w' j' hj' hn
      refine ⟨en, ?_, hx, hsz⟩
      by_cases hnn : j'.nonce = j.nonce
      · rw [hnn] at hen ⊢
        exact ReplyTable.Spares.mem hc heq hen hsz
      · exact (hck.replies_ne hnn).symm ▸ hen
    cases st with
    | new =>
        refine h'.setWorker fun j' hj' _ => ?_
        cases hj'
        obtain ⟨kept, removed, _, _, hnew⟩ := hck.swept
        exact ⟨⟨j.xid, none, -1⟩, by rw [(hnew rfl).1]; simp, rfl, rfl⟩
    | inprogress => exact h'.setWorker fun j hj => by cases hj
    | done b sz =>
        cases b with
        | none => exact h'
        | some b => exact h'.setWorker fun j hj => by cases hj
    | forgotten => exact h'.setWorker fun j hj => by cases hj

/-- A worker records the reply of its own call and of no other's. -/
theorem Entered.record {w : Worker} {j : Job χ} {b : Addr} (h : Entered s) (hr : Recording s)
    (hw : s.workers w = .record j b) : Entered (s.record w j b) := by
  unfold Rpcs.record
  split
  · exact h
  · rename_i t ht
    have hrec := ReplyTable.recorded (by omega) ht
    intro w' j' hj' hn
    have hww : w' ≠ w := by
      rintro rfl
      simp [Rpcs.setWorker, Pc.busy] at hj'
    have hj'' : (s.workers w').busy = some j' := by
      simpa [Rpcs.setWorker, Function.update_of_ne hww] using hj'
    obtain ⟨en, hen, hx, hsz⟩ := h w' j' hj'' hn
    refine ⟨en, hrec.mem hen fun hnn hxx => ?_, hx, hsz⟩
    have hk : j'.key = j.key := by rw [Job.key, Job.key, hnn, ← hxx, hx]
    exact hr.apart w' w j' j hww hj'' (by rw [hw]; rfl) hn hk

variable [DecidableEq χ]

theorem Entered.begin {w : Worker} {c : χ} {b : Bytes} (h : Entered s) :
    Entered (s.begin e w c b) := by
  have h' : Entered { s with jobs := s.jobs.erase (c, b) } := h
  unfold Rpcs.begin
  split
  · exact h'
  · simp only
    split
    · exact h'.setWorker fun j hj => by cases hj
    · split
      · exact h'
      · split
        · exact h'.setWorker fun j hj => by cases hj
        · rename_i hn
          refine h'.setWorker fun j hj hn' => ?_
          cases hj
          exact absurd hn' hn

theorem Entered.step {a : Act χ} (h : Entered s) (hr : Recording s) (hg : guard e s a)
    (hc : s.SparesRunning a) : Entered (s.next e a) := by
  cases a with
  | gotPdu c b accept =>
      cases accept with
      | false => exact h
      | true => exact h
  | begin w c b => exact h.begin
  | seen w j =>
      have h' : Entered { s with table := s.table.create j.nonce } := by
        intro w' j' hj' hn
        obtain ⟨en, hen, hx⟩ := h w' j' hj' hn
        exact ⟨en, (ReplyTable.replies_create ..).symm ▸ hen, hx⟩
      exact h'.setWorker fun j hj => by cases hj
  | save w j => exact h.setWorker (w := w) (p := .check j) fun j hj => by cases hj
  | check w j => exact h.check hc
  | handled w j ret body =>
      simp only [next, handled]
      split
      · refine h.setWorker (w := w) (p := .record j s.heap.length) fun j' hj' hn => ?_
        cases hj'
        exact h w j (by rw [hg.2.1]; rfl) hn
      · exact h.setWorker (w := w) (p := .choose j s.heap.length) fun j hj => by cases hj
  | record w j b => exact h.record hr hg.2
  | choose w j b =>
      simp only [next, choose]
      split
      · exact h
      · exact h.setWorker fun j hj => by cases hj
  | tx w j c b sz ok => exact h.setWorker (w := w) (p := .sending j c b sz) fun j hj => by cases hj
  | sent w j c b sz => exact h.setWorker (w := w) (p := .idle) fun j hj => by cases hj
  | txReply w j r ok => exact h.setWorker fun j hj => by cases hj
  | die c => exact h

theorem entered_of_run {tr : List (Act χ)} (h : ((lts e).restrict SparesRunning).Run tr s) :
    Entered s := by
  refine h.invariant (I := fun _ s => Entered s) ?_ ?_
  · rintro s rfl w j hj
    cases hj
  · intro tr s a hr hs hg
    exact hs.step (recording_of_run hr.of_restrict) hg.1 hg.2

end Rpcs

namespace RpcNet

variable {κ ι : Type*} [DecidableEq κ] [DecidableEq ι] {g : Config κ ι} {s : RpcNet κ ι}

/-- No check at a server erases an entry that is in progress. -/
def SparesRunning (s : RpcNet κ ι) : Act κ ι → Prop
  | .clt _ _ => True
  | .srv i a => (s.srv i).SparesRunning a

instance (s : RpcNet κ ι) (a : Act κ ι) : Decidable (SparesRunning s a) := by
  unfold SparesRunning
  apply @Act.casesOn _ _ _ a <;> intros <;> infer_instance

/-- Where no check erases an entry that is in progress, `add_reply` finds its entry. -/
theorem add_reply_finds_entry {tr : List (Act κ ι)}
    (h : ((lts g).restrict SparesRunning).Run tr s) {i : ι} {w : Worker} {j : Job (Conn κ ι)} {b : Addr}
    (hg : guard g s (.srv i (.record w j b))) :
    (∃ en ∈ (s.srv i).table.replies j.nonce, en.xid = j.xid) ∧
      (s.srv i).table.addReply j.nonce j.xid (some b) ((s.srv i).contents b).length ≠ none := by
  have hr := h.component ((srv_component g i).restrict (D := Rpcs.SparesRunning) fun s a b hc hp => by
    obtain rfl := eq_of_srvAct hp
    exact hc)
  have hw : (s.srv i).workers w = .record j b := hg.1.2
  have hok := (Rpcs.sourced_of_run hr.of_restrict).workers w
  rw [hw] at hok
  obtain ⟨en, hen, hx, _⟩ := Rpcs.entered_of_run hr w j (by rw [hw]; rfl) hok.2.1
  exact ⟨⟨en, hen, hx⟩, ReplyTable.addReply_ne_none _ _ ⟨en, hen, hx⟩⟩

/-- A call of a bound client whose handler has returned. -/
theorem add_reply_finds_entry_solo : ∃ tr s, ((lts Solo.config).restrict SparesRunning).Run tr s ∧
    ∃ w j b, guard Solo.config s (.srv () (.record w j b)) ∧
      ∃ en ∈ (s.srv ()).table.replies j.nonce, en.xid = j.xid := by
  obtain ⟨s, hr, hs⟩ := Lts.run_of_exec (M := (lts Solo.config).restrict SparesRunning) (s := init)
    (l := Solo.bind ++ (Solo.call 0 0 (Solo.req 2 1) 1 [3]).take 9)
    (f := fun s => decide (guard Solo.config s (.srv () (.record 0 ⟨Solo.conn 0, Solo.req 2 1⟩ 1))))
    rfl (by decide +kernel)
  have hg := of_decide_eq_true hs
  exact ⟨_, s, hr, 0, _, 1, hg, (add_reply_finds_entry hr hg).1⟩

/-- A call times out while its handler runs. The next call returns, and the check of the one after it
erases the entry of the first. -/
theorem add_reply_misses_entry : ¬ ∀ tr s, (lts Solo.config).Run tr s → ∀ w j b,
    guard Solo.config s (.srv () (.record w j b)) →
      ∃ en ∈ (s.srv ()).table.replies j.nonce, en.xid = j.xid := by
  intro hall
  obtain ⟨s, hr, hs⟩ := Lts.run_of_exec (M := lts Solo.config) (s := init)
    (l := Solo.bind ++ .clt () (.call1 0 2 []) :: Solo.transmit 0 (Solo.req 2 1) (Solo.conn 0) false ++
      Solo.dispatch 0 ⟨Solo.conn 0, Solo.req 2 1⟩ ++
      [.clt () (.giveup 0 ⟨Solo.req 2 1, some (Solo.conn 0)⟩),
        .clt () (.leave 0 ⟨Solo.req 2 1, some (Solo.conn 0)⟩),
        .clt () (.ret 0 ⟨Solo.req 2 1, some (Solo.conn 0)⟩ RpcConst.timeoutFailure)] ++
      Solo.call 0 1 (Solo.req 3 2) 1 [] ++
      .clt () (.call1 0 2 []) :: Solo.transmit 0 (Solo.req 4 3) (Solo.conn 0) false ++
      Solo.dispatch 1 ⟨Solo.conn 0, Solo.req 4 3⟩ ++
      [.srv () (.handled 0 ⟨Solo.conn 0, Solo.req 2 1⟩ 0 [])])
    (f := fun s => decide (guard Solo.config s (.srv () (.record 0 ⟨Solo.conn 0, Solo.req 2 1⟩ 2)) ∧
      ∀ en ∈ (s.srv ()).table.replies 5, en.xid ≠ 2))
    rfl (by decide +kernel)
  obtain ⟨hg, hne⟩ := of_decide_eq_true hs
  obtain ⟨en, hen, hx⟩ := hall _ s hr 0 _ 2 hg
  exact hne en hen hx

end RpcNet
end StanDfs
