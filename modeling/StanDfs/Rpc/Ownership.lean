import StanDfs.Rpc.Lemmas.Buffers
import StanDfs.Rpc.Net

/-!
# When reply buffers are freed

No buffer is freed twice, and at the end every recorded one has been freed. But a check frees the buffers
it passes below the floor even if a worker is about to send one of them. As long as it passes none that a
worker has, every buffer is there until its `send` returns.
-/

namespace StanDfs

namespace Rpcs

variable {χ : Type*} {e : Env χ} {s : Rpcs χ}

/-- The entry's buffer is with a worker. -/
def Held (s : Rpcs χ) (en : ReplyT) : Prop :=
  en.buf ≠ none ∧ ∃ w, (s.workers w).buf = en.buf

/-- The step frees no buffer of the table that is with a worker. -/
def SparesHeld (s : Rpcs χ) : Act χ → Prop
  | .check _ j => s.table.Spares s.Held j.nonce j.xid j.xidRep
  | _ => True

/-- A buffer that is with a worker is the worker's own or in the table. -/
def Live (s : Rpcs χ) : Prop :=
  ∀ w b, (s.workers w).buf = some b → (s.workers w).own = some b ∨ b ∈ s.table.bufs

theorem Live.setWorker {w : Worker} {p : Pc χ} (h : Live s)
    (hp : ∀ b, p.buf = some b → p.own = some b ∨ b ∈ s.table.bufs) : Live (s.setWorker w p) :=
  forall_setWorker (P := fun p => ∀ b, p.buf = some b → p.own = some b ∨ b ∈ s.table.bufs) h hp

theorem Live.drop {w : Worker} {p : Pc χ} (h : Live s) (hp : p.buf = none) : Live (s.setWorker w p) := by
  refine h.setWorker fun b hb => ?_
  rw [hp] at hb
  cases hb

theorem Live.keep {w : Worker} {p : Pc χ} (h : Live s) (hb : p.buf = (s.workers w).buf)
    (ho : p.own = (s.workers w).own) : Live (s.setWorker w p) := by
  refine h.setWorker fun b hpb => ?_
  rw [ho]
  exact h w b (hb ▸ hpb)

theorem Live.not_freed (h : Live s) (ho : Owned s) {w : Worker} {b : Addr}
    (hb : (s.workers w).buf = some b) : b ∉ s.freed := by
  rcases h w b hb with hown | hm
  · exact fun hf => (ho.own w b hown).2.1 (List.mem_append_right _ hf)
  · exact fun hf => (List.nodup_append.mp ho.nodup).2.2 b hm b hf rfl

theorem Live.check {w : Worker} {j : Job χ} (h : Live s) (hc : s.SparesHeld (.check w j)) :
    Live (s.check w j) := by
  unfold Rpcs.check
  split
  · exact h
  · rename_i st t freed heq
    have hck := ReplyTable.checked heq
    have h' : Live { s with table := t, freed := s.freed ++ freed } := by
      intro w' b hb
      refine (h w' b hb).imp_right fun hm => ?_
      obtain ⟨n, en, hen, hbuf⟩ := ReplyTable.mem_bufs.mp hm
      refine ReplyTable.mem_bufs.mpr ⟨n, en, ?_, hbuf⟩
      by_cases hn : n = j.nonce
      · subst hn
        exact ReplyTable.Spares.mem hc heq hen ⟨by rw [hbuf]; simp, w', by rw [hbuf]; exact hb⟩
      · rw [hck.replies_ne hn]
        exact hen
    cases st with
    | new => exact h'.drop rfl
    | inprogress => exact h'.drop rfl
    | done b sz =>
        cases b with
        | none => exact h'
        | some b =>
            refine h'.setWorker fun b' hb' => ?_
            cases hb'
            exact .inr (mem_bufs_of_done hck)
    | forgotten => exact h'.drop rfl

theorem Live.record {w : Worker} {j : Job χ} {b : Addr} (h : Live s) (hr : Recording s)
    (hn : j.nonce ≠ 0) (hw : s.workers w = .record j b) : Live (s.record w j b) := by
  unfold Rpcs.record
  split
  · exact h
  · rename_i t ht
    have hrec := ReplyTable.recorded (by omega) ht
    have hperm := hrec.bufs (hr.pending_of_busy hn (by rw [hw]; rfl))
    have h' : Live { s with table := t } := fun w' b' hb' =>
      (h w' b' hb').imp_right fun hm => hperm.mem_iff.mpr (List.mem_cons_of_mem _ hm)
    refine h'.setWorker fun b' hb' => ?_
    cases hb'
    exact .inr (hperm.mem_iff.mpr List.mem_cons_self)

/-- Every recorded buffer has been freed once when `free_reply_window` is done. -/
theorem Owned.count (h : Owned s) {r : (UInt32 × UInt32) × Addr} (hr : r ∈ s.recorded) :
    (s.freed ++ s.table.freeReplyWindow.2).count r.2 = 1 := by
  have hperm : (s.freed ++ s.table.freeReplyWindow.2).Perm s.placed := List.perm_append_comm
  exact List.count_eq_one_of_mem (hperm.nodup_iff.mpr h.nodup) (hperm.mem_iff.mpr (h.recorded r hr))

variable [DecidableEq χ]

theorem Live.begin {w : Worker} {c : χ} {b : Bytes} (h : Live s) : Live (s.begin e w c b) := by
  have h' : Live { s with jobs := s.jobs.erase (c, b) } := h
  unfold Rpcs.begin
  split
  · exact h'
  · simp only
    split
    · exact h'.drop rfl
    · split
      · exact h'
      · split
        · exact h'.drop rfl
        · exact h'.drop rfl

theorem Live.step {a : Act χ} (h : Live s) (hs : Sourced e s s) (hr : Recording s)
    (hg : guard e s a) (hc : s.SparesHeld a) : Live (s.next e a) := by
  cases a with
  | gotPdu c b accept =>
      cases accept with
      | false => exact h
      | true => exact h
  | begin w c b => exact h.begin
  | seen w j =>
      have h' : Live { s with table := s.table.create j.nonce } := by
        intro w' b hb
        rw [ReplyTable.bufs_create]
        exact h w' b hb
      exact h'.drop rfl
  | save w j => exact h.drop (w := w) (p := .check j) rfl
  | check w j => exact h.check hc
  | handled w j ret body =>
      simp only [next, handled]
      split
      · exact h.setWorker (w := w) (p := .record j s.heap.length) fun b hb => .inl hb
      · rename_i hn
        refine h.setWorker (w := w) (p := .choose j s.heap.length) fun b hb => .inl ?_
        rw [Pc.own, if_pos (not_not.mp hn)]
        exact hb
  | record w j b =>
      have hok := hs.workers w
      rw [hg.2] at hok
      exact h.record hr hok.2.1 hg.2
  | choose w j b =>
      simp only [next, choose]
      split
      · exact h
      · exact h.keep (by rw [hg.2]; rfl) (by rw [hg.2]; rfl)
  | tx w j c b sz ok =>
      exact h.keep (w := w) (p := .sending j c b sz) (by rw [hg.2.1]; rfl) (by rw [hg.2.1]; rfl)
  | sent w j c b sz => exact h.drop (w := w) (p := .idle) rfl
  | txReply w j r ok => exact h.drop rfl
  | die c => exact h

theorem live_of_run {tr : List (Act χ)} (h : ((lts e).restrict SparesHeld).Run tr s) : Live s := by
  refine h.invariant (I := fun _ s => Live s) ?_ ?_
  · rintro s rfl w b hb
    cases hb
  · intro tr s a hr hs hg
    exact hs.step (sourced_of_run hr.of_restrict) (recording_of_run hr.of_restrict) hg.1 hg.2

end Rpcs

namespace RpcNet

variable {κ ι : Type*} {g : Config κ ι} {s : RpcNet κ ι}

/-- No check at a server frees a buffer that is with a worker. -/
def SparesHeld (s : RpcNet κ ι) : Act κ ι → Prop
  | .clt _ _ => True
  | .srv i a => (s.srv i).SparesHeld a

/-- No check at a server erases an entry. -/
def SparesAll (s : RpcNet κ ι) : Act κ ι → Prop
  | .srv i (.check _ j) => (s.srv i).table.Spares (fun _ => True) j.nonce j.xid j.xidRep
  | _ => True

theorem sparesHeld_of_all {a : Act κ ι} (h : SparesAll s a) : SparesHeld s a := by
  cases a with
  | clt k a => trivial
  | srv i a =>
      cases a with
      | check w j => exact h.imp_right fun h en hen _ => h en hen trivial
      | _ => trivial

instance (s : RpcNet κ ι) (a : Act κ ι) : Decidable (SparesAll s a) := by
  unfold SparesAll
  apply @Act.casesOn _ _ _ a
  · intros
    infer_instance
  · intro i a
    apply @Rpcs.Act.casesOn _ _ a <;> intros <;> infer_instance

variable [DecidableEq κ] [DecidableEq ι]

/-- Where no check frees a buffer that is with a worker, every buffer is live until its `send` returns, and
every recorded buffer is freed exactly once. -/
theorem buffers_live {tr : List (Act κ ι)} (h : ((lts g).restrict SparesHeld).Run tr s) (i : ι) :
    (∀ w b, ((s.srv i).workers w).buf = some b →
      b < (s.srv i).heap.length ∧ b ∉ (s.srv i).freed) ∧
    ∀ r ∈ (s.srv i).recorded,
      ((s.srv i).freed ++ (s.srv i).table.freeReplyWindow.2).count r.2 = 1 := by
  have hr := h.component ((srv_component g i).restrict (D := Rpcs.SparesHeld) fun s a b hc hp => by
    obtain rfl := eq_of_srvAct hp
    exact hc)
  have ho := Rpcs.owned_of_run hr.of_restrict
  have hl := Rpcs.live_of_run hr
  exact ⟨fun w b hb => ⟨ho.buf_lt hb, hl.not_freed ho hb⟩, fun r => ho.count⟩

/-- A reply that is being sent. -/
theorem buffers_live_solo : ∃ tr s, ((lts Solo.config).restrict SparesHeld).Run tr s ∧
    ((s.srv ()).workers 0).buf = some 1 ∧ 1 ∉ (s.srv ()).freed := by
  obtain ⟨s, h, hs⟩ := Lts.run_of_exec (M := (lts Solo.config).restrict SparesAll) (s := init)
    (l := Solo.bind ++ (Solo.call 0 0 (Solo.req 2 1) 1 [3]).take 12)
    (f := fun s => decide (((s.srv ()).workers 0).buf = some 1)) rfl (by decide +kernel)
  have hr := h.restrict_mono fun _ _ => sparesHeld_of_all
  have hb := of_decide_eq_true hs
  exact ⟨_, s, hr, hb, ((buffers_live hr ()).1 0 1 hb).2⟩

/-- A call times out while its reply is on the way to `send`. The next call returns, and the check of the
one after it frees the buffer. -/
theorem buffer_freed_before_send : ¬ ∀ tr s, (lts Solo.config).Run tr s →
    ∀ w b, ((s.srv ()).workers w).buf = some b → b ∉ (s.srv ()).freed := by
  intro hall
  obtain ⟨s, hr, hs⟩ := Lts.run_of_exec (M := lts Solo.config) (s := init)
    (l := Solo.bind ++ .clt () (.call1 0 2 []) :: Solo.transmit 0 (Solo.req 2 1) (Solo.conn 0) false ++
      Solo.dispatch 0 ⟨Solo.conn 0, Solo.req 2 1⟩ ++
      (Solo.reply 0 ⟨Solo.conn 0, Solo.req 2 1⟩ 1 []).dropLast ++
      [.clt () (.giveup 0 ⟨Solo.req 2 1, some (Solo.conn 0)⟩),
        .clt () (.leave 0 ⟨Solo.req 2 1, some (Solo.conn 0)⟩),
        .clt () (.ret 0 ⟨Solo.req 2 1, some (Solo.conn 0)⟩ RpcConst.timeoutFailure)] ++
      Solo.call 0 1 (Solo.req 3 2) 2 [] ++
      .clt () (.call1 0 2 []) :: Solo.transmit 0 (Solo.req 4 3) (Solo.conn 0) false ++
      Solo.dispatch 1 ⟨Solo.conn 0, Solo.req 4 3⟩)
    (f := fun s => decide ((s.srv ()).workers 0 = .send ⟨Solo.conn 0, Solo.req 2 1⟩ (Solo.conn 0) 1 24 ∧
      1 ∈ (s.srv ()).freed))
    rfl (by decide +kernel)
  obtain ⟨hw, hf⟩ := of_decide_eq_true hs
  exact hall _ s hr 0 1 (by rw [hw]; rfl) hf

end RpcNet
end StanDfs
