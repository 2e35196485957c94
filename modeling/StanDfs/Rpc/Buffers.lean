import StanDfs.Rpc.Lemmas.Steps
import StanDfs.Rpc.Ownership

/-!
# What becomes of a reply buffer

A buffer that a handler returned is its worker's, in the table or freed; it does not get lost. What the table
has when the workers have ended is freed by `free_reply_window`.
-/

namespace StanDfs

namespace Rpcs

variable {χ : Type*} {e : Env χ} {s s' : Rpcs χ} {w : Worker} {p : Pc χ} {j : Job χ} {b : Addr}

/-- No buffer is lost. -/
def Tracked (s : Rpcs χ) : Prop :=
  ∀ b < s.heap.length, b ∈ s.placed ∨ ∃ w, (s.workers w).own = some b

theorem tracked_init : Tracked (init : Rpcs χ) := by
  intro b hb
  cases hb

theorem Tracked.of_placed (h : Tracked s) (hp : ∀ b ∈ s.placed, b ∈ s'.placed)
    (hw : s'.workers = s.workers) (hh : s'.heap = s.heap) : Tracked s' := by
  intro b hb
  rw [hh] at hb
  rw [hw]
  exact (h b hb).imp_left (hp b)

/-- A worker's own buffer stays its own or is placed. -/
theorem Tracked.setWorker (h : Tracked s)
    (hp : ∀ b, (s.workers w).own = some b → p.own = some b ∨ b ∈ s.placed) : Tracked (s.setWorker w p) := by
  intro b hb
  rcases h b hb with hm | ⟨w', ho⟩
  · exact .inl hm
  · by_cases hw : w' = w
    · subst hw
      refine (hp b ho).symm.imp_right fun ho => ⟨w', ?_⟩
      simpa [Rpcs.setWorker] using ho
    · refine .inr ⟨w', ?_⟩
      simpa [Rpcs.setWorker, Function.update_of_ne hw] using ho

theorem Tracked.free (h : Tracked s) (hw : (s.workers w).own = none) : Tracked (s.setWorker w p) := by
  refine h.setWorker fun b hb => ?_
  rw [hw] at hb
  cases hb

theorem Tracked.check (h : Tracked s) (hw : s.workers w = .check j) : Tracked (s.check w j) := by
  unfold Rpcs.check
  split
  · exact h.of_placed (fun _ hb => hb) rfl rfl
  · rename_i st t freed hc
    have hck := (ReplyTable.checked hc).bufs
    have h' : Tracked { s with table := t, freed := s.freed ++ freed } := by
      refine h.of_placed (fun b hb => ?_) rfl rfl
      rcases List.mem_append.mp hb with hb | hb
      · rcases List.mem_append.mp (hck.mem_iff.mp hb) with hb | hb
        · exact List.mem_append_left _ hb
        · exact List.mem_append_right _ (List.mem_append_right _ hb)
      · exact List.mem_append_right _ (List.mem_append_left _ hb)
    have hnone : (s.workers w).own = none := by rw [hw]; rfl
    cases st with
    | new => exact h'.free (p := .running j) hnone
    | inprogress => exact h'.free hnone
    | done b sz =>
        cases b with
        | none => exact h'
        | some b => exact h'.free hnone
    | forgotten => exact h'.free hnone

theorem Tracked.handled {ret : Int32} {body : Bytes} (h : Tracked s) (hw : s.workers w = .running j) :
    Tracked (s.handled w j ret body) := by
  have hset : ∀ p : Pc χ, p.own = some s.heap.length → Tracked (Rpcs.setWorker { s with
      heap := s.heap ++ [(Result.mk j ret body).buf]
      results := s.results ++ [Result.mk j ret body] } w p) := by
    intro p hp b hb
    have hlt : b < s.heap.length + 1 := by simpa [Rpcs.setWorker] using hb
    rcases Nat.lt_succ_iff_lt_or_eq.mp hlt with hlt | rfl
    · have hfree := h.free (p := p) (w := w) (by rw [hw]; rfl)
      exact hfree b hlt
    · refine .inr ⟨w, ?_⟩
      simpa [Rpcs.setWorker] using hp
  simp only [Rpcs.handled]
  split
  · exact hset _ rfl
  · rename_i hn
    exact hset _ (by simpa [Pc.own] using hn)

/-- The recorded reply is placed in the entry of its call, which had none. -/
theorem Tracked.record (h : Tracked s) (hr : Recording s) (hn : j.nonce ≠ 0)
    (hw : s.workers w = .record j b) : Tracked (s.record w j b) := by
  unfold Rpcs.record
  split
  · exact h.of_placed (fun _ hb => hb) rfl rfl
  · rename_i t ht
    have hrec := ReplyTable.recorded (by omega) ht
    have hperm := hrec.bufs (hr.pending_of_busy hn (by rw [hw]; rfl))
    have h' : Tracked { s with table := t, recorded := s.recorded ++ [(j.key, b)] } := by
      refine h.of_placed (fun b' hb' => ?_) rfl rfl
      rcases List.mem_append.mp hb' with hb' | hb'
      · exact List.mem_append_left _ (hperm.mem_iff.mpr (List.mem_cons_of_mem _ hb'))
      · exact List.mem_append_right _ hb'
    refine h'.setWorker (w := w) (p := .choose j b) fun b' hb' => .inr ?_
    have hb' : (s.workers w).own = some b' := hb'
    rw [hw] at hb'
    cases hb'
    exact List.mem_append_left _ (hperm.mem_iff.mpr List.mem_cons_self)

/-- Without at-most-once logic the worker frees its buffer after `send`; otherwise it is not the worker's. -/
theorem Tracked.sent {c : χ} {sz : Int} (h : Tracked s) (hw : s.workers w = .sending j c b sz) :
    Tracked { s.setWorker w .idle with
      freed := if j.nonce = 0 then s.freed ++ [b] else s.freed } := by
  have h' : Tracked { s with freed := if j.nonce = 0 then s.freed ++ [b] else s.freed } := by
    refine h.of_placed (fun b' hb' => ?_) rfl rfl
    rcases List.mem_append.mp hb' with hb' | hb'
    · exact List.mem_append_left _ hb'
    · refine List.mem_append_right _ ?_
      show b' ∈ ite _ _ _
      split
      · exact List.mem_append_left _ hb'
      · exact hb'
  refine h'.setWorker (w := w) (p := .idle) fun b' hb' => .inr ?_
  have hb' : (s.workers w).own = some b' := hb'
  simp only [hw, Pc.own, Option.ite_none_right_eq_some] at hb'
  obtain ⟨hn, heq⟩ := hb'
  cases heq
  exact List.mem_append_right _ (by simp [hn])

variable [DecidableEq χ]

theorem Tracked.begin {c : χ} {bs : Bytes} (h : Tracked s) (hw : s.workers w = .idle) :
    Tracked (s.begin e w c bs) := by
  have h' : Tracked { s with jobs := s.jobs.erase (c, bs) } := h
  have hnone : (s.workers w).own = none := by rw [hw]; rfl
  unfold Rpcs.begin
  split
  · exact h'
  · simp only
    split
    · exact h'.free hnone
    · split
      · exact h'
      · split
        · exact h'.free (p := .seen _) hnone
        · exact h'.free (p := .running _) hnone

theorem Tracked.step {a : Act χ} (h : Tracked s) (hs : Sourced e s s) (hr : Recording s)
    (hg : guard e s a) : Tracked (s.next e a) := by
  cases a with
  | gotPdu c b accept =>
      cases accept with
      | false => exact h
      | true => exact h
  | begin w c b => exact h.begin hg.2.1
  | seen w j =>
      have h' : Tracked { s with table := s.table.create j.nonce } := by
        refine h.of_placed (fun b hb => ?_) rfl rfl
        rw [placed, ReplyTable.bufs_create]
        exact hb
      exact h'.free (by rw [hg.2]; rfl)
  | save w j => exact h.free (w := w) (p := .check j) (by rw [hg.2]; rfl)
  | check w j => exact h.check hg.2
  | handled w j ret body => exact h.handled hg.2.1
  | record w j b =>
      have hok := hs.workers w
      rw [hg.2] at hok
      exact h.record hr hok.2.1 hg.2
  | choose w j b =>
      simp only [next, choose]
      split
      · exact h
      · refine h.setWorker fun b' hb' => .inl ?_
        rw [hg.2] at hb'
        exact hb'
  | tx w j c b sz ok =>
      refine h.setWorker (w := w) (p := .sending j c b sz) fun b' hb' => .inl ?_
      rw [hg.2.1] at hb'
      exact hb'
  | sent w j c b sz => exact h.sent hg.2
  | txReply w j r ok => exact h.free (by rw [hg.2.1]; rfl)
  | die c => exact h

theorem tracked_of_run {tr : List (Act χ)} (h : (lts e).Run tr s) : Tracked s := by
  refine h.invariant (I := fun _ s => Tracked s) ?_ ?_
  · rintro s rfl
    exact tracked_init
  · intro tr s a hr hs hg
    exact hs.step (sourced_of_run hr) (recording_of_run hr) hg

end Rpcs

namespace RpcNet

variable {κ ι : Type*} [DecidableEq κ] [DecidableEq ι] {g : Config κ ι} {s : RpcNet κ ι}

/-- Every buffer that a handler returned is the own buffer of one worker, or it is in the table or freed, and in
that once. If all workers have ended when `free_reply_window` is called, each has then been freed once. -/
theorem buffers_reclaimed {tr : List (Act κ ι)} (h : (lts g).Run tr s) (i : ι) :
    (∀ b < (s.srv i).heap.length,
      ((s.srv i).freed ++ (s.srv i).table.freeReplyWindow.2).count b = 1 ∧
          (∀ w, ((s.srv i).workers w).own ≠ some b) ∨
        ((s.srv i).freed ++ (s.srv i).table.freeReplyWindow.2).count b = 0 ∧
          ∃! w, ((s.srv i).workers w).own = some b) ∧
      ((∀ w, (s.srv i).workers w = .idle) →
        ((s.srv i).freed ++ (s.srv i).table.freeReplyWindow.2).Perm (List.range (s.srv i).heap.length)) := by
  have hr := h.component (srv_component g i)
  have ho := Rpcs.owned_of_run hr
  have ht := Rpcs.tracked_of_run hr
  have hperm : ((s.srv i).freed ++ (s.srv i).table.freeReplyWindow.2).Perm (s.srv i).placed :=
    List.perm_append_comm
  constructor
  · intro b hb
    rw [hperm.count_eq]
    rcases ht b hb with hp | ⟨w, hw⟩
    · exact .inl ⟨List.count_eq_one_of_mem ho.nodup hp, fun w hw => (ho.own w b hw).2.1 hp⟩
    · obtain ⟨_, hn, hu⟩ := ho.own w b hw
      refine .inr ⟨List.count_eq_zero_of_not_mem hn, w, hw, fun w' hw' => ?_⟩
      exact by_contra fun hne => hu w' hne (Pc.buf_of_own hw')
  · intro hidle
    refine hperm.trans ((List.perm_ext_iff_of_nodup ho.nodup List.nodup_range).mpr fun b => ?_)
    rw [List.mem_range]
    refine ⟨ho.lt b, fun hb => (ht b hb).resolve_right ?_⟩
    rintro ⟨w, hw⟩
    rw [hidle w] at hw
    cases hw

/-- A client has made two calls; with the second it has acknowledged `bind`. -/
theorem buffers_reclaimed_solo : ∃ tr s, (lts Solo.config).Run tr s ∧ (s.srv ()).heap.length = 3 ∧
    0 ∈ (s.srv ()).freed ∧
    ((s.srv ()).freed ++ (s.srv ()).table.freeReplyWindow.2).Perm (List.range (s.srv ()).heap.length) := by
  obtain ⟨s, h, hs⟩ := Lts.run_of_exec (M := (lts Solo.config).restrict fun _ a => Within 1 a) (s := init)
    (l := Solo.bind ++ Solo.call 0 0 (Solo.req 2 1) 1 [3] ++ Solo.call 0 0 (Solo.req 3 2) 2 [4])
    (f := fun s => decide ((s.srv ()).heap.length = 3 ∧ 0 ∈ (s.srv ()).freed ∧
      (s.srv ()).workers 0 = .idle)) rfl (by decide +kernel)
  obtain ⟨hlen, hf, h0⟩ := of_decide_eq_true hs
  refine ⟨_, s, h.of_restrict, hlen, hf, (buffers_reclaimed h.of_restrict ()).2 fun w => ?_⟩
  rcases Nat.eq_zero_or_pos w with rfl | hw
  · exact h0
  · exact idle_of_run h hw

end RpcNet
end StanDfs
