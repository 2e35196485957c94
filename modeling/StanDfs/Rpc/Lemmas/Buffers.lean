import StanDfs.Rpc.Lemmas.Recording

/-!
# Who owns a reply buffer

A buffer that a handler returned belongs to its worker until its reply is recorded, or to the end of
`send` for a call without at-most-once logic. A recorded buffer belongs to the table until a check frees
it.
-/

namespace StanDfs

namespace ReplyTable

/-! ## The buffers of a table -/

/-- The buffers that `free_reply_window` would free. -/
def bufs (t : ReplyTable) : List Addr := t.freeReplyWindow.2

theorem mem_bufs {t : ReplyTable} {b : Addr} :
    b ∈ t.bufs ↔ ∃ n, ∃ e ∈ t.replies n, e.buf = some b := by
  constructor
  · intro h
    obtain ⟨⟨n, l⟩, hc, hb⟩ := List.mem_flatMap.mp h
    obtain ⟨e, he, hb⟩ := List.mem_filterMap.mp hb
    have hl : t.replyWindow.lookup n = some l := AList.mem_lookup_iff.mpr hc
    exact ⟨n, e, by rw [replies, hl]; exact he, hb⟩
  · rintro ⟨n, e, he, hb⟩
    rw [replies] at he
    cases hl : t.replyWindow.lookup n with
    | none =>
        rw [hl] at he
        cases he
    | some l =>
        rw [hl] at he
        exact List.mem_flatMap.mpr
          ⟨⟨n, l⟩, AList.mem_lookup_iff.mp hl, List.mem_filterMap.mpr ⟨e, he, hb⟩⟩

theorem bufs_insert {t : ReplyTable} {n : UInt32} (h : t.Present n) :
    ∃ rest, t.bufs.Perm ((t.replies n).filterMap ReplyT.buf ++ rest) ∧
      ∀ l f, (ReplyTable.mk (t.replyWindow.insert n l) f).bufs.Perm
        (l.filterMap ReplyT.buf ++ rest) := by
  obtain ⟨l, hl⟩ := h
  have hins : ∀ l f, (ReplyTable.mk (t.replyWindow.insert n l) f).bufs = l.filterMap ReplyT.buf ++
      (List.kerase n t.replyWindow.entries).flatMap fun c => c.2.filterMap ReplyT.buf := by
    intro l f
    rw [bufs, freeReplyWindow, AList.entries_insert, List.flatMap_cons]
  refine ⟨_, ?_, fun l f => .of_eq (hins l f)⟩
  have hsame : t.replyWindow.entries.Perm (t.replyWindow.insert n l).entries := by
    refine List.lookup_ext t.replyWindow.nodupKeys (t.replyWindow.insert n l).nodupKeys fun m l' => ?_
    show l' ∈ t.replyWindow.lookup m ↔ l' ∈ (t.replyWindow.insert n l).lookup m
    by_cases hm : m = n
    · subst hm
      rw [AList.lookup_insert, hl]
    · rw [AList.lookup_insert_ne hm]
  have hrep : t.replies n = l := by rw [replies, hl]; rfl
  rw [hrep, ← hins l t.rereplyWindow]
  exact hsame.flatMap_right _

theorem bufs_create (t : ReplyTable) (n : UInt32) : (t.create n).bufs = t.bufs := by
  unfold create
  split
  · rfl
  · rename_i h
    rw [bufs, freeReplyWindow, AList.entries_insert_of_notMem (AList.lookup_eq_none.mp h)]
    rfl

theorem Checked.bufs {t t' : ReplyTable} {n x r : UInt32} {st : Rpcstate} {freed : List Addr}
    (h : Checked t n x r st t' freed) : t.bufs.Perm (t'.bufs ++ freed) := by
  have hsweep : ∀ {l kept new : List ReplyT} {removed : List ReplyT}, t.replyWindow.lookup n = some l →
      Swept (t.newFloor n r) l kept freed removed → new.filterMap ReplyT.buf = kept.filterMap ReplyT.buf →
      t.bufs.Perm ((t.withReplies n r new).bufs ++ freed) := by
    intro l kept new removed hl hs hnew
    obtain ⟨rest, hold, hins⟩ := bufs_insert ⟨l, hl⟩
    have hrep : t.replies n = l := by rw [replies, hl]; rfl
    have hl' : (l.filterMap ReplyT.buf).Perm (kept.filterMap ReplyT.buf ++ freed) := by
      rw [hs.bufs, ← List.filterMap_append]
      exact hs.perm.filterMap _
    have hcomm : (kept.filterMap ReplyT.buf ++ freed ++ rest).Perm
        (kept.filterMap ReplyT.buf ++ rest ++ freed) := by
      rw [List.append_assoc, List.append_assoc]
      exact List.perm_append_comm.append_left _
    have hins := hins new (t.rereplyWindow.insert n (t.newFloor n r))
    rw [hnew] at hins
    rw [hrep] at hold
    exact ((hold.trans (hl'.append_right rest)).trans hcomm).trans (hins.symm.append_right freed)
  cases h with
  | forgotten => exact .of_eq (List.append_nil _).symm
  | inprogress _ hl hs => exact hsweep hl hs rfl
  | done _ hl hs => exact hsweep hl hs rfl
  | new _ hl hs => exact hsweep hl hs (by simp)

theorem Recorded.bufs {t t' : ReplyTable} {n x : UInt32} {b : Addr} {sz : Int}
    (h : Recorded t n x (some b) sz t') (hb : ∀ e ∈ t.replies n, e.xid = x → e.buf = none) :
    t'.bufs.Perm (b :: t.bufs) := by
  obtain ⟨rest, hold, hins⟩ := bufs_insert h.known
  obtain ⟨pre, e, post, hl, hx, hl'⟩ := h.split
  have hnone : e.buf = none := hb e (by rw [hl]; simp) hx
  have hins := hins (t'.replies n) t'.rereplyWindow
  rw [← h.insert] at hins
  have hnew : (t'.replies n).filterMap ReplyT.buf
      = pre.filterMap ReplyT.buf ++ b :: post.filterMap ReplyT.buf := by
    rw [hl']
    simp
  have hprev : (t.replies n).filterMap ReplyT.buf
      = pre.filterMap ReplyT.buf ++ post.filterMap ReplyT.buf := by
    rw [hl]
    simp [hnone]
  rw [hnew] at hins
  rw [hprev] at hold
  exact (hins.trans (List.perm_middle.append_right rest)).trans (hold.symm.cons b)

end ReplyTable

/-- The buffer a worker works with. -/
def Pc.buf {χ : Type*} : Pc χ → Option Addr
  | .record _ b | .choose _ b | .send _ _ b _ | .sending _ _ b _ => some b
  | _ => none

/-- The buffer that is only the worker's. -/
def Pc.own {χ : Type*} : Pc χ → Option Addr
  | .record _ b => some b
  | .choose j b | .send j _ b _ | .sending j _ b _ => if j.nonce = 0 then some b else none
  | _ => none

theorem Pc.buf_of_own {χ : Type*} {p : Pc χ} {b : Addr} (h : p.own = some b) : p.buf = some b := by
  cases p with
  | record j b' => exact h
  | choose j b' =>
      simp only [Pc.own] at h
      split at h
      · exact h
      · cases h
  | send j c b' sz =>
      simp only [Pc.own] at h
      split at h
      · exact h
      · cases h
  | sending j c b' sz =>
      simp only [Pc.own] at h
      split at h
      · exact h
      · cases h
  | _ => cases h

namespace Rpcs

variable {χ : Type*} {e : Env χ} {s s' : Rpcs χ}

/-- The buffers that the table has or that were freed. -/
def placed (s : Rpcs χ) : List Addr := s.table.bufs ++ s.freed

structure Owned (s : Rpcs χ) : Prop where
  nodup : s.placed.Nodup
  lt : ∀ b ∈ s.placed, b < s.heap.length
  own : ∀ w b, (s.workers w).own = some b →
    b < s.heap.length ∧ b ∉ s.placed ∧ ∀ w' ≠ w, (s.workers w').buf ≠ some b
  shared : ∀ w b, (s.workers w).buf = some b → (s.workers w).own = some b ∨ b ∈ s.placed
  recorded : ∀ r ∈ s.recorded, r.2 ∈ s.placed

theorem owned_init : Owned (init : Rpcs χ) where
  nodup := List.nodup_nil
  lt b hb := by cases hb
  own w b hb := by cases hb
  shared w b hb := by cases hb
  recorded r hr := by cases hr

theorem Owned.buf_lt (h : Owned s) {w : Worker} {b : Addr} (hb : (s.workers w).buf = some b) :
    b < s.heap.length := by
  rcases h.shared w b hb with ho | hp
  · exact (h.own w b ho).1
  · exact h.lt b hp

theorem Owned.recorded_lt (h : Owned s) {x : UInt32 × UInt32} {b : Addr} (hb : (x, b) ∈ s.recorded) :
    b < s.heap.length :=
  h.lt b (h.recorded _ hb)

theorem Owned.not_freed_of_mem (h : Owned s) {n : UInt32} {en : ReplyT} {b : Addr}
    (hen : en ∈ s.table.replies n) (hb : en.buf = some b) : b ∉ s.freed :=
  fun hf => (List.nodup_append.mp h.nodup).2.2 b (ReplyTable.mem_bufs.mpr ⟨n, en, hen, hb⟩) b hf rfl

theorem Owned.setWorker {w : Worker} {p : Pc χ} (h : Owned s)
    (hbuf : ∀ b, p.buf = some b → p.own = some b ∨ b ∈ s.placed)
    (hown : ∀ b, p.own = some b →
      b < s.heap.length ∧ b ∉ s.placed ∧ ∀ w' ≠ w, (s.workers w').buf ≠ some b)
    (hother : ∀ b, p.buf = some b → ∀ w' ≠ w, (s.workers w').own ≠ some b) :
    Owned (s.setWorker w p) := by
  have hself : (s.setWorker w p).workers w = p := by simp [Rpcs.setWorker]
  have hrest : ∀ w' ≠ w, (s.setWorker w p).workers w' = s.workers w' := fun w' hw => by
    simp [Rpcs.setWorker, Function.update_of_ne hw]
  refine ⟨h.nodup, h.lt, fun w' b hb => ?_, fun w' b hb => ?_, h.recorded⟩
  · by_cases hw : w' = w
    · subst hw
      rw [hself] at hb
      obtain ⟨hlt, hp, ho⟩ := hown b hb
      exact ⟨hlt, hp, fun w'' hw'' => by rw [hrest w'' hw'']; exact ho w'' hw''⟩
    · rw [hrest w' hw] at hb
      obtain ⟨hlt, hp, ho⟩ := h.own w' b hb
      refine ⟨hlt, hp, fun w'' hw'' => ?_⟩
      by_cases hww : w'' = w
      · subst hww
        rw [hself]
        exact fun hpb => hother b hpb w' hw hb
      · rw [hrest w'' hww]
        exact ho w'' hw''
  · by_cases hw : w' = w
    · subst hw
      rw [hself] at hb ⊢
      exact hbuf b hb
    · rw [hrest w' hw] at hb ⊢
      exact h.shared w' b hb

theorem Owned.drop {w : Worker} {p : Pc χ} (h : Owned s) (hp : p.buf = none) :
    Owned (s.setWorker w p) := by
  have hnone : ∀ {b}, p.buf ≠ some b := by
    intro b hb
    rw [hp] at hb
    cases hb
  exact h.setWorker (fun b hb => absurd hb hnone) (fun b hb => absurd (Pc.buf_of_own hb) hnone)
    fun b hb => absurd hb hnone

theorem Owned.keep {w : Worker} {p : Pc χ} (h : Owned s) (hb : p.buf = (s.workers w).buf)
    (ho : p.own = (s.workers w).own) : Owned (s.setWorker w p) := by
  refine h.setWorker (fun b hpb => ?_) (fun b hpo => ?_) fun b hpb w' hw hwo => ?_
  · rw [ho]
    exact h.shared w b (hb ▸ hpb)
  · exact h.own w b (ho ▸ hpo)
  · exact (h.own w' b hwo).2.2 w (Ne.symm hw) (hb ▸ hpb)

theorem Owned.of_perm (h : Owned s) (hp : s'.placed.Perm s.placed) (hw : s'.workers = s.workers)
    (hh : s'.heap = s.heap) (hr : s'.recorded = s.recorded) : Owned s' where
  nodup := hp.nodup_iff.mpr h.nodup
  lt b hb := hh ▸ h.lt b (hp.mem_iff.mp hb)
  own w b hb := by
    rw [hw] at hb ⊢
    obtain ⟨hlt, hn, ho⟩ := h.own w b hb
    exact ⟨hh ▸ hlt, fun hm => hn (hp.mem_iff.mp hm), ho⟩
  shared w b hb := by
    rw [hw] at hb ⊢
    exact (h.shared w b hb).imp_right hp.mem_iff.mpr
  recorded r hrec := hp.mem_iff.mpr (h.recorded r (hr ▸ hrec))

/-- A buffer that no worker has goes to the table or is freed. -/
theorem Owned.place {b : Addr} (h : Owned s) (hlt : b < s.heap.length) (hn : b ∉ s.placed)
    (hb : ∀ w, (s.workers w).buf ≠ some b) (hp : s'.placed.Perm (b :: s.placed))
    (hw : s'.workers = s.workers) (hh : s'.heap = s.heap)
    (hr : ∀ r ∈ s'.recorded, r ∈ s.recorded ∨ r.2 = b) : Owned s' where
  nodup := hp.nodup_iff.mpr (List.nodup_cons.mpr ⟨hn, h.nodup⟩)
  lt b' hb' := by
    rw [hh]
    rcases List.mem_cons.mp (hp.mem_iff.mp hb') with rfl | hb'
    · exact hlt
    · exact h.lt b' hb'
  own w b' hb' := by
    rw [hw] at hb' ⊢
    obtain ⟨hlt', hn', ho⟩ := h.own w b' hb'
    refine ⟨hh ▸ hlt', fun hm => ?_, ho⟩
    rcases List.mem_cons.mp (hp.mem_iff.mp hm) with rfl | hm
    · exact hb w (Pc.buf_of_own hb')
    · exact hn' hm
  shared w b' hb' := by
    rw [hw] at hb' ⊢
    exact (h.shared w b' hb').imp_right fun hm => hp.mem_iff.mpr (List.mem_cons_of_mem _ hm)
  recorded r hrec := by
    rcases hr r hrec with hrec | heq
    · exact hp.mem_iff.mpr (List.mem_cons_of_mem _ (h.recorded r hrec))
    · exact hp.mem_iff.mpr (heq ▸ List.mem_cons_self)

theorem mem_bufs_of_done {t t' : ReplyTable} {n x r : UInt32} {b : Addr} {sz : Int} {freed : List Addr}
    (h : ReplyTable.Checked t n x r (.done (some b) sz) t' freed) : b ∈ t'.bufs := by
  generalize hb : some b = ob at h
  cases h with
  | done _ _ _ he =>
      exact ReplyTable.mem_bufs.mpr ⟨n, _, by rw [ReplyTable.replies_withReplies]; exact he, hb.symm⟩

theorem Owned.check {w : Worker} {j : Job χ} (h : Owned s) (hn : j.nonce ≠ 0) :
    Owned (s.check w j) := by
  unfold Rpcs.check
  split
  · exact h.of_perm (.refl _) rfl rfl rfl
  · rename_i st t freed hc
    have hck := ReplyTable.checked hc
    have hperm : (t.bufs ++ (s.freed ++ freed)).Perm s.placed := by
      rw [placed]
      refine .trans ?_ (hck.bufs.symm.append_right s.freed)
      rw [List.append_assoc]
      exact List.perm_append_comm.append_left _
    have h' : Owned { s with table := t, freed := s.freed ++ freed } := h.of_perm hperm rfl rfl rfl
    cases st with
    | new =>
        have h'' := h'.drop (w := w) (p := .running j) rfl
        exact { h'' with }
    | inprogress => exact h'.drop rfl
    | done b sz =>
        cases b with
        | none => exact h'.of_perm (.refl _) rfl rfl rfl
        | some b =>
            have hp : b ∈ ({ s with table := t, freed := s.freed ++ freed } : Rpcs χ).placed :=
              List.mem_append_left _ (mem_bufs_of_done hck)
            refine h'.setWorker (fun b' hb' => ?_) (fun b' hb' => ?_) fun b' hb' w' _ hw' => ?_
            · cases hb'
              exact .inr hp
            · simp [Pc.own, hn] at hb'
            · cases hb'
              exact (h'.own w' b hw').2.1 hp
    | forgotten => exact h'.drop rfl

/-- The buffer of a handler's reply is new. -/
theorem Owned.handled {w : Worker} {j : Job χ} {ret : Int32} {body : Bytes} (h : Owned s) :
    Owned (s.handled w j ret body) := by
  have h' : Owned { s with
      heap := s.heap ++ [(Result.mk j ret body).buf]
      results := s.results ++ [Result.mk j ret body] } :=
    { h with
      lt := fun b hb => Nat.lt_of_lt_of_le (h.lt b hb) (by simp)
      own := fun w b hb => ⟨Nat.lt_of_lt_of_le (h.own w b hb).1 (by simp), (h.own w b hb).2⟩ }
  have hnew : s.heap.length ∉ s.placed := fun hm => Nat.lt_irrefl _ (h.lt _ hm)
  have hbuf : ∀ w', (s.workers w').buf ≠ some s.heap.length := fun w' hb =>
    Nat.lt_irrefl _ (h.buf_lt hb)
  have hset : ∀ p : Pc χ, p.buf = some s.heap.length → p.own = some s.heap.length →
      Owned (Rpcs.setWorker { s with
        heap := s.heap ++ [(Result.mk j ret body).buf]
        results := s.results ++ [Result.mk j ret body] } w p) := by
    intro p hp ho
    refine h'.setWorker (fun b hb => .inl ?_) (fun b hb => ?_) fun b hb w' _ hw' => ?_
    · rw [ho, ← hp, hb]
    · rw [ho] at hb
      cases hb
      exact ⟨by simp, hnew, fun w' _ => hbuf w'⟩
    · rw [hp] at hb
      cases hb
      exact hbuf w' (Pc.buf_of_own hw')
  simp only [Rpcs.handled]
  split
  · exact hset _ rfl rfl
  · rename_i hn
    exact hset _ rfl (by simpa [Pc.own] using hn)

theorem Owned.record {w : Worker} {j : Job χ} {b : Addr} (h : Owned s) (hr : Recording s)
    (hn : j.nonce ≠ 0) (hw : s.workers w = .record j b) : Owned (s.record w j b) := by
  unfold Rpcs.record
  split
  · exact h.of_perm (.refl _) rfl rfl rfl
  · rename_i t ht
    have hrec := ReplyTable.recorded (by omega) ht
    have hnone := hr.pending_of_busy hn (by rw [hw]; rfl)
    obtain ⟨hlt, hp, ho⟩ := h.own w b (by rw [hw]; rfl)
    have hperm : (t.bufs ++ s.freed).Perm (b :: s.placed) :=
      (hrec.bufs hnone).append_right s.freed
    have hidle : ∀ w', ((s.setWorker w .idle).workers w').buf ≠ some b := by
      intro w'
      by_cases hww : w' = w
      · subst hww
        simp [Rpcs.setWorker, Pc.buf]
      · simpa [Rpcs.setWorker, Function.update_of_ne hww] using ho w' hww
    have hplace : Owned { s.setWorker w .idle with
        table := t
        recorded := s.recorded ++ [(j.key, b)] } :=
      (h.drop (w := w) (p := .idle) rfl).place hlt hp hidle hperm rfl rfl fun r hrm => by
        rcases List.mem_append.mp hrm with hrm | hrm
        · exact .inl hrm
        · exact .inr (by rw [List.mem_singleton.mp hrm])
    have hin : b ∈ t.bufs ++ s.freed := hperm.mem_iff.mpr List.mem_cons_self
    have hset := hplace.setWorker (w := w) (p := .choose j b)
      (fun b' hb' => by
        cases hb'
        exact .inr hin)
      (fun b' hb' => by simp [Pc.own, hn] at hb')
      fun b' hb' w' _ hw' => by
        cases hb'
        exact hidle w' (Pc.buf_of_own hw')
    simpa [Rpcs.setWorker] using hset

/-- The buffer of a call without at-most-once logic is freed after `send`. -/
theorem Owned.sent {w : Worker} {j : Job χ} {c : χ} {b : Addr} {sz : Int} (h : Owned s)
    (hw : s.workers w = .sending j c b sz) : Owned { s.setWorker w .idle with
      freed := if j.nonce = 0 then s.freed ++ [b] else s.freed } := by
  have h' := h.drop (w := w) (p := .idle) rfl
  by_cases hn : j.nonce = 0
  · obtain ⟨hlt, hp, ho⟩ := h.own w b (by rw [hw]; simp [Pc.own, hn])
    refine h'.place hlt hp (fun w' => ?_) ?_ rfl rfl fun r hr => .inl hr
    · by_cases hww : w' = w
      · subst hww
        simp [Rpcs.setWorker, Pc.buf]
      · simpa [Rpcs.setWorker, Function.update_of_ne hww] using ho w' hww
    · simp only [placed, hn, ↓reduceIte, ← List.append_assoc]
      exact List.perm_append_singleton _ _
  · simp only [if_neg hn]
    exact h'

variable [DecidableEq χ]

theorem Owned.begin {w : Worker} {c : χ} {b : Bytes} (h : Owned s) : Owned (s.begin e w c b) := by
  have h' : Owned { s with jobs := s.jobs.erase (c, b) } := { h with }
  unfold Rpcs.begin
  split
  · exact h'
  · simp only
    split
    · exact h'.drop rfl
    · split
      · exact h'
      · split
        · exact { h'.drop (w := w) (p := .seen _) rfl with }
        · exact { h'.drop (w := w) (p := .running _) rfl with }

theorem Owned.step {a : Act χ} (h : Owned s) (hs : Sourced e s s) (hr : Recording s)
    (hg : guard e s a) : Owned (s.next e a) := by
  cases a with
  | gotPdu c b accept =>
      cases accept with
      | false => exact h
      | true => exact { h with }
  | begin w c b => exact h.begin
  | seen w j =>
      have h' : Owned { s with table := s.table.create j.nonce } := by
        refine h.of_perm (.of_eq ?_) rfl rfl rfl
        rw [placed, placed, ReplyTable.bufs_create]
      exact h'.drop rfl
  | save w j => exact { h.drop (w := w) (p := .check j) rfl with }
  | check w j =>
      have hok := hs.workers w
      rw [hg.2] at hok
      exact h.check hok.2.2
  | handled w j ret body => exact h.handled
  | record w j b =>
      have hok := hs.workers w
      rw [hg.2] at hok
      exact h.record hr hok.2.1 hg.2
  | choose w j b =>
      simp only [next, choose]
      split
      · exact { h with }
      · exact h.keep (by rw [hg.2]; rfl) (by rw [hg.2]; rfl)
  | tx w j c b sz ok =>
      exact { h.keep (w := w) (p := .sending j c b sz) (by rw [hg.2.1]; rfl) (by rw [hg.2.1]; rfl) with }
  | sent w j c b sz => exact h.sent hg.2
  | txReply w j r ok => exact h.drop rfl
  | die c => exact { h with }

theorem owned_of_run {tr : List (Act χ)} (h : (lts e).Run tr s) : Owned s := by
  refine h.invariant (I := fun _ s => Owned s) ?_ ?_
  · rintro s rfl
    exact owned_init
  · intro tr s a hr hs hg
    exact hs.step (sourced_of_run hr) (recording_of_run hr) hg

end Rpcs
end StanDfs
