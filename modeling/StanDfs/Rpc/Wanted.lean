import StanDfs.Rpc.Lemmas.Bind
import StanDfs.Rpc.Lemmas.Buffers

/-!
# A reply still wanted is never forgotten

The floor of a client at a server came with a request, so it is not above the front of the client's window,
which is below every call that was neither replied to nor erased.
-/

namespace StanDfs

namespace Rpcc

variable {χ : Type*} {e : Env} {s s' : Rpcc χ}

/-- The call is in `calls_`, and `got_pdu` has processed no reply to it. -/
def Wanted (s : Rpcc χ) (x : UInt32) : Prop :=
  (s.calls.lookup x).isSome = true ∧ x ∉ s.replied

instance (s : Rpcc χ) (x : UInt32) : Decidable (s.Wanted x) := inferInstanceAs (Decidable (_ ∧ _))

/-- Nothing was reported about the call. -/
def Open (s : Rpcc χ) (x : UInt32) : Prop := x ≠ 0 ∧ x ∉ s.replied ∧ x ∉ s.left

theorem Wanted.open {x : UInt32} (h : s.Wanted x) (hv : Valid e s) : s.Open x := by
  obtain ⟨t, ht⟩ := Option.isSome_iff_exists.mp h.1
  obtain ⟨q, hq, rfl⟩ := hv.calls x t ht
  refine ⟨(hv.issued q (hv.inCall t q (active_inCall hq)).1).2.1, h.2, fun hl => ?_⟩
  rw [(hv.left _ hl).1] at ht
  cases ht

theorem Open.of_grows {x : UInt32} (h : s'.Open x) (hg : Grows s s') : s.Open x :=
  ⟨h.1, fun hr => h.2.1 (hg.replied hr), fun hl => h.2.2 (hg.left hl)⟩

/-- The window has not come to the call. -/
theorem Open.front_lt {x : UInt32} (h : s.Open x) (hv : Valid e s) : s.xidRepWindow.front < x := by
  by_contra hge
  have hpos : 0 < x := UInt32.pos_iff_ne_zero.mpr h.1
  rcases hv.window.below x hpos (UInt32.not_lt.mp hge) with hr | hl
  · exact h.2.1 hr
  · exact h.2.2 hl

end Rpcc

namespace Rpcs

variable {χ : Type*} {e : Env χ} {s : Rpcs χ}

/-- An entry that a check of `j` finds recorded is its answer. -/
theorem done_of_mem {t t' : ReplyTable} {n x r : UInt32} {st : Rpcstate} {freed : List Addr}
    {en : ReplyT} (h : ReplyTable.Checked t n x r st t' freed) (hd : t.Distinct)
    (hen : en ∈ t.replies n) (hx : en.xid = x) (hsz : en.sz ≠ -1) (hf : ¬ x < t.newFloor n r) :
    st = .done en.buf en.sz := by
  have hkept : ∀ {l kept removed freed} {en' : ReplyT}, t.replyWindow.lookup n = some l →
      ReplyTable.Swept (t.newFloor n r) l kept freed removed → en' ∈ kept → en'.xid = x → en' = en := by
    intro l kept removed freed en' hl hs hen' hx'
    have hm : en' ∈ t.replies n := by
      rw [ReplyTable.replies, hl]
      exact hs.sub.subset hen'
    exact hd.eq hm hen (hx'.trans hx.symm)
  cases h with
  | forgotten hlt => exact absurd hlt hf
  | inprogress _ hl hs hen' hx' hsz' =>
      rw [hkept hl hs hen' hx'] at hsz'
      exact absurd hsz' hsz
  | done _ hl hs hen' hx' => rw [hkept hl hs hen' hx']
  | new _ hl _ hne =>
      rw [ReplyTable.replies, hl] at hen
      exact absurd hx (hne en hen)

theorem table_answer (s : Rpcs χ) (w : Worker) (j : Job χ) (st : Rpcstate) :
    (s.answer w j st).table = s.table := by
  cases st with
  | done b sz => cases b <;> rfl
  | _ => rfl

/-- A recorded reply of another call stays, and the one of this call was not recorded before. -/
theorem entry_record {w : Worker} {j : Job χ} {b : Addr} {n : UInt32} {en : ReplyT}
    (hr : Recording s) (hn : j.nonce ≠ 0) (hw : s.workers w = .record j b)
    (hen : en ∈ s.table.replies n) :
    ∃ en' ∈ (s.record w j b).table.replies n, en'.xid = en.xid ∧ (en.sz ≠ -1 → en' = en) := by
  unfold record
  split
  · exact ⟨en, hen, rfl, fun _ => rfl⟩
  · rename_i t ht
    have hrec := ReplyTable.recorded (by omega) ht
    by_cases hk : n = j.nonce ∧ en.xid = j.xid
    · obtain ⟨rfl, hx⟩ := hk
      refine ⟨_, hrec.mem_self, hx.symm, fun hsz => ?_⟩
      obtain ⟨b', _, hmem⟩ := hr.table _ en hen hsz
      rw [hx] at hmem
      exact absurd (List.mem_map.mpr ⟨_, hmem, rfl⟩) (hr.busy w j (by rw [hw]; rfl) hn)
    · exact ⟨en, hrec.mem hen fun hnn hx => hk ⟨hnn, hx⟩, rfl, fun _ => rfl⟩

variable [DecidableEq χ]

theorem table_begin (s : Rpcs χ) (w : Worker) (c : χ) (b : Bytes) :
    (s.begin e w c b).table = s.table := by
  obtain ⟨_, _, _, _, heq⟩ := begin_eq (e := e) s w c b
  rw [heq]

/-- An entry stays that no check finds below the floor, and if it has a reply it does not change. -/
theorem entry_next {a : Act χ} (hs : Sourced e s s) (hr : Recording s) (hg : guard e s a) {n : UInt32}
    {en : ReplyT} (hen : en ∈ s.table.replies n)
    (hf : ∀ w j, a = .check w j → n = j.nonce → ¬ en.xid < s.table.newFloor j.nonce j.xidRep) :
    ∃ en' ∈ (s.next e a).table.replies n, en'.xid = en.xid ∧ (en.sz ≠ -1 → en' = en) := by
  have hsame {t : ReplyTable} (ht : t.replies n = s.table.replies n) :
      ∃ en' ∈ t.replies n, en'.xid = en.xid ∧ (en.sz ≠ -1 → en' = en) :=
    ⟨en, ht ▸ hen, rfl, fun _ => rfl⟩
  cases a with
  | gotPdu c b accept => cases accept <;> exact hsame rfl
  | begin w c b => exact hsame (by rw [next, table_begin])
  | seen w j => exact hsame (ReplyTable.replies_create ..)
  | save w j => exact hsame rfl
  | check w j =>
      simp only [next, check]
      split
      · exact hsame rfl
      · rename_i st t freed hc
        rw [table_answer]
        have hm := (ReplyTable.checked hc).mem hen (hf w j rfl)
        exact ⟨en, hm, rfl, fun _ => rfl⟩
  | handled w j ret body =>
      simp only [next, handled]
      split <;> exact hsame rfl
  | record w j b =>
      have hok := hs.workers w
      rw [hg.2] at hok
      exact entry_record hr hok.2.1 hg.2 hen
  | choose w j b =>
      simp only [next, choose]
      split <;> exact hsame rfl
  | tx w j c b sz ok => exact hsame rfl
  | sent w j c b sz => exact hsame rfl
  | txReply w j r ok => exact hsame rfl
  | die c => exact hsame rfl

theorem recorded_next {a : Act χ} {r : (UInt32 × UInt32) × Addr} (hr : r ∈ (s.next e a).recorded) :
    r ∈ s.recorded ∨
      ∃ en ∈ (s.next e a).table.replies r.1.1, en.xid = r.1.2 ∧ en.buf = some r.2 ∧ en.sz ≠ -1 := by
  revert hr
  cases a with
  | gotPdu c b accept => cases accept <;> exact .inl
  | begin w c b =>
      obtain ⟨_, _, _, _, heq⟩ := begin_eq (e := e) s w c b
      rw [next, heq]
      exact .inl
  | check w j =>
      obtain ⟨_, _, _, _, _, heq⟩ := check_eq s w j
      rw [next, heq]
      exact .inl
  | handled w j ret body =>
      simp only [next, handled]
      split <;> exact .inl
  | record w j b =>
      simp only [next, record]
      split
      · exact .inl
      · rename_i t ht
        have hrec := ReplyTable.recorded (by omega) ht
        intro hr
        rcases List.mem_append.mp hr with hr | hr
        · exact .inl hr
        · obtain rfl := List.mem_singleton.mp hr
          exact .inr ⟨_, hrec.mem_self, rfl, rfl, by simp⟩
  | choose w j b =>
      simp only [next, choose]
      split <;> exact .inl
  | _ => exact .inl

end Rpcs

namespace RpcNet

variable {κ ι : Type*} [DecidableEq κ] [DecidableEq ι] {g : Config κ ι} {s s' : RpcNet κ ι}

theorem xidRep_le_front {tr : List (Act κ ι)} (h : (unwrapped g).Run tr s) {k : κ} {i : ι}
    {j : Job (Conn κ ι)} (hn : g.cltNonce k ≠ 0) (hj : Rpcs.FromNet (s.srv i) j)
    (hk : j.nonce = g.cltNonce k) : j.xidRep ≤ (s.clt k).xidRepWindow.front := by
  obtain ⟨_, hq, hnonce⟩ := job_of_run h hj
  obtain rfl := g.clt_inj _ _ hn (hk.symm.trans hnonce)
  exact (valid_clt h _).floor j.req hq

/-- A check for a client leaves the floor below the client's open calls. -/
theorem newFloor_lt {tr : List (Act κ ι)} (h : (unwrapped g).Run tr s) {k : κ} {i : ι}
    {j : Job (Conn κ ι)} {x : UInt32} (hn : g.cltNonce k ≠ 0) (hj : Rpcs.FromNet (s.srv i) j)
    (hk : j.nonce = g.cltNonce k) (ho : (s.clt k).Open x) :
    (s.srv i).table.newFloor j.nonce j.xidRep < x := by
  refine UInt32.lt_of_le_of_lt ?_ (ho.front_lt (valid_clt h k))
  rcases ReplyTable.newFloor_eq (s.srv i).table j.nonce j.xidRep with heq | hold
  · rw [heq]
    exact xidRep_le_front h hn hj hk
  · obtain ⟨j', hj', hn', hx⟩ := (sourced_srv h.of_restrict i).floor _ _ hold
    rw [← hx]
    exact xidRep_le_front h hn hj' (hn'.trans hk)

theorem entry_kept {tr : List (Act κ ι)} (h : (unwrapped g).Run tr s) {a : Act κ ι} (hg : guard g s a)
    {k : κ} {i : ι} {en : ReplyT} (hn : g.cltNonce k ≠ 0) (ho : (s.clt k).Open en.xid)
    (hen : en ∈ (s.srv i).table.replies (g.cltNonce k)) :
    ∃ en' ∈ ((next g s a).srv i).table.replies (g.cltNonce k),
      en'.xid = en.xid ∧ (en.sz ≠ -1 → en' = en) := by
  cases a with
  | clt k' a => exact ⟨en, hen, rfl, fun _ => rfl⟩
  | srv i' a =>
      by_cases hi : i = i'
      · subst hi
        have hs := sourced_srv h.of_restrict i
        have hstep := Rpcs.entry_next hs (Rpcs.recording_of_run (srv_run h.of_restrict i)) hg.1 hen
          fun w j ha hk => by
            subst ha
            have hok := hs.workers w
            rw [hg.1.2] at hok
            have hlt := newFloor_lt h hn hok.1 hk.symm ho
            exact UInt32.not_lt.mpr (UInt32.le_of_lt hlt)
        simpa [next] using hstep
      · simp only [next, Function.update_of_ne hi]
        exact ⟨en, hen, rfl, fun _ => rfl⟩

/-- The entries of open calls have the replies that were recorded. -/
theorem recorded_of_run {tr : List (Act κ ι)} (h : (unwrapped g).Run tr s) {k : κ} {i : ι}
    (hn : g.cltNonce k ≠ 0) : ∀ x b, (s.clt k).Open x → ((g.cltNonce k, x), b) ∈ (s.srv i).recorded →
      ∃ en ∈ (s.srv i).table.replies (g.cltNonce k), en.xid = x ∧ en.buf = some b ∧ en.sz ≠ -1 := by
  induction h with
  | init h =>
      cases h
      intro x b _ hr
      cases hr
  | @step tr s a hrun hg ih =>
      intro x b ho hr
      have hgrow : Rpcc.Grows (s.clt k) ((next g s a).clt k) := grows_clt s a k
      have hold : ((g.cltNonce k, x), b) ∈ (s.srv i).recorded →
          ∃ en ∈ ((next g s a).srv i).table.replies (g.cltNonce k),
            en.xid = x ∧ en.buf = some b ∧ en.sz ≠ -1 := by
        intro hr
        obtain ⟨en, hen, rfl, hb, hsz⟩ := ih x b (ho.of_grows hgrow) hr
        obtain ⟨en', hen', _, heq⟩ := entry_kept hrun hg.1 hn (ho.of_grows hgrow) hen
        obtain rfl := heq hsz
        exact ⟨en', hen', rfl, hb, hsz⟩
      cases a with
      | clt k' a => exact hold hr
      | srv i' a =>
          by_cases hi : i = i'
          · subst hi
            simp only [unwrapped, Lts.restrict, lts, next, Function.update_self] at hr hold ⊢
            rcases Rpcs.recorded_next hr with hr | hnew
            · exact hold hr
            · exact hnew
          · simp only [unwrapped, Lts.restrict, lts, next, Function.update_of_ne hi] at hr hold ⊢
            exact hold hr

/-- What a server recorded and what its buffers hold stays. -/
theorem grows_later {tr late : List (Act κ ι)} (h : (lts g).Run tr s)
    (h' : (lts g).Run (late ++ tr) s') (i : ι) : Rpcs.Grows (s.srv i) (s'.srv i) := by
  refine h.later (R := fun s s' => Rpcs.Grows (s.srv i) (s'.srv i)) ?_ ?_ ?_ h'
  · rintro s s' rfl rfl
    rfl
  · exact fun s => .of_eq rfl rfl rfl rfl rfl rfl
  · intro s s' a hs _
    exact hs.trans (grows_srv s' a i)

/-- A check of an open call gets an answer, and it is not `FORGOTTEN`. -/
theorem check_of_open {tr : List (Act κ ι)} (h : (unwrapped g).Run tr s) {k : κ} {i : ι} {w : Worker}
    {j : Job (Conn κ ι)} {x : UInt32} (hn : g.cltNonce k ≠ 0) (ho : (s.clt k).Open x)
    (hg : guard g s (.srv i (.check w j))) (hj : j.key = (g.cltNonce k, x)) :
    ∃ st t freed, (s.srv i).table.checkduplicateAndUpdate j.nonce j.xid j.xidRep = some (st, t, freed) ∧
      ¬ j.xid < (s.srv i).table.newFloor j.nonce j.xidRep := by
  have hw : (s.srv i).workers w = .check j := hg.1.2
  have hok := (sourced_srv h.of_restrict i).workers w
  rw [hw] at hok
  obtain ⟨l, hl⟩ := (Rpcs.once_of_run (srv_run h.of_restrict i)).present w j (.inr hw)
  obtain ⟨hnonce, hx⟩ := Prod.mk.inj hj
  have hlt := newFloor_lt h hn hok.1 hnonce ho
  cases hc : (s.srv i).table.checkduplicateAndUpdate j.nonce j.xid j.xidRep with
  | none => exact absurd hc (ReplyTable.checkduplicateAndUpdate_ne_none hl)
  | some res =>
      obtain ⟨st, t, freed⟩ := res
      refine ⟨st, t, freed, rfl, ?_⟩
      rw [show j.xid = x from hx]
      exact UInt32.not_lt.mpr (UInt32.le_of_lt hlt)

/-- While a call is in `calls_` and no reply to it was processed, no copy of its request is `FORGOTTEN`, no
step removes its entry, and once its reply is recorded every copy is `DONE` with that reply. -/
theorem wanted_not_forgotten {tr late : List (Act κ ι)} (h : (lts g).Run tr s)
    (h' : (lts g).Run (late ++ tr) s') (hf : s'.FewCalls) {k : κ} {x : UInt32} (hr : g.retrans k = true)
    (hw : (s'.clt k).Wanted x) (i : ι) :
    (∀ w j, guard g s' (.srv i (.check w j)) → j.key = (g.cltNonce k, x) → ∃ st t freed,
      (s'.srv i).table.checkduplicateAndUpdate j.nonce j.xid j.xidRep = some (st, t, freed) ∧
        st ≠ .forgotten) ∧
    (∀ a, guard g s' a → ∀ en ∈ (s'.srv i).table.replies (g.cltNonce k), en.xid = x →
      ∃ en' ∈ ((next g s' a).srv i).table.replies (g.cltNonce k), en'.xid = x) ∧
    ∀ b, ((g.cltNonce k, x), b) ∈ (s.srv i).recorded →
      ∀ w j, guard g s' (.srv i (.check w j)) → j.key = (g.cltNonce k, x) → ∃ t freed,
        (s'.srv i).table.checkduplicateAndUpdate j.nonce j.xid j.xidRep
          = some (.done (some b) ((s.srv i).contents b).length, t, freed) ∧
        (s'.srv i).contents b = (s.srv i).contents b ∧ b ∉ (s'.srv i).freed := by
  have hn : g.cltNonce k ≠ 0 := (g.retrans_iff k).mp hr
  have hgrow := grows_later h h' i
  replace h' := hf.run h'
  have ho := hw.open (valid_clt h' k)
  refine ⟨fun w j hg hj => ?_, fun a hg en hen hx => ?_, fun b hb w j hg hj => ?_⟩
  · obtain ⟨st, t, freed, hc, hlt⟩ := check_of_open h' hn ho hg hj
    refine ⟨st, t, freed, hc, ?_⟩
    rintro rfl
    cases ReplyTable.checked hc with
    | forgotten hf => exact hlt hf
  · subst hx
    obtain ⟨en', hen', hx', _⟩ := entry_kept h' hg hn ho hen
    exact ⟨en', hen', hx'⟩
  · obtain ⟨st, t, freed, hc, hlt⟩ := check_of_open h' hn ho hg hj
    obtain ⟨hnonce, hx⟩ := Prod.mk.inj hj
    obtain ⟨en, hen, hex, hbuf, hsz⟩ := recorded_of_run h' hn x b ho (hgrow.recorded hb)
    rw [← hnonce] at hen
    have hst := Rpcs.done_of_mem (ReplyTable.checked hc) (Rpcs.once_of_run (srv_run h'.of_restrict i)).distinct
      hen (hex.trans hx.symm) hsz hlt
    obtain ⟨b', hb', hh⟩ := (sourced_srv h'.of_restrict i).table _ en hen hsz
    obtain rfl : b = b' := Option.some.inj (hbuf.symm.trans hb')
    have hsame := Rpcs.contents_mono ((Rpcs.owned_of_run (srv_run h i)).recorded_lt hb) hgrow
    have hfree := (Rpcs.owned_of_run (srv_run h'.of_restrict i)).not_freed_of_mem hen hbuf
    refine ⟨t, freed, ?_, hsame, hfree⟩
    rw [hc, hst, hbuf, hh.sz_eq, hsame]

/-- A second copy of a call finds the reply that was recorded for the first. -/
theorem wanted_not_forgotten_solo : ∃ tr s, (lts Solo.config).Run tr s ∧ ∃ w j,
    guard Solo.config s (.srv () (.check w j)) ∧ j.xid = 2 ∧ ∃ t freed,
      (s.srv ()).table.checkduplicateAndUpdate j.nonce j.xid j.xidRep
        = some (.done (some 1) 25, t, freed) := by
  let j : Job (Conn Unit Unit) := ⟨Solo.conn 1, Solo.req 2 1⟩
  let f : Call (Conn Unit Unit) := ⟨Solo.req 2 1, some (Solo.conn 0)⟩
  obtain ⟨s, hr, hs⟩ := Lts.run_of_exec (M := lts Solo.config) (s := init)
    (l := Solo.bind ++ (Solo.call 0 0 (Solo.req 2 1) 1 [3]).take 10 ++
      [.clt () (.die (Solo.conn 0)), .clt () (.timedout 0 f), .clt () (.isdead 0 f),
        .clt () (.getRefconn 0 f (some (Solo.conn 1))),
        .clt () (.tx 0 { f with ch := some (Solo.conn 1) } (Solo.conn 1) true)] ++
      (Solo.dispatch 1 j).dropLast)
    (f := fun s => decide (guard Solo.config s (.srv () (.check 1 j)) ∧ (s.clt ()).Wanted 2 ∧
      ((5, 2), 1) ∈ (s.srv ()).recorded ∧ ((s.srv ()).contents 1).length = 25 ∧
      (s.clt ()).issued.length < 2 ^ 32)) rfl (by decide +kernel)
  obtain ⟨hg, hw, hrec, hlen, hf⟩ := of_decide_eq_true hs
  have hlate : (lts Solo.config).Run ([] ++ _) s := hr
  obtain ⟨t, freed, hc, _⟩ :=
    (wanted_not_forgotten hr hlate (fun _ => hf) rfl hw ()).2.2 1 hrec 1 j hg (by decide)
  rw [hlen] at hc
  exact ⟨_, s, hr, 1, j, hg, by decide, t, freed, hc⟩

end RpcNet
end StanDfs
