import StanDfs.Process.References

/-!
# What holds in every run

The mutexes that each thread has are those its next operations expect, and what it knows about the connections
is not changed by the others, since they have other mutexes.
-/

namespace StanDfs

namespace Process

open Function (update)

variable {χ κ : Type*} [DecidableEq χ] [DecidableEq κ] {mgr : χ → Option κ} {s s' : Process χ κ} {d' : Data χ κ}
  {t t' : Thr} {x : Choice χ} {Γ : Ctx χ κ} {op : Op χ κ}

/-! ## The changes that an operation makes -/

theorem change_exec (hf : op.Fits mgr t Γ) (hfact : Fact mgr s t op) (hheld : ∀ m ∈ Γ.held, s.locked m = some t)
    (hp : s.data.pdu t = Γ.pdu) (hc : s.data.calls t = Γ.call) :
    Change mgr s t (exec mgr s.data t x op).1 := by
  cases op with
  | closing c =>
      obtain ⟨hh, hp', _⟩ := hf
      simp only [exec]
      split
      · exact .same
      · exact .die (hheld _ (by simp [hh])) (hp.trans hp')
  | sendWait c =>
      obtain ⟨hh, hp', _⟩ := hf
      simp only [exec]
      repeat' split
      · exact .same
      · exact .same
      · exact .die (hheld _ (by simp [hh])) (hp.trans hp')
      · exact .same
      · exact .same
  | setDead c =>
      obtain ⟨hh, hp'⟩ := hf
      exact .die (hheld _ (by simp [hh])) (hp.trans hp')
  | closingListed c =>
      obtain ⟨rfl, _⟩ := hf
      simp only [exec]
      split
      · exact .same
      · exact .die (hheld _ (by simp)) hp
  | lastLook c =>
      simp only [exec]
      split
      · rename_i hd
        exact .delete hfact.1.1 hfact.1.2.1 hfact.1.2.2 hd hfact.2
      · exact .same
  | refInc c o => exact .inc hfact.1.1 hfact.1.2 hfact.2
  | refDec c o => exact .dec hfact.1.1 hfact.1.2 hfact.2
  | readBody c =>
      obtain ⟨hh, _⟩ := hf
      simp only [exec]
      repeat' split
      · exact .same
      · exact .same
      · rename_i hd _
        exact .give hfact (by simpa using hd) (hheld _ (by simp [hh]))
      · exact .same
  | writeBody c =>
      simp only [exec]
      repeat' split
      · exact .abort
      · exact .same
      · exact .same
      · exact .same
  | readDone c => exact .given
  | register k =>
      obtain ⟨rfl, _⟩ := hf
      simp only [exec]
      split
      · exact .same
      · exact .register hc
  | erase k =>
      obtain ⟨rfl, _⟩ := hf
      exact .erase hc (hheld _ (by simp))
  | dropChan k =>
      obtain ⟨hh, _⟩ := hf
      simp only [exec]
      split
      · exact .dropChan (hheld _ (by simp [hh]))
      · exact .same
  | connect k =>
      obtain ⟨hh, _⟩ := hf
      simp only [exec]
      repeat' split
      · rename_i hc
        exact .connect hc.1 hc.2 (hheld _ (by simp [hh]))
      · exact .same
      · exact .same
  | dropOwn =>
      simp only [exec]
      split
      · exact .lose
      · exact .same
  | giveBack c =>
      simp only [exec]
      split
      · exact .lose
      · exact .same
  | forget => exact .lose
  | enq c =>
      simp only [exec]
      repeat' split
      · exact .same
      · rename_i ho
        exact .enq ho
      · exact .same
  | deq =>
      simp only [exec]
      split
      · exact .same
      · rename_i hj
        exact .deq hj
  | dropLatest n =>
      obtain ⟨rfl, _⟩ := hf
      simp only [exec]
      split
      · exact .dropLatest (hheld _ (by simp))
      · exact .same
  | adoptLatest n =>
      simp only [exec]
      split
      · exact .same
      · exact .abort
  | accept =>
      simp only [exec]
      repeat' split
      · rename_i hc
        exact .accept hf.2 hc.1 hc.2
      · exact .same
      · exact .same
      · exact .same
  | unlist c =>
      simp only [exec]
      split
      · exact .unlist hf.2
      · exact .same
  | nextErased => exact .abort
  | _ =>
      simp only [exec]
      repeat' split
      all_goals exact .same

/-! ## What a change leaves alone -/

/-- No connection comes back to life or is forgotten. -/
theorem Change.dead (h : Change mgr s t d') {c : χ} (hd : s.data.dead c = true) : d'.dead c = true := by
  cases h with
  | @die c' _ _ =>
      by_cases hc : c = c'
      · subst hc
        simp [Data.setDead]
      · simpa [Data.setDead, Function.update_of_ne hc] using hd
  | _ => exact hd

theorem Change.known (h : Change mgr s t d') {c : χ} (hk : c ∈ s.data.known) : c ∈ d'.known := by
  cases h with
  | connect _ _ _ => exact List.mem_cons_of_mem _ hk
  | accept _ _ _ => exact List.mem_cons_of_mem _ hk
  | _ => exact hk

theorem Change.own (h : Change mgr s t d') (ht : t' ≠ t) : d'.own t' = s.data.own t' := by
  cases h with
  | inc _ ho _ =>
      rename_i c o _ _
      cases o with
      | thread t₁ =>
          cases ho
          simp [Data.refInc, Function.update_of_ne ht]
      | _ => rfl
  | lose => simp [Data.setOwn, Function.update_of_ne ht]
  | enq _ => simp [Data.setOwn, Data.pass, Function.update_of_ne ht]
  | deq _ => simp [Data.setOwn, Data.pass, Function.update_of_ne ht]
  | destroy _ _ => simp [Data.setOwn, Data.pass, Function.update_of_ne ht]
  | _ => rfl

theorem Change.pdu (h : Change mgr s t d') (ht : t' ≠ t) : d'.pdu t' = s.data.pdu t' := by
  cases h with
  | give _ _ _ => simp [Function.update_of_ne ht]
  | given => simp [Function.update_of_ne ht]
  | _ => rfl

theorem Change.calls (h : Change mgr s t d') (ht : t' ≠ t) : d'.calls t' = s.data.calls t' := by
  cases h with
  | register _ => simp [Function.update_of_ne ht]
  | erase _ _ => simp [Function.update_of_ne ht]
  | _ => rfl

/-- `chan_` is another thread's while it has `chan_m_`. -/
theorem Change.chan (h : Change mgr s t d') {k : κ} (ht : t' ≠ t) (hk : s.locked (.chan k) = some t') :
    d'.chan k = s.data.chan k := by
  have hne : ∀ {k'}, s.locked (.chan k') = some t → k ≠ k' := by
    rintro k' hk' rfl
    cases hk.symm.trans hk'
    exact ht rfl
  cases h with
  | dropChan hk' => simp [Function.update_of_ne (hne hk')]
  | connect _ _ hk' => simp [Function.update_of_ne (hne hk')]
  | @destroy k' c _ hk' =>
      have hne' : k ≠ k' := by
        rintro rfl
        cases hk.symm.trans hk'
      simp [Function.update_of_ne hne']
  | _ => rfl

theorem Change.conns (h : Change mgr s t d') {n : UInt32} (ht : t' ≠ t) (hk : s.locked .conss = some t') :
    d'.conns n = s.data.conns n := by
  have hne : s.locked .conss ≠ some t := by
    intro hk'
    cases hk.symm.trans hk'
    exact ht rfl
  cases h with
  | inc _ ho _ =>
      rename_i c o _ _
      cases o with
      | latest n' => exact absurd ho hne
      | _ => rfl
  | dropLatest hk' => exact absurd hk' hne
  | _ => rfl

theorem Change.refno (h : Change mgr s t d') {c : χ} (ht : t' ≠ t) (hk : s.locked (.ref c) = some t')
    (hc : c ∈ s.data.known) : d'.refno c = s.data.refno c := by
  have hne : ∀ {c'}, s.locked (.ref c') = some t → c ≠ c' := by
    rintro c' hk' rfl
    cases hk.symm.trans hk'
    exact ht rfl
  have hnew : ∀ {c'}, c' ∉ s.data.known → c ≠ c' := by
    rintro c' hc' rfl
    exact hc' hc
  cases h with
  | inc _ _ hk' => simp [Data.refInc, Function.update_of_ne (hne hk')]
  | dec _ _ hk' => simp [Data.refDec, Function.update_of_ne (hne hk')]
  | connect hf _ _ => simp [Data.make, Function.update_of_ne (hnew hf)]
  | accept _ hf _ => simp [Data.make, Function.update_of_ne (hnew hf)]
  | _ => rfl

/-- Nobody else deletes a connection whose `ref_m_` a thread has. -/
theorem Change.deleted (h : Change mgr s t d') {c : χ} (ht : t' ≠ t) (hk : s.locked (.ref c) = some t')
    (hn : c ∉ s.data.deleted) : c ∉ d'.deleted := by
  cases h with
  | @delete c' _ _ _ _ hk' =>
      have hcc : c ≠ c' := by
        rintro rfl
        cases hk.symm.trans hk'
        exact ht rfl
      simpa [hcc] using hn
  | _ => exact hn

theorem Change.listed (h : Change mgr s t d') (ht : t ≠ .listener) : d'.listed = s.data.listed := by
  cases h with
  | accept hl _ _ => exact absurd hl ht
  | unlist hl => exact absurd hl ht
  | _ => rfl

/-- A reference that is another thread's to give back stays. -/
theorem Change.owners (h : Change mgr s t d') (hb : Books mgr s.data) {c : χ} {o : Owner κ} (ht : t' ≠ t)
    (hg : Gone s t' c o) (ho : o ∈ s.data.owners c) : o ∈ d'.owners c := by
  have hthread : o ≠ .thread t := by
    rintro rfl
    exact ht hg.1.symm
  cases h with
  | inc _ _ _ => exact mem_refInc ho
  | @dec c₁ o₁ _ hg₁ _ =>
      refine mem_refDec ho ?_
      rintro rfl rfl
      cases o with
      | thread t₁ => exact ht (hg.1.symm.trans hg₁.1)
      | chan k => exact ht (Option.some.inj (hg.1.symm.trans hg₁.1))
      | latest n => exact ht (Option.some.inj (hg.1.symm.trans hg₁.1))
      | listed => exact ht (hg.1.trans hg₁.1.symm)
      | job => exact hg
  | connect hf _ _ => exact hb.mem_make hf ho
  | accept _ hf _ => exact hb.mem_make hf ho
  | enq _ => exact mem_pass ho fun _ => hthread
  | deq _ => exact mem_pass ho fun _ => hg.job_ne
  | @destroy k _ _ hk =>
      refine mem_pass ho fun _ => ?_
      rintro rfl
      cases hg.1.symm.trans hk
  | _ => exact ho

/-- A call that a thread finds in `calls_` stays there while the thread has `m_`. -/
theorem Change.calls_kept (h : Change mgr s t d') {t₁ : Thr} {k : κ} (ht : t' ≠ t)
    (hc : s.data.calls t₁ = some k) (hk : s.locked (.rpcc k) = some t') : d'.calls t₁ = some k := by
  by_cases ht₁ : t₁ = t
  · subst ht₁
    cases h with
    | register hn => cases hn.symm.trans hc
    | erase hc' hk' =>
        cases hc'.symm.trans hc
        exact absurd (Option.some.inj (hk.symm.trans hk')) ht
    | _ => exact hc
  · rw [h.calls ht₁, hc]

/-! ## What the threads know -/

section

variable (hl : ∀ m, s.locked m = some t' → s'.locked m = some t')

include hl in
theorem Covered.other {c : χ} (h : Covered mgr s t' c) (hch : Change mgr s t s'.data) (ht : t' ≠ t) :
    Covered mgr s' t' c := by
  rcases h with h | ⟨k, h, hk⟩ | ⟨n, h, hk⟩ | ⟨h, hm⟩
  · exact .inl ((hch.own ht).trans h)
  · exact .inr (.inl ⟨k, (hch.chan ht hk).trans h, hl _ hk⟩)
  · exact .inr (.inr (.inl ⟨n, (hch.conns ht hk).trans h, hl _ hk⟩))
  · exact .inr (.inr (.inr ⟨(hch.pdu ht).trans h, hm⟩))

include hl in
omit [DecidableEq χ] [DecidableEq κ] in
theorem Mine.other {o : Owner κ} (h : Mine s t' o) : Mine s' t' o := by
  cases o with
  | latest n => exact hl _ h
  | _ => exact h

include hl in
theorem Gone.other {c : χ} {o : Owner κ} (h : Gone s t' c o) (hch : Change mgr s t s'.data) (ht : t' ≠ t) :
    Gone s' t' c o := by
  cases o with
  | thread t₁ => exact ⟨h.1, (hch.own ht).trans h.2⟩
  | chan k => exact ⟨hl _ h.1, (hch.chan ht h.1).trans h.2⟩
  | latest n => exact ⟨hl _ h.1, (hch.conns ht h.1).trans h.2⟩
  | listed =>
      obtain ⟨rfl, hn, hd⟩ := h
      exact ⟨rfl, hch.listed ht.symm ▸ hn, hch.dead hd⟩
  | job => exact h

include hl in
/-- What a thread knows stays while the others go on. -/
theorem Fact.other (h : Fact mgr s t' op) (hb : Books mgr s.data) (hch : Change mgr s t s'.data) (ht : t' ≠ t) :
    Fact mgr s' t' op := by
  cases op with
  | incref c o => exact ⟨h.1.other hl hch ht, h.2.other hl⟩
  | refInc c o => exact ⟨⟨h.1.1.other hl hch ht, h.1.2.other hl⟩, hl _ h.2⟩
  | decref c o => exact ⟨hch.owners hb ht h.2 h.1, h.2.other hl hch ht⟩
  | refDec c o => exact ⟨⟨hch.owners hb ht h.1.2 h.1.1, h.1.2.other hl hch ht⟩, hl _ h.2⟩
  | lockLast c | lastLook c =>
      obtain ⟨⟨hk, hr, hn⟩, hm⟩ := h
      exact ⟨⟨hch.known hk, (hch.refno ht hm hk).trans hr, hch.deleted ht hm hn⟩, hl _ hm⟩
  | lookRef c =>
      obtain ⟨rfl, hm, hd⟩ := h
      exact ⟨rfl, hch.listed ht.symm ▸ hm, hch.dead hd⟩
  | readRef c | seeRef c | unlist c => exact hch.dead h
  | signal k t₁ => exact ⟨hch.calls_kept ht h.1 h.2, hl _ h.2⟩
  | readCb c | readBody c => exact hch.known h
  | _ => trivial

end

/-- What is known at a plain operation cannot change. -/
theorem Fact.plain (h : Fact mgr s t op) (hp : op.plain = true) (hch : Change mgr s t' s'.data) :
    Fact mgr s' t op := by
  cases op with
  | incref c o | refInc c o | decref c o | refDec c o | lockLast c | lastLook c | lookRef c | readRef c
  | signal k t₁ => cases hp
  | seeRef c | unlist c => exact hch.dead h
  | readCb c | readBody c => exact hch.known h
  | _ => trivial

/-- Only the first operation that an operation goes on with needs more than its mutexes. -/
theorem exec_plain (mgr : χ → Option κ) (d : Data χ κ) (t : Thr) (x : Choice χ) (op : Op χ κ) :
    ∀ op' ∈ (exec mgr d t x op).2.tail, op'.plain = true := by
  cases op with
  | callbacks =>
      simp only [exec]
      split
      · intro op' hm
        rcases List.mem_append.mp (List.mem_of_mem_tail hm) with hm | hm
        · obtain ⟨c, _, rfl⟩ := List.mem_map.mp hm
          split <;> rfl
        · rw [List.mem_singleton.mp hm]
          rfl
      · simp
  | _ =>
      simp only [exec]
      repeat' split
      all_goals simp [Op.plain]

omit [DecidableEq χ] [DecidableEq κ] in
theorem Covered.keep {c : χ} (h : Covered mgr s t c) (hd : s'.data = s.data)
    (hl : ∀ m, s.locked m = some t → s'.locked m = some t) : Covered mgr s' t c := by
  rw [Covered, hd]
  exact h.imp_right fun h => h.imp (fun ⟨k, h, hk⟩ => ⟨k, h, hl _ hk⟩) fun h =>
    h.imp_left fun ⟨n, h, hk⟩ => ⟨n, h, hl _ hk⟩

omit [DecidableEq χ] [DecidableEq κ] in
theorem Gone.keep {c : χ} {o : Owner κ} (h : Gone s t c o) (hd : s'.data = s.data)
    (hl : ∀ m, s.locked m = some t → s'.locked m = some t) : Gone s' t c o := by
  cases o with
  | thread t₁ => exact ⟨h.1, by rw [hd]; exact h.2⟩
  | chan k => exact ⟨hl _ h.1, by rw [hd]; exact h.2⟩
  | latest n => exact ⟨hl _ h.1, by rw [hd]; exact h.2⟩
  | listed => exact ⟨h.1, by rw [hd]; exact h.2⟩
  | job => exact h

/-- Nothing is to be known for the operation but who has the mutexes. -/
def Op.known : Op χ κ → Bool
  | .incref _ _ | .refInc _ _ | .decref _ _ | .refDec _ _ | .lockLast _ | .lastLook _ | .lookRef _ | .readRef _
  | .seeRef _ | .unlist _ | .signal _ _ | .readCb _ | .readBody _ => false
  | _ => true

/-- The operation goes on with one that something is to be known for. -/
def Op.leads : Op χ κ → Bool
  | .callbacks | .incref _ _ | .decref _ _ | .refDec _ _ | .lockLast _ | .readCb _ | .gotPdu _ | .dropChan _
  | .adoptRef _ | .find _ | .cancelEach _ | .dropOwn | .giveBack _ | .dropLatest _ | .saveLatest _
  | .adoptLatest _ | .seeDead _ | .seeRef _ | .lookRef _ | .readRef _ | .unlist _ | .closingListed _ => true
  | _ => false

omit [DecidableEq χ] [DecidableEq κ] in
theorem Fact.of_known (h : op.known = true) : Fact mgr s t op := by
  cases op with
  | incref | refInc | decref | refDec | lockLast | lastLook | lookRef | readRef | seeRef | unlist | signal | readCb
  | readBody => cases h
  | _ => trivial

theorem exec_known (mgr : χ → Option κ) (d : Data χ κ) (t : Thr) (x : Choice χ) (h : op.leads = false) :
    ∀ op' ∈ (exec mgr d t x op).2, op'.known = true := by
  cases op with
  | callbacks | incref | decref | refDec | lockLast | readCb | gotPdu | dropChan | adoptRef | find | cancelEach
  | dropOwn | giveBack | dropLatest | saveLatest | adoptLatest | seeDead | seeRef | lookRef | readRef | unlist
  | closingListed => cases h
  | _ =>
      simp only [exec]
      repeat' split
      all_goals simp [Op.known]

/-- What is known at the operations that an operation goes on with. -/
theorem fact_exec (hf : op.Fits mgr t Γ) (hfact : Fact mgr s t op) (hb : Books mgr s.data)
    (hp : s.data.pdu t = Γ.pdu) (hd : s'.data = (exec mgr s.data t x op).1)
    (hl : ∀ m ∈ op.locks Γ.held, s'.locked m = some t)
    (hkeep : ∀ m, op.frees ≠ some m → s.locked m = some t → s'.locked m = some t) :
    ∀ op' ∈ (exec mgr s.data t x op).2, Fact mgr s' t op' := by
  cases op with
  | callbacks =>
      simp only [exec] at hd ⊢
      split at hd
      · intro op' hm
        rcases List.mem_append.mp hm with hm | hm
        · obtain ⟨c, hc, rfl⟩ := List.mem_map.mp hm
          have hk : c.1 ∈ s'.data.known := by
            rw [hd]
            simpa using (List.mem_filter.mp hc).2
          split
          · exact hk
          · trivial
        · rw [List.mem_singleton.mp hm]
          trivial
      · simp [Fact]
  | incref c o =>
      have hl' := fun m => hkeep m (by simp [Op.frees])
      simp only [exec, List.mem_singleton, forall_eq]
      exact ⟨⟨hfact.1.keep hd hl', hfact.2.other hl'⟩, hl _ List.mem_cons_self⟩
  | decref c o =>
      have hl' := fun m => hkeep m (by simp [Op.frees])
      simp only [exec, List.mem_singleton, forall_eq]
      exact ⟨⟨by rw [hd]; exact hfact.1, hfact.2.keep hd hl'⟩, hl _ List.mem_cons_self⟩
  | refDec c o =>
      simp only [exec]
      split
      · rename_i hz
        simp only [List.mem_singleton, forall_eq]
        refine ⟨⟨?_, ?_, ?_⟩, hkeep _ (by simp [Op.frees]) hfact.2⟩
        · rw [hd]
          exact hb.known c (List.ne_nil_of_mem hfact.1.1)
        · rw [hd]
          simpa [exec, Data.refDec] using hz
        · rw [hd]
          intro hdel
          exact List.ne_nil_of_mem hfact.1.1 (hb.deleted c hdel).2.1
      · simp [Fact]
  | lockLast c =>
      simp only [exec, List.mem_singleton, forall_eq]
      exact ⟨by rw [hd]; exact hfact.1, hkeep _ (by simp [Op.frees]) hfact.2⟩
  | readCb c =>
      simp only [exec, List.mem_cons, List.not_mem_nil, or_false, forall_eq_or_imp, forall_eq]
      exact ⟨trivial, by rw [Fact, hd]; exact hfact⟩
  | gotPdu c =>
      simp only [exec] at hd ⊢
      split at hd
      · simp
      · simp [Fact]
      · rename_i hm
        simp only [List.mem_cons, List.not_mem_nil, or_false, forall_eq_or_imp, forall_eq]
        exact ⟨⟨.inr (.inr (.inr ⟨by rw [hd]; exact hp.trans hf.2, hm⟩)), rfl⟩, trivial, trivial⟩
  | dropChan k =>
      simp only [exec] at hd ⊢
      split at hd
      · rename_i c hc
        simp only [List.mem_singleton, forall_eq]
        refine ⟨by rw [hd]; exact hb.chan k c hc, hl _ ?_, by simp [hd]⟩
        simp [Op.locks, Op.wants, Op.frees, hf.1]
      · simp
  | adoptRef k =>
      simp only [exec] at hd ⊢
      split at hd
      · rename_i c hc
        simp only [List.mem_singleton, forall_eq]
        refine ⟨.inr (.inl ⟨k, by rw [hd]; exact hc, hl _ ?_⟩), rfl⟩
        simp [Op.locks, Op.wants, Op.frees, hf.1]
      · simp
  | find k =>
      obtain ⟨c, hh⟩ := hf
      have hk : s'.locked (.rpcc k) = some t := hl _ (by simp [Op.locks, Op.wants, Op.frees, hh])
      simp only [exec] at hd ⊢
      split at hd
      · split at hd
        · rename_i hc
          simp only [hc, ↓reduceIte, List.mem_cons, List.not_mem_nil, or_false, forall_eq_or_imp, forall_eq]
          exact ⟨⟨by rw [hd]; exact hc, hk⟩, trivial⟩
        · rename_i hc
          simp [hc, Fact]
      · simp [Fact]
  | cancelEach k =>
      obtain ⟨rfl, _⟩ := hf
      have hk : s'.locked (.rpcc k) = some t := hl _ (by simp [Op.locks, Op.wants, Op.frees])
      simp only [exec] at hd ⊢
      split at hd
      · split at hd
        · rename_i hc
          simp only [hc, ↓reduceIte, List.mem_cons, List.not_mem_nil, or_false, forall_eq_or_imp, forall_eq]
          exact ⟨⟨by rw [hd]; exact hc, hk⟩, trivial⟩
        · rename_i hc
          simp [hc, Fact]
      · simp [Fact]
  | dropOwn =>
      simp only [exec] at hd ⊢
      split at hd
      · rename_i c hc
        simp only [List.mem_singleton, forall_eq]
        exact ⟨by rw [hd]; exact hb.own t c hc, rfl, by simp [hd, Data.setOwn]⟩
      · simp
  | giveBack c =>
      simp only [exec] at hd ⊢
      split at hd
      · rename_i hc
        simp only [hc, ↓reduceIte, List.mem_singleton, forall_eq]
        exact ⟨by rw [hd]; exact hb.own t c hc, rfl, by simp [hd, Data.setOwn]⟩
      · rename_i hc
        simp [hc]
  | dropLatest n =>
      obtain ⟨rfl, _⟩ := hf
      simp only [exec] at hd ⊢
      split at hd
      · rename_i c hc
        simp only [List.mem_singleton, forall_eq]
        refine ⟨by rw [hd]; exact hb.conns n c hc, hl _ ?_, by simp [hd]⟩
        simp [Op.locks, Op.wants, Op.frees]
      · simp
  | saveLatest n =>
      obtain ⟨rfl, _⟩ := hf
      simp only [exec] at hd ⊢
      split at hd
      · rename_i c hc
        simp only [List.mem_singleton, forall_eq]
        exact ⟨.inl (by rw [hd]; exact hc), hl _ (by simp [Op.locks, Op.wants, Op.frees])⟩
      · simp
  | adoptLatest n =>
      obtain ⟨rfl, _⟩ := hf
      simp only [exec] at hd ⊢
      split at hd
      · rename_i c hc
        simp only [List.mem_singleton, forall_eq]
        exact ⟨.inr (.inr (.inl ⟨n, by rw [hd]; exact hc, hl _ (by simp [Op.locks, Op.wants, Op.frees])⟩)), rfl⟩
      · simp
  | seeDead c =>
      simp only [exec] at hd ⊢
      split
      · rename_i hc
        simp only [List.mem_cons, List.not_mem_nil, or_false, forall_eq_or_imp, forall_eq]
        exact ⟨trivial, by rw [Fact, hd]; exact hc⟩
      · simp [Fact]
  | seeRef c =>
      simp only [exec] at hd ⊢
      split
      · rename_i hc
        simp only [List.mem_singleton, forall_eq]
        exact ⟨hf.2, by rw [hd]; exact ⟨hc, hfact⟩⟩
      · simp
  | lookRef c =>
      simp only [exec, List.mem_singleton, forall_eq]
      rw [Fact, hd]
      exact hfact.2.2
  | readRef c =>
      simp only [exec] at hd ⊢
      split
      · simp only [List.mem_cons, List.not_mem_nil, or_false, forall_eq_or_imp, forall_eq]
        exact ⟨trivial, by rw [Fact, hd]; exact hfact, trivial⟩
      · simp [Fact]
  | unlist c =>
      simp only [exec] at hd ⊢
      split at hd
      · rename_i hc
        simp only [hc, ↓reduceIte, List.mem_singleton, forall_eq]
        refine ⟨by rw [hd]; exact hb.listed c hc, hf.2, ?_, by rw [hd]; exact hfact⟩
        rw [hd]
        exact hb.nodup.not_mem_erase
      · rename_i hc
        simp [hc]
  | closingListed c =>
      simp only [exec] at hd ⊢
      split at hd
      · rename_i hc
        simp only [hc, ↓reduceIte, List.mem_cons, List.not_mem_nil, or_false, forall_eq_or_imp, forall_eq]
        exact ⟨trivial, by rw [Fact, hd]; exact hc⟩
      · rename_i hc
        simp only [hc, Bool.false_eq_true, ↓reduceIte, List.mem_cons, List.not_mem_nil, or_false,
          forall_eq_or_imp, forall_eq]
        exact ⟨trivial, trivial, by simp [Fact, hd, Data.setDead]⟩
  | _ => exact fun op' hm => .of_known (exec_known mgr s.data t x rfl op' hm)

/-- A PDU is given to `got_pdu` under the mutex of its connection. -/
theorem pdu_exec {d : Data χ κ} {c : χ} (hf : op.Fits mgr t Γ) (hp : d.pdu t = Γ.pdu)
    (hin : ∀ c ∈ Γ.pdu, .conn c ∈ Γ.held) (hc : (exec mgr d t x op).1.pdu t = some c) :
    .conn c ∈ op.locks Γ.held := by
  have hold : d.pdu t = some c → .conn c ∈ Γ.held := fun h => hin c (hp.symm.trans h)
  cases op with
  | unlock m =>
      have hm := hold hc
      exact (List.mem_erase_of_ne (hf.2 c (hp.symm.trans hc)).symm).mpr hm
  | sleep m => cases (hp.trans hf.2.1).symm.trans hc
  | lock m => exact List.mem_cons_of_mem _ (hold hc)
  | incref c' o | decref c' o | lookRef c' | lockLast c' | signal k t' => exact List.mem_cons_of_mem _ (hold hc)
  | readBody c' =>
      simp only [exec] at hc
      repeat' split at hc
      · exact hold hc
      · exact hold hc
      · obtain rfl : c' = c := by simpa using hc
        simp [Op.locks, Op.wants, Op.frees, hf.1]
      · exact hold hc
  | readDone c' => simp [exec] at hc
  | _ =>
      simp only [exec] at hc
      repeat' split at hc
      all_goals exact hold hc

/-! ## The runs -/

structure Sound (mgr : χ → Option κ) (s : Process χ κ) : Prop where
  lane : ∀ t, ∃ held, held.Nodup ∧ (∀ m, m ∈ held ↔ s.locked m = some t) ∧
    Runs mgr t ⟨held, s.data.pdu t, s.data.calls t⟩ (s.ops t) .idle
  tail : ∀ t, ∀ op ∈ (s.ops t).tail, op.plain = true
  fact : ∀ t, ∀ op ∈ s.ops t, Fact mgr s t op
  books : Books mgr s.data
  pdu : ∀ t c, s.data.pdu t = some c → s.locked (.conn c) = some t

theorem sound_init : Sound mgr (init : Process χ κ) where
  lane t := by
    refine ⟨[], .nil, by simp [init], ?_⟩
    cases t with
    | app n => rfl
    | loop => exact ⟨rfl, rfl⟩
    | worker n => exact ⟨⟨rfl, by simp⟩, rfl⟩
    | listener => exact ⟨⟨rfl, rfl⟩, rfl⟩
  tail t := by cases t <;> simp [init, Thr.start]
  fact t := by cases t <;> simp [init, Thr.start, Fact]
  books := by
    constructor <;> simp [init]
  pdu t c hc := by cases hc

/-- A thread with nothing to do has no mutex. -/
theorem Sound.idle (h : Sound mgr s) (ht : s.ops t = []) :
    (∀ m, s.locked m ≠ some t) ∧ s.data.pdu t = none ∧ s.data.calls t = none := by
  obtain ⟨held, _, hm, hr⟩ := h.lane t
  rw [ht] at hr
  obtain ⟨rfl, hp, hc⟩ := Ctx.mk.inj hr
  exact ⟨fun m hl => by simpa using (hm m).mpr hl, hp, hc⟩

/-- What the others have and know stays when a thread goes on. -/
theorem Sound.others (h : Sound mgr s) {l : List (Op χ κ)} (hch : Change mgr s t s'.data)
    (hl : ∀ t' ≠ t, ∀ m, s'.locked m = some t' ↔ s.locked m = some t') (hops : s'.ops = update s.ops t l)
    (hlane : ∃ held, held.Nodup ∧ (∀ m, m ∈ held ↔ s'.locked m = some t) ∧
      Runs mgr t ⟨held, s'.data.pdu t, s'.data.calls t⟩ l .idle)
    (htail : ∀ op ∈ l.tail, op.plain = true) (hfact : ∀ op ∈ l, Fact mgr s' t op)
    (hpdu : ∀ c, s'.data.pdu t = some c → s'.locked (.conn c) = some t) : Sound mgr s' where
  lane t' := by
    by_cases ht : t' = t
    · subst ht
      rw [hops, Function.update_self]
      exact hlane
    · obtain ⟨held, hn, hm, hr⟩ := h.lane t'
      rw [hops, Function.update_of_ne ht, hch.pdu ht, hch.calls ht]
      exact ⟨held, hn, fun m => (hm m).trans (hl t' ht m).symm, hr⟩
  tail t' := by
    by_cases ht : t' = t
    · subst ht
      rw [hops, Function.update_self]
      exact htail
    · rw [hops, Function.update_of_ne ht]
      exact h.tail t'
  fact t' := by
    by_cases ht : t' = t
    · subst ht
      rw [hops, Function.update_self]
      exact hfact
    · rw [hops, Function.update_of_ne ht]
      exact fun op hm => (h.fact t' op hm).other (fun m => (hl t' ht m).mpr) h.books hch ht
  books := h.books.change hch h.pdu
  pdu t' c hc := by
    by_cases ht : t' = t
    · subst ht
      exact hpdu c hc
    · rw [hch.pdu ht] at hc
      exact (hl t' ht _).mpr (h.pdu t' c hc)

/-- An operation locks a mutex, unlocks one, or does neither. -/
theorem Op.mutex_cases (op : Op χ κ) (l : Mutex χ κ → Option Thr) (held : List (Mutex χ κ)) (t : Thr) :
    (∃ m, op.wants = some m ∧ op.frees = none ∧ relock l t op = update l m (some t) ∧ op.locks held = m :: held) ∨
      (∃ m, op.wants = none ∧ op.frees = some m ∧ relock l t op = update l m none ∧
        op.locks held = held.erase m) ∨
      op.frees = none ∧ relock l t op = l ∧ op.locks held = held := by
  cases op with
  | lock m => exact .inl ⟨m, rfl, rfl, rfl, rfl⟩
  | incref c o | decref c o | lookRef c | lockLast c | signal k t' => exact .inl ⟨_, rfl, rfl, rfl, rfl⟩
  | unlock m | sleep m => exact .inr (.inl ⟨m, rfl, rfl, rfl, rfl⟩)
  | _ => exact .inr (.inr ⟨rfl, rfl, rfl⟩)

theorem relock_iff {l : Mutex χ κ → Option Thr} {held : List (Mutex χ κ)} (op : Op χ κ) (hn : held.Nodup)
    (hm : ∀ m, m ∈ held ↔ l m = some t) (m : Mutex χ κ) : m ∈ op.locks held ↔ relock l t op m = some t := by
  rcases op.mutex_cases l held t with ⟨m₁, _, _, hr, hl⟩ | ⟨m₁, _, _, hr, hl⟩ | ⟨_, hr, hl⟩
  · rw [hr, hl, List.mem_cons, hm]
    by_cases hmm : m = m₁
    · simp [hmm]
    · simp [hmm]
  · rw [hr, hl, hn.mem_erase_iff, hm]
    by_cases hmm : m = m₁
    · simp [hmm]
    · simp [hmm]
  · rw [hr, hl, hm]

omit [DecidableEq χ] [DecidableEq κ] in
theorem Op.Fits.frees_mem (hf : op.Fits mgr t Γ) {m : Mutex χ κ} (hm : op.frees = some m) : m ∈ Γ.held := by
  cases op with
  | unlock m =>
      cases hm
      exact hf.1
  | sleep m =>
      cases hm
      simp [hf.1]
  | _ => cases hm

theorem relock_other {l : Mutex χ κ → Option Thr} (hm : ∀ m ∈ Γ.held, l m = some t) (hf : op.Fits mgr t Γ)
    (hfree : ∀ m ∈ op.wants, l m = none) (ht : t' ≠ t) (m : Mutex χ κ) :
    relock l t op m = some t' ↔ l m = some t' := by
  rcases op.mutex_cases l [] t with ⟨m₁, hw, _, hr, _⟩ | ⟨m₁, _, hf', hr, _⟩ | ⟨_, hr, _⟩
  · rw [hr]
    by_cases hmm : m = m₁
    · subst hmm
      simp [hfree m hw, ht.symm]
    · rw [Function.update_of_ne hmm]
  · rw [hr]
    by_cases hmm : m = m₁
    · subst hmm
      simp [hm m (hf.frees_mem hf'), ht.symm]
    · rw [Function.update_of_ne hmm]
  · rw [hr]

theorem relock_keep {l : Mutex χ κ → Option Thr} {m : Mutex χ κ} (hm : op.frees ≠ some m) (hl : l m = some t) :
    relock l t op m = some t := by
  rcases op.mutex_cases l [] t with ⟨m₁, _, _, hr, _⟩ | ⟨m₁, _, hf, hr, _⟩ | ⟨_, hr, _⟩
  · rw [hr]
    by_cases hmm : m = m₁
    · simp [hmm]
    · rw [Function.update_of_ne hmm, hl]
  · have hmm : m ≠ m₁ := by
      rintro rfl
      exact hm hf
    rw [hr, Function.update_of_ne hmm, hl]
  · rw [hr, hl]

theorem Op.nodup_locks {held : List (Mutex χ κ)} (hn : held.Nodup) (hw : ∀ m ∈ op.wants, m ∉ held) :
    (op.locks held).Nodup := by
  rcases op.mutex_cases (fun _ => none) held .loop with ⟨m, hm, _, _, hl⟩ | ⟨m, _, _, _, hl⟩ | ⟨_, _, hl⟩
  · rw [hl]
    exact List.nodup_cons.mpr ⟨hw m hm, hn⟩
  · rw [hl]
    exact hn.erase _
  · rw [hl]
    exact hn

theorem Sound.run {rest : List (Op χ κ)} (h : Sound mgr s) (hops : s.ops t = op :: rest)
    (hfree : ∀ m ∈ op.wants, s.locked m = none) : Sound mgr (s.run mgr t x op rest) := by
  obtain ⟨held, hn, hm, hr⟩ := h.lane t
  rw [hops] at hr
  obtain ⟨hfits, hrest⟩ := hr
  have hfact := h.fact t op (by simp [hops])
  have hheld : ∀ m ∈ held, s.locked m = some t := fun m => (hm m).mp
  have hin : ∀ c ∈ s.data.pdu t, .conn c ∈ held := fun c hc => (hm _).mpr (h.pdu t c hc)
  have hw : ∀ m ∈ op.wants, m ∉ held := by
    intro m hmw hmh
    cases (hfree m hmw).symm.trans (hheld m hmh)
  have hch := change_exec (x := x) hfits hfact hheld rfl rfl
  have hiff := relock_iff op hn hm
  refine h.others (l := (exec mgr s.data t x op).2 ++ rest) hch
    (fun t' ht m => relock_other hheld hfits hfree ht m) rfl ?_ ?_ ?_ ?_
  · exact ⟨op.locks held, Op.nodup_locks hn hw, hiff, (runs_exec hfits rfl rfl hw hin).append hrest⟩
  · intro op' hop'
    have htail := h.tail t
    rw [hops] at htail
    cases hl : (exec mgr s.data t x op).2 with
    | nil =>
        rw [hl] at hop'
        exact htail op' (List.mem_of_mem_tail hop')
    | cons a l =>
        rw [hl] at hop'
        rcases List.mem_append.mp hop' with hop' | hop'
        · exact exec_plain mgr s.data t x op op' (by rw [hl]; exact hop')
        · exact htail op' hop'
  · intro op' hop'
    rcases List.mem_append.mp hop' with hop' | hop'
    · exact fact_exec hfits hfact h.books rfl rfl (fun m => (hiff m).mp) (fun m => relock_keep) op' hop'
    · have htail := h.tail t
      rw [hops] at htail
      exact (h.fact t op' (by simp [hops, hop'])).plain (htail op' hop') hch
  · intro c hc
    exact (hiff _).mp (pdu_exec hfits rfl hin hc)

/-- A thread with nothing to do calls a function. -/
theorem Sound.begins {n : Nat} {l : List (Op χ κ)} (h : Sound mgr s) (ht : s.ops (.app n) = [])
    (hl : Runs mgr (.app n) .idle l .idle) (htail : ∀ op ∈ l.tail, op.plain = true)
    (hfact : ∀ op ∈ l, Fact mgr (s.setOps (.app n) l) (.app n) op) : Sound mgr (s.setOps (.app n) l) := by
  obtain ⟨hlock, hp, hc⟩ := h.idle ht
  refine h.others (t := .app n) .same (fun _ _ _ => .rfl) rfl ⟨[], .nil, by simp [setOps, hlock], ?_⟩ htail hfact ?_
  · rw [show (s.setOps (.app n) l).data = s.data from rfl, hp, hc]
    exact hl
  · intro c hc'
    cases hp.symm.trans hc'

theorem Sound.step {cap : Nat} {a : Act χ κ} (h : Sound mgr s) (hg : guard cap s a) : Sound mgr (s.next mgr a) := by
  cases a with
  | step t x =>
      obtain ⟨_, hne, hfree, _⟩ := hg
      simp only [next]
      split
      · exact h
      · rename_i op rest hops
        refine h.run hops fun m hm => hfree m ?_
        simp [wants, hops, Option.mem_def.mp hm]
  | call1 n k => exact h.begins hg.2 ⟨by simp [Op.Fits], rfl⟩ (by simp) (by simp [Fact])
  | bind n k =>
      exact h.begins hg.2 ⟨by simp [Op.Fits], by simp [Op.Fits, Op.after], rfl⟩ (by simp [Op.plain]) (by simp [Fact])
  | cancel n k => exact h.begins hg.2 ⟨by simp [Op.Fits], rfl⟩ (by simp) (by simp [Fact])
  | reg n =>
      exact h.begins hg.2 ⟨by simp [Op.Fits, Ctx.Below, Ctx.idle], by simp [Op.Fits, Op.after, Ctx.idle], by
        simp [Runs, Op.after, Ctx.idle]⟩ (by simp [Op.plain]) (by simp [Fact])
  | destroy n k =>
      obtain ⟨hl, hp, hc⟩ := h.idle hg.2.1
      simp only [next]
      split
      · rename_i c hk
        exact h.others (t := .app n) (.destroy hk hg.2.2) (fun _ _ _ => .rfl) rfl
          ⟨[], .nil, by simp [setOps, hl], ⟨⟨rfl, hp, by simp⟩, ⟨by simp [Op.Fits, Op.after], by
            simp [Runs, Op.after, Ctx.idle, Data.setOwn, Data.pass, hp, hc]⟩⟩⟩
          (by simp [Op.plain]) (by simp [Fact]) fun c hc' => by cases hp.symm.trans hc'
      · exact h

theorem sound_of_run {cap : Nat} {tr : List (Act χ κ)} (h : (lts mgr cap).Run tr s) : Sound mgr s := by
  refine h.invariant (I := fun _ s => Sound mgr s) ?_ ?_
  · rintro s rfl
    exact sound_init
  · intro tr s a _ hs hg
    exact hs.step hg

end Process
end StanDfs
