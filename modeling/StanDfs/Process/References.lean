import StanDfs.Process.Contract

/-!
# The references of the connections

Who owns a reference, through every step of every thread. The pointers `chan_`, `conns_` and those of the
threads have their references; a thread that counts one up has another that keeps the connection meanwhile; one
that counts down has taken the pointer away before. A count that comes to zero leaves no owner.
-/

namespace StanDfs

namespace Process

open Function (update)

variable {χ κ : Type*}

/-- The thread has a reference to the connection, or what keeps one from going away. -/
def Covered (mgr : χ → Option κ) (s : Process χ κ) (t : Thr) (c : χ) : Prop :=
  s.data.own t = some c ∨ (∃ k, s.data.chan k = some c ∧ s.locked (.chan k) = some t) ∨
    (∃ n, s.data.conns n = some c ∧ s.locked .conss = some t) ∨ (s.data.pdu t = some c ∧ mgr c = none)

/-- The thread may set the owner's pointer. -/
def Mine (s : Process χ κ) (t : Thr) : Owner κ → Prop
  | .thread t' => t' = t
  | .latest _ => s.locked .conss = some t
  | _ => False

/-- The owner's pointer is gone, and its reference is the thread's to give back. -/
def Gone (s : Process χ κ) (t : Thr) (c : χ) : Owner κ → Prop
  | .thread t' => t' = t ∧ s.data.own t = none
  | .chan k => s.locked (.chan k) = some t ∧ s.data.chan k = none
  | .latest n => s.locked .conss = some t ∧ s.data.conns n = none
  | .listed => t = .listener ∧ c ∉ s.data.listed ∧ s.data.dead c = true
  | .job => False

/-- What holds at an operation of the thread. -/
def Fact (mgr : χ → Option κ) (s : Process χ κ) (t : Thr) : Op χ κ → Prop
  | .incref c o => Covered mgr s t c ∧ Mine s t o
  | .refInc c o => (Covered mgr s t c ∧ Mine s t o) ∧ s.locked (.ref c) = some t
  | .decref c o => o ∈ s.data.owners c ∧ Gone s t c o
  | .refDec c o => (o ∈ s.data.owners c ∧ Gone s t c o) ∧ s.locked (.ref c) = some t
  | .lockLast c | .lastLook c =>
    (c ∈ s.data.known ∧ s.data.refno c = 0 ∧ c ∉ s.data.deleted) ∧ s.locked (.ref c) = some t
  | .lookRef c => t = .listener ∧ c ∈ s.data.listed ∧ s.data.dead c = true
  | .readRef c | .seeRef c | .unlist c => s.data.dead c = true
  | .signal k t' => s.data.calls t' = some k ∧ s.locked (.rpcc k) = some t
  | .readCb c | .readBody c => c ∈ s.data.known
  | _ => True

/-- The owner whose reference goes has no pointer. -/
theorem Gone.thread_ne (h : Gone s t c o) (ho : s.data.own t' = some c') : .thread t' ≠ o := by
  rintro rfl
  obtain ⟨rfl, hn⟩ := h
  cases hn.symm.trans ho

theorem Gone.chan_ne (h : Gone s t c o) (hk : s.data.chan k = some c') : .chan k ≠ o := by
  rintro rfl
  cases h.2.symm.trans hk

theorem Gone.latest_ne (h : Gone s t c o) (hn : s.data.conns n = some c') : .latest n ≠ o := by
  rintro rfl
  cases h.2.symm.trans hn

theorem Gone.listed_ne (h : Gone s t c o) (hc : c ∈ s.data.listed) : .listed ≠ o := by
  rintro rfl
  exact h.2.1 hc

theorem Gone.job_ne (h : Gone s t c o) : o ≠ .job := by
  rintro rfl
  exact h

theorem Mine.job_ne (h : Mine s t o) : o ≠ .job := by
  rintro rfl
  exact h

variable [DecidableEq χ] [DecidableEq κ]

structure Books (mgr : χ → Option κ) (d : Data χ κ) : Prop where
  len : ∀ c, (d.owners c).length = d.refno c
  known : ∀ c, d.owners c ≠ [] → c ∈ d.known
  own : ∀ t c, d.own t = some c → .thread t ∈ d.owners c
  chan : ∀ k c, d.chan k = some c → .chan k ∈ d.owners c
  conns : ∀ n c, d.conns n = some c → .latest n ∈ d.owners c
  jobs : ∀ c, d.jobs.count c = (d.owners c).count .job
  listed : ∀ c ∈ d.listed, .listed ∈ d.owners c
  nodup : d.listed.Nodup
  alive : ∀ c ∈ d.known, mgr c = none → d.dead c = false → .listed ∈ d.owners c
  pdu : ∀ t c, d.pdu t = some c → c ∈ d.known ∧ d.dead c = false
  deleted : ∀ c ∈ d.deleted, c ∈ d.known ∧ d.owners c = [] ∧ d.dead c = true
  once : d.deleted.Nodup

variable {mgr : χ → Option κ} {s s' : Process χ κ} {d d' : Data χ κ} {t t' : Thr} {c c' : χ} {k : κ} {o o' : Owner κ}
  {n : UInt32} {op : Op χ κ}

theorem Books.ne_nil (h : Books mgr s.data) (hc : Covered mgr s t c) : s.data.owners c ≠ [] := by
  rcases hc with hc | ⟨k, hc, _⟩ | ⟨n, hc, _⟩ | ⟨hc, hm⟩
  · exact List.ne_nil_of_mem (h.own _ _ hc)
  · exact List.ne_nil_of_mem (h.chan _ _ hc)
  · exact List.ne_nil_of_mem (h.conns _ _ hc)
  · obtain ⟨hk, hd⟩ := h.pdu _ _ hc
    exact List.ne_nil_of_mem (h.alive c hk hm hd)

theorem Books.nil_of_refno (h : Books mgr d) (hr : d.refno c = 0) : d.owners c = [] := by
  have := h.len c
  rw [hr] at this
  exact List.length_eq_zero_iff.mp (by omega)

theorem Books.fresh (h : Books mgr d) (hc : c ∉ d.known) : d.owners c = [] :=
  by_contra fun hne => hc (h.known c hne)

/-- What a thread may do to the data, and what it knows then. -/
inductive Change (mgr : χ → Option κ) (s : Process χ κ) (t : Thr) : Data χ κ → Prop
  | same : Change mgr s t s.data
  | abort : Change mgr s t { s.data with aborted := true }
  | die {c : χ} : s.locked (.conn c) = some t → s.data.pdu t = none → Change mgr s t (s.data.setDead c)
  | delete {c : χ} : c ∈ s.data.known → s.data.refno c = 0 → c ∉ s.data.deleted → s.data.dead c = true →
      s.locked (.ref c) = some t → Change mgr s t { s.data with deleted := c :: s.data.deleted }
  | inc {c : χ} {o : Owner κ} : Covered mgr s t c → Mine s t o → s.locked (.ref c) = some t →
      Change mgr s t (s.data.refInc c o)
  | dec {c : χ} {o : Owner κ} : o ∈ s.data.owners c → Gone s t c o → s.locked (.ref c) = some t →
      Change mgr s t (s.data.refDec c o)
  | give {c : χ} : c ∈ s.data.known → s.data.dead c = false → s.locked (.conn c) = some t →
      Change mgr s t { s.data with pdu := update s.data.pdu t (some c) }
  | given : Change mgr s t { s.data with pdu := update s.data.pdu t none }
  | register {k : κ} : s.data.calls t = none →
      Change mgr s t { s.data with calls := update s.data.calls t (some k) }
  | erase {k : κ} : s.data.calls t = some k → s.locked (.rpcc k) = some t →
      Change mgr s t { s.data with calls := update s.data.calls t none }
  | lose : Change mgr s t (s.data.setOwn t none)
  | dropChan {k : κ} : s.locked (.chan k) = some t →
      Change mgr s t { s.data with chan := update s.data.chan k none }
  | connect {k : κ} {c : χ} : c ∉ s.data.known → mgr c = some k → s.locked (.chan k) = some t →
      Change mgr s t { s.data.make c (.chan k) with chan := update s.data.chan k (some c) }
  | dropLatest {n : UInt32} : s.locked .conss = some t →
      Change mgr s t { s.data with conns := update s.data.conns n none }
  | enq {c : χ} : s.data.own t = some c → Change mgr s t
      { (s.data.pass c (.thread t) .job).setOwn t none with jobs := s.data.jobs ++ [c] }
  | deq {c : χ} {js : List χ} : s.data.jobs = c :: js → Change mgr s t
      { (s.data.pass c .job (.thread t)).setOwn t (some c) with jobs := js }
  | accept {c : χ} : t = .listener → c ∉ s.data.known → mgr c = none → Change mgr s t
      { s.data.make c .listed with listed := c :: s.data.listed }
  | unlist {c : χ} : t = .listener → Change mgr s t { s.data with listed := s.data.listed.erase c }
  | destroy {k : κ} {c : χ} : s.data.chan k = some c → s.locked (.chan k) = none → Change mgr s t
      { (s.data.pass c (.chan k) (.thread t)).setOwn t (some c) with chan := update s.data.chan k none }

/-! ## The owners after a change -/

omit [DecidableEq κ] in
theorem mem_refInc (h : o' ∈ d.owners c') : o' ∈ (d.refInc c o).owners c' := by
  by_cases hc : c' = c
  · subst hc
    simpa [Data.refInc] using .inr h
  · simpa [Data.refInc, Function.update_of_ne hc] using h

omit [DecidableEq κ] in
theorem self_mem_refInc : o ∈ (d.refInc c o).owners c := by simp [Data.refInc]

theorem mem_refDec (h : o' ∈ d.owners c') (hne : c' = c → o' ≠ o) : o' ∈ (d.refDec c o).owners c' := by
  by_cases hc : c' = c
  · subst hc
    simpa [Data.refDec] using (List.mem_erase_of_ne (hne rfl)).mpr h
  · simpa [Data.refDec, Function.update_of_ne hc] using h

theorem mem_pass {o₁ : Owner κ} (h : o' ∈ d.owners c') (hne : c' = c → o' ≠ o) :
    o' ∈ (d.pass c o o₁).owners c' := by
  by_cases hc : c' = c
  · subst hc
    simpa [Data.pass] using .inr ((List.mem_erase_of_ne (hne rfl)).mpr h)
  · simpa [Data.pass, Function.update_of_ne hc] using h

theorem self_mem_pass : o' ∈ (d.pass c o o').owners c := by simp [Data.pass]

theorem Books.mem_make (h : Books mgr d) (hc : c ∉ d.known) (hm : o' ∈ d.owners c') :
    o' ∈ (d.make c o).owners c' := by
  have hne : c' ≠ c := by
    rintro rfl
    rw [h.fresh hc] at hm
    cases hm
  simpa [Data.make, Function.update_of_ne hne] using hm

/-! ## The books -/

theorem Books.inc (h : Books mgr s.data) (hc : Covered mgr s t c) (ho : Mine s t o) :
    Books mgr (s.data.refInc c o) where
  len c' := by
    by_cases hcc : c' = c
    · subst hcc
      simp [Data.refInc, h.len]
    · simpa [Data.refInc, Function.update_of_ne hcc] using h.len c'
  known c' hc' := by
    by_cases hcc : c' = c
    · rw [hcc]
      exact h.known c (h.ne_nil hc)
    · exact h.known c' (by simpa [Data.refInc, Function.update_of_ne hcc] using hc')
  own t' c' hc' := by
    cases o with
    | thread t₁ =>
        by_cases ht : t' = t₁
        · subst ht
          obtain rfl : c = c' := by simpa [Data.refInc] using hc'
          exact self_mem_refInc
        · exact mem_refInc (h.own t' c' (by simpa [Data.refInc, Function.update_of_ne ht] using hc'))
    | _ => exact mem_refInc (h.own t' c' hc')
  chan k c' hc' := mem_refInc (h.chan k c' hc')
  conns n c' hc' := by
    cases o with
    | latest n₁ =>
        by_cases hn : n = n₁
        · subst hn
          obtain rfl : c = c' := by simpa [Data.refInc] using hc'
          exact self_mem_refInc
        · exact mem_refInc (h.conns n c' (by simpa [Data.refInc, Function.update_of_ne hn] using hc'))
    | _ => exact mem_refInc (h.conns n c' hc')
  jobs c' := by
    by_cases hcc : c' = c
    · subst hcc
      simpa [Data.refInc, List.count_cons_of_ne ho.job_ne] using h.jobs c'
    · simpa [Data.refInc, Function.update_of_ne hcc] using h.jobs c'
  listed c' hc' := mem_refInc (h.listed c' hc')
  nodup := h.nodup
  alive c' hc' hm hd := mem_refInc (h.alive c' hc' hm hd)
  pdu := h.pdu
  deleted c' hc' := by
    obtain ⟨hk, hn, hd⟩ := h.deleted c' hc'
    have hcc : c' ≠ c := by
      rintro rfl
      exact h.ne_nil hc hn
    exact ⟨hk, by simpa [Data.refInc, Function.update_of_ne hcc] using hn, hd⟩
  once := h.once

theorem Books.dec (h : Books mgr s.data) (ho : o ∈ s.data.owners c) (hg : Gone s t c o) :
    Books mgr (s.data.refDec c o) where
  len c' := by
    by_cases hcc : c' = c
    · subst hcc
      have hpos := List.length_pos_of_mem ho
      have hl := h.len c'
      simp only [Data.refDec, Function.update_self, List.length_erase_of_mem ho]
      omega
    · simpa [Data.refDec, Function.update_of_ne hcc] using h.len c'
  known c' hc' := by
    by_cases hcc : c' = c
    · rw [hcc]
      exact h.known c (List.ne_nil_of_mem ho)
    · exact h.known c' (by simpa [Data.refDec, Function.update_of_ne hcc] using hc')
  own t' c' hc' := mem_refDec (h.own t' c' hc') fun _ => hg.thread_ne hc'
  chan k c' hc' := mem_refDec (h.chan k c' hc') fun _ => hg.chan_ne hc'
  conns n c' hc' := mem_refDec (h.conns n c' hc') fun _ => hg.latest_ne hc'
  jobs c' := by
    by_cases hcc : c' = c
    · subst hcc
      simpa [Data.refDec, List.count_erase_of_ne hg.job_ne.symm] using h.jobs c'
    · simpa [Data.refDec, Function.update_of_ne hcc] using h.jobs c'
  listed c' hc' := mem_refDec (h.listed c' hc') fun heq => hg.listed_ne (heq ▸ hc')
  nodup := h.nodup
  alive c' hc' hm hd := by
    refine mem_refDec (h.alive c' hc' hm hd) ?_
    rintro rfl rfl
    cases hg.2.2.symm.trans hd
  pdu := h.pdu
  deleted c' hc' := by
    obtain ⟨hk, hn, hd⟩ := h.deleted c' hc'
    refine ⟨hk, ?_, hd⟩
    by_cases hcc : c' = c
    · subst hcc
      simp [Data.refDec, hn]
    · simpa [Data.refDec, Function.update_of_ne hcc] using hn
  once := h.once

/-- A new connection has one owner and no other pointer. -/
theorem Books.make (h : Books mgr d) (hc : c ∉ d.known) (ho : o ≠ .job) (hm : mgr c = none → o = .listed) :
    Books mgr (d.make c o) where
  len c' := by
    by_cases hcc : c' = c
    · subst hcc
      simp [Data.make]
    · simpa [Data.make, Function.update_of_ne hcc] using h.len c'
  known c' hc' := by
    by_cases hcc : c' = c
    · rw [hcc]
      exact List.mem_cons_self
    · exact List.mem_cons_of_mem _ (h.known c' (by simpa [Data.make, Function.update_of_ne hcc] using hc'))
  own t' c' hc' := h.mem_make hc (h.own t' c' hc')
  chan k c' hc' := h.mem_make hc (h.chan k c' hc')
  conns n c' hc' := h.mem_make hc (h.conns n c' hc')
  jobs c' := by
    by_cases hcc : c' = c
    · subst hcc
      have hold := h.jobs c'
      rw [h.fresh hc] at hold
      simpa [Data.make, List.count_cons_of_ne ho] using hold
    · simpa [Data.make, Function.update_of_ne hcc] using h.jobs c'
  listed c' hc' := h.mem_make hc (h.listed c' hc')
  nodup := h.nodup
  alive c' hc' hm' hd := by
    rcases List.mem_cons.mp hc' with rfl | hc'
    · simp [Data.make, hm hm']
    · exact h.mem_make hc (h.alive c' hc' hm' hd)
  pdu t' c' hc' := (h.pdu t' c' hc').imp_left (List.mem_cons_of_mem _)
  deleted c' hc' := by
    obtain ⟨hk, hn, hd⟩ := h.deleted c' hc'
    have hcc : c' ≠ c := fun heq => hc (heq ▸ hk)
    exact ⟨List.mem_cons_of_mem _ hk, by simpa [Data.make, Function.update_of_ne hcc] using hn, hd⟩
  once := h.once

/-- A reference passes to another owner, with the pointers of the two. -/
theorem Books.pass (h : Books mgr d) (ho : o ∈ d.owners c) (hlisted : o ≠ .listed) (hlatest : ∀ n, o ≠ .latest n)
    (hown : ∀ t c', d'.own t = some c' → (d.own t = some c' ∧ .thread t ≠ o) ∨ (c' = c ∧ .thread t = o'))
    (hchan : ∀ k c', d'.chan k = some c' → d.chan k = some c' ∧ .chan k ≠ o)
    (hjobs : ∀ c', d'.jobs.count c' = ((d.pass c o o').owners c').count .job)
    (heq : d' = { d.pass c o o' with own := d'.own, chan := d'.chan, jobs := d'.jobs }) : Books mgr d' := by
  have hmem : ∀ {o₁ c'}, o₁ ∈ d.owners c' → o₁ ≠ o → o₁ ∈ (d.pass c o o').owners c' :=
    fun hm hne => mem_pass hm fun _ => hne
  rw [heq]
  exact {
    len := fun c' => by
      by_cases hcc : c' = c
      · subst hcc
        have hpos := List.length_pos_of_mem ho
        have hl := h.len c'
        simp only [Data.pass, Function.update_self, List.length_cons, List.length_erase_of_mem ho]
        omega
      · simpa [Data.pass, Function.update_of_ne hcc] using h.len c'
    known := fun c' hc' => by
      by_cases hcc : c' = c
      · rw [hcc]
        exact h.known c (List.ne_nil_of_mem ho)
      · exact h.known c' (by simpa [Data.pass, Function.update_of_ne hcc] using hc')
    own := fun t' c' hc' => by
      rcases hown t' c' hc' with ⟨hold, hne⟩ | ⟨rfl, ht⟩
      · exact hmem (h.own t' c' hold) hne
      · rw [ht]
        exact self_mem_pass
    chan := fun k c' hc' => by
      obtain ⟨hold, hne⟩ := hchan k c' hc'
      exact hmem (h.chan k c' hold) hne
    conns := fun n c' hc' => hmem (h.conns n c' hc') (hlatest n).symm
    jobs := hjobs
    listed := fun c' hc' => hmem (h.listed c' hc') hlisted.symm
    nodup := h.nodup
    alive := fun c' hc' hm hd => hmem (h.alive c' hc' hm hd) hlisted.symm
    pdu := h.pdu
    deleted := fun c' hc' => by
      obtain ⟨hk, hn, hd⟩ := h.deleted c' hc'
      have hcc : c' ≠ c := by
        rintro rfl
        rw [hn] at ho
        cases ho
      exact ⟨hk, by simpa [Data.pass, Function.update_of_ne hcc] using hn, hd⟩
    once := h.once }

theorem Books.enq (h : Books mgr d) (ho : d.own t = some c) :
    Books mgr { (d.pass c (.thread t) .job).setOwn t none with jobs := d.jobs ++ [c] } := by
  refine h.pass (h.own t c ho) (by simp) (by simp) (fun t' c' hc' => .inl ?_) (fun k c' hc' => ⟨hc', by simp⟩)
    (fun c' => ?_) rfl
  · have ht : t' ≠ t := by
      rintro rfl
      simp [Data.setOwn] at hc'
    refine ⟨by simpa [Data.setOwn, Data.pass, Function.update_of_ne ht] using hc', ?_⟩
    simpa using ht
  · have hj := h.jobs c'
    by_cases hcc : c' = c
    · subst hcc
      simp [Data.pass, List.count_erase_of_ne, hj]
    · simpa [Data.pass, Function.update_of_ne hcc, List.count_cons_of_ne (Ne.symm hcc)] using hj

theorem Books.deq {js : List χ} (h : Books mgr d) (hj : d.jobs = c :: js) :
    Books mgr { (d.pass c .job (.thread t)).setOwn t (some c) with jobs := js } := by
  have hcount : ∀ c', (d.owners c').count .job = (c :: js).count c' := fun c' => by rw [← hj, h.jobs]
  have ho : .job ∈ d.owners c := by
    refine List.count_pos_iff.mp ?_
    rw [hcount, List.count_cons_self]
    exact Nat.succ_pos _
  refine h.pass ho (by simp) (by simp) (fun t' c' hc' => ?_) (fun k c' hc' => ⟨hc', by simp⟩)
    (fun c' => ?_) rfl
  · by_cases ht : t' = t
    · subst ht
      obtain rfl : c = c' := by simpa [Data.setOwn] using hc'
      exact .inr ⟨rfl, rfl⟩
    · exact .inl ⟨by simpa [Data.setOwn, Data.pass, Function.update_of_ne ht] using hc', by simp⟩
  · by_cases hcc : c' = c
    · subst hcc
      have hc := hcount c'
      rw [List.count_cons_self] at hc
      simp [Data.pass, List.count_erase_self, hc]
    · have hc := hcount c'
      rw [List.count_cons_of_ne (Ne.symm hcc)] at hc
      simpa [Data.pass, Function.update_of_ne hcc] using hc.symm

theorem Books.destroy (h : Books mgr d) (hc : d.chan k = some c) :
    Books mgr { (d.pass c (.chan k) (.thread t)).setOwn t (some c) with chan := update d.chan k none } := by
  refine h.pass (h.chan k c hc) (by simp) (by simp) (fun t' c' hc' => ?_) (fun k' c' hc' => ?_) (fun c' => ?_) rfl
  · by_cases ht : t' = t
    · subst ht
      obtain rfl : c = c' := by simpa [Data.setOwn] using hc'
      exact .inr ⟨rfl, rfl⟩
    · exact .inl ⟨by simpa [Data.setOwn, Data.pass, Function.update_of_ne ht] using hc', by simp⟩
  · have hk : k' ≠ k := by
      rintro rfl
      simp at hc'
    exact ⟨by simpa [Function.update_of_ne hk] using hc', by simpa using hk⟩
  · by_cases hcc : c' = c
    · subst hcc
      simpa [Data.pass, Data.setOwn, List.count_erase_of_ne] using h.jobs c'
    · simpa [Data.pass, Data.setOwn, Function.update_of_ne hcc] using h.jobs c'

/-- Every change keeps the books, if nobody else has a PDU of a connection that dies. -/
theorem Books.change (h : Books mgr s.data) (hc : Change mgr s t d')
    (hpdu : ∀ t c, s.data.pdu t = some c → s.locked (.conn c) = some t) : Books mgr d' := by
  cases hc with
  | same => exact h
  | abort => exact { h with }
  | @die c hl hp =>
      exact { h with
        alive := fun c' hc' hm hd => by
          have hcc : c' ≠ c := by
            rintro rfl
            simp [Data.setDead] at hd
          exact h.alive c' hc' hm (by simpa [Data.setDead, Function.update_of_ne hcc] using hd)
        pdu := fun t' c' hc' => by
          have hcc : c' ≠ c := by
            rintro rfl
            cases (hpdu t' c' hc').symm.trans hl
            cases hp.symm.trans hc'
          simpa [Data.setDead, Function.update_of_ne hcc] using h.pdu t' c' hc'
        deleted := fun c' hc' => by
          obtain ⟨hk, hn, hd⟩ := h.deleted c' hc'
          refine ⟨hk, hn, ?_⟩
          by_cases hcc : c' = c
          · simp [Data.setDead, hcc]
          · simpa [Data.setDead, Function.update_of_ne hcc] using hd }
  | @delete c hk hr hnot hd _ =>
      exact { h with
        deleted := fun c' hc' => by
          rcases List.mem_cons.mp hc' with rfl | hc'
          · exact ⟨hk, h.nil_of_refno hr, hd⟩
          · exact h.deleted c' hc'
        once := List.nodup_cons.mpr ⟨hnot, h.once⟩ }
  | inc hc ho _ => exact h.inc hc ho
  | dec ho hg _ => exact h.dec ho hg
  | @give c hk hd _ =>
      exact { h with
        pdu := fun t' c' hc' => by
          by_cases ht : t' = t
          · subst ht
            obtain rfl : c = c' := by simpa using hc'
            exact ⟨hk, hd⟩
          · exact h.pdu t' c' (by simpa [Function.update_of_ne ht] using hc') }
  | given =>
      exact { h with
        pdu := fun t' c' hc' => by
          have ht : t' ≠ t := by
            rintro rfl
            simp at hc'
          exact h.pdu t' c' (by simpa [Function.update_of_ne ht] using hc') }
  | register _ => exact { h with }
  | erase _ _ => exact { h with }
  | lose =>
      exact { h with
        own := fun t' c' hc' => by
          have ht : t' ≠ t := by
            rintro rfl
            simp [Data.setOwn] at hc'
          exact h.own t' c' (by simpa [Data.setOwn, Function.update_of_ne ht] using hc') }
  | @dropChan k _ =>
      exact { h with
        chan := fun k' c' hc' => by
          have hk : k' ≠ k := by
            rintro rfl
            simp at hc'
          exact h.chan k' c' (by simpa [Function.update_of_ne hk] using hc') }
  | @connect k c hf hm _ =>
      exact { h.make hf (o := .chan k) (by simp) (fun hn => by simp [hm] at hn) with
        chan := fun k' c' hc' => by
          by_cases hk : k' = k
          · subst hk
            obtain rfl : c = c' := by simpa using hc'
            simp [Data.make]
          · exact h.mem_make hf (h.chan k' c' (by simpa [Function.update_of_ne hk, Data.make] using hc')) }
  | @dropLatest n _ =>
      exact { h with
        conns := fun n' c' hc' => by
          have hn : n' ≠ n := by
            rintro rfl
            simp at hc'
          exact h.conns n' c' (by simpa [Function.update_of_ne hn] using hc') }
  | enq ho => exact h.enq ho
  | deq hj => exact h.deq hj
  | @accept c _ hf _ =>
      have hnot : c ∉ s.data.listed := fun hm => hf (h.known c (List.ne_nil_of_mem (h.listed c hm)))
      exact { h.make hf (o := .listed) (by simp) (fun _ => rfl) with
        listed := fun c' hc' => by
          rcases List.mem_cons.mp hc' with rfl | hc'
          · simp [Data.make]
          · exact h.mem_make hf (h.listed c' hc')
        nodup := List.nodup_cons.mpr ⟨hnot, h.nodup⟩ }
  | unlist _ =>
      exact { h with
        listed := fun c' hc' => h.listed c' (List.mem_of_mem_erase hc')
        nodup := h.nodup.erase _ }
  | destroy hc _ => exact h.destroy hc

end Process
end StanDfs
