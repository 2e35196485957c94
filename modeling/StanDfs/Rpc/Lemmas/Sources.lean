import StanDfs.Rpc.Rpcs

/-!
# Where a server has its values from

Every job is a request that came in, every reply buffer holds what a handler returned for the call it is
sent or recorded for, and a reply goes out on the job's own connection or on one of the same client. The
evidence is the history of the server, which only grows.
-/

namespace StanDfs.Rpcs

variable {χ : Type*} {e : Env χ} {s v v' : Rpcs χ}

/-! ## Evidence -/

/-- The job is a request that came in on its connection. -/
def FromNet (v : Rpcs χ) (j : Job χ) : Prop :=
  ∃ b, (j.conn, b) ∈ v.received ∧ decodeReq b = some j.req

/-- The request is for this instance or for any. -/
def Accepted (e : Env χ) (j : Job χ) : Prop :=
  j.req.hdr.srvNonce = 0 ∨ j.req.hdr.srvNonce = e.nonce

/-- The buffer holds the reply of a handler run that satisfies `P`. -/
def Holds (v : Rpcs χ) (P : Job χ → Prop) (b : Addr) (sz : Int) : Prop :=
  ∃ r ∈ v.results, P r.job ∧ v.heap[b]? = some r.buf ∧ sz = r.buf.length

/-- Jobs of one call: without at-most-once logic only a job itself. -/
def SameCall (j j' : Job χ) : Prop := j'.key = j.key ∧ (j.nonce = 0 → j' = j)

/-- A connection on which a job may be answered. -/
def Route (v : Rpcs χ) (j : Job χ) (c : χ) : Prop :=
  ∃ j', FromNet v j' ∧ j'.conn = c ∧ j'.nonce = j.nonce ∧ (j.nonce = 0 → j' = j)

/-- What a worker works with has its evidence in `v`. -/
def Ok (e : Env χ) (v : Rpcs χ) : Pc χ → Prop
  | .idle => True
  | .seen j | .save j | .check j => FromNet v j ∧ Accepted e j ∧ j.nonce ≠ 0
  | .running j => j ∈ v.execs
  | .record j b => j ∈ v.execs ∧ j.nonce ≠ 0 ∧ ∃ sz, Holds v (· = j) b sz
  | .choose j b => j ∈ v.execs ∧ ∃ sz, Holds v (· = j) b sz
  | .send j c b sz | .sending j c b sz => Holds v (SameCall j) b sz ∧ Route v j c
  | .reply j r => FromNet v j ∧ ∃ ret, ret < 0 ∧ r = j.reply ret []

/-- The history of `v'` contains that of `v`. -/
structure Grows (v v' : Rpcs χ) : Prop where
  received : v.received ⊆ v'.received
  execs : v.execs ⊆ v'.execs
  results : v.results ⊆ v'.results
  heap : v.heap <+: v'.heap
  recorded : v.recorded ⊆ v'.recorded
  dead : v.dead ⊆ v'.dead

theorem Grows.of_eq (h₁ : v'.received = v.received) (h₂ : v'.execs = v.execs)
    (h₃ : v'.results = v.results) (h₄ : v'.heap = v.heap) (h₅ : v'.recorded = v.recorded)
    (h₆ : v'.dead = v.dead) : Grows v v' :=
  ⟨h₁ ▸ fun _ h => h, h₂ ▸ fun _ h => h, h₃ ▸ fun _ h => h, h₄ ▸ List.prefix_rfl,
    h₅ ▸ fun _ h => h, h₆ ▸ fun _ h => h⟩

theorem Grows.trans {v'' : Rpcs χ} (h : Grows v v') (h' : Grows v' v'') : Grows v v'' where
  received := List.Subset.trans h.received h'.received
  execs := List.Subset.trans h.execs h'.execs
  results := List.Subset.trans h.results h'.results
  heap := h.heap.trans h'.heap
  recorded := List.Subset.trans h.recorded h'.recorded
  dead := List.Subset.trans h.dead h'.dead

theorem FromNet.mono {j : Job χ} (h : FromNet v j) (g : Grows v v') : FromNet v' j := by
  obtain ⟨b, hb, hd⟩ := h
  exact ⟨b, g.received hb, hd⟩

theorem heap_mono {b : Addr} {bs : Bytes} (h : v.heap[b]? = some bs) (g : Grows v v') :
    v'.heap[b]? = some bs := by
  obtain ⟨t, ht⟩ := g.heap
  rw [← ht, List.getElem?_append_left (List.getElem?_eq_some_iff.mp h).1]
  exact h

theorem Holds.mono {P : Job χ → Prop} {b : Addr} {sz : Int} (h : Holds v P b sz) (g : Grows v v') :
    Holds v' P b sz := by
  obtain ⟨r, hr, hp, hh, hsz⟩ := h
  exact ⟨r, g.results hr, hp, heap_mono hh g, hsz⟩

theorem Holds.imp {P Q : Job χ → Prop} {b : Addr} {sz : Int} (h : Holds v P b sz)
    (hPQ : ∀ j, P j → Q j) : Holds v Q b sz := by
  obtain ⟨r, hr, hp, hh⟩ := h
  exact ⟨r, hr, hPQ _ hp, hh⟩

theorem contents_eq {b : Addr} {bs : Bytes} (h : v.heap[b]? = some bs) : v.contents b = bs := by
  rw [contents, List.getD_eq_getElem?_getD, h]
  rfl

theorem contents_mono {b : Addr} (h : b < v.heap.length) (g : Grows v v') :
    v'.contents b = v.contents b := by
  have hb := List.getElem?_eq_getElem h
  rw [contents_eq hb, contents_eq (heap_mono hb g)]

theorem Holds.sz_eq {P : Job χ → Prop} {b : Addr} {sz : Int} (h : Holds v P b sz) :
    sz = (v.contents b).length := by
  obtain ⟨r, _, _, hh, hsz⟩ := h
  rw [hsz, contents_eq hh]

theorem Holds.contents {P : Job χ → Prop} {b : Addr} {sz : Int} (h : Holds v P b sz) :
    Holds v P b (v.contents b).length := h.sz_eq ▸ h

theorem Route.mono {j : Job χ} {c : χ} (h : Route v j c) (g : Grows v v') : Route v' j c := by
  obtain ⟨j', hj, hc⟩ := h
  exact ⟨j', hj.mono g, hc⟩

theorem Ok.mono {p : Pc χ} (h : Ok e v p) (g : Grows v v') : Ok e v' p := by
  cases p with
  | idle => trivial
  | seen j => exact ⟨h.1.mono g, h.2⟩
  | save j => exact ⟨h.1.mono g, h.2⟩
  | check j => exact ⟨h.1.mono g, h.2⟩
  | running j => exact g.execs h
  | record j b =>
      obtain ⟨hx, hn, sz, hh⟩ := h
      exact ⟨g.execs hx, hn, sz, hh.mono g⟩
  | choose j b =>
      obtain ⟨hx, sz, hh⟩ := h
      exact ⟨g.execs hx, sz, hh.mono g⟩
  | send j c b sz => exact ⟨h.1.mono g, h.2.mono g⟩
  | sending j c b sz => exact ⟨h.1.mono g, h.2.mono g⟩
  | reply j r => exact ⟨h.1.mono g, h.2⟩

/-! ## The invariant -/

/-- Every value of `s` has its evidence in `v`. -/
structure Sourced (e : Env χ) (v s : Rpcs χ) : Prop where
  jobs : ∀ m ∈ s.jobs, m ∈ v.received
  workers : ∀ w, Ok e v (s.workers w)
  execs : ∀ j ∈ s.execs, FromNet v j ∧ Accepted e j
  results : ∀ r ∈ s.results, r.job ∈ v.execs ∧ HandlerOk e r.job r.ret r.body
  copies : ∀ j ∈ s.copies, FromNet v j ∧ j.nonce ≠ 0
  conns : ∀ n c, s.conns.lookup n = some c → n ≠ 0 ∧ ∃ j, FromNet v j ∧ j.conn = c ∧ j.nonce = n
  table : ∀ n, ∀ t ∈ s.table.replies n, t.sz ≠ -1 →
    ∃ b, t.buf = some b ∧ Holds v (fun j => j.key = (n, t.xid)) b t.sz
  floor : ∀ n f, s.table.rereplyWindow.lookup n = some f →
    ∃ j, FromNet v j ∧ j.nonce = n ∧ j.xidRep = f

theorem Sourced.mono (h : Sourced e v s) (g : Grows v v') : Sourced e v' s where
  jobs m hm := g.received (h.jobs m hm)
  workers w := (h.workers w).mono g
  execs j hj := ⟨(h.execs j hj).1.mono g, (h.execs j hj).2⟩
  results r hr := ⟨g.execs (h.results r hr).1, (h.results r hr).2⟩
  copies j hj := ⟨(h.copies j hj).1.mono g, (h.copies j hj).2⟩
  conns n c hc := by
    obtain ⟨hn, j, hj, hcn⟩ := h.conns n c hc
    exact ⟨hn, j, hj.mono g, hcn⟩
  table n t ht hsz := by
    obtain ⟨b, hb, hh⟩ := h.table n t ht hsz
    exact ⟨b, hb, hh.mono g⟩
  floor n f hf := by
    obtain ⟨j, hj, hn⟩ := h.floor n f hf
    exact ⟨j, hj.mono g, hn⟩

theorem sourced_init : Sourced e (init : Rpcs χ) init where
  jobs m hm := by cases hm
  workers w := trivial
  execs j hj := by cases hj
  results r hr := by cases hr
  copies j hj := by cases hj
  conns n c hc := by cases hc
  table n t ht := by cases ht
  floor n f hf := by cases hf

theorem ok_setWorker {p : Pc χ} (h : ∀ w, Ok e v (s.workers w)) (w : Worker) (hp : Ok e v p) :
    ∀ w', Ok e v ((s.setWorker w p).workers w') :=
  forall_setWorker h hp

theorem Sourced.setWorker {p : Pc χ} (h : Sourced e v s) (w : Worker) (hp : Ok e v p) :
    Sourced e v (s.setWorker w p) :=
  { h with workers := ok_setWorker h.workers w hp }

theorem Sourced.invoke {j : Job χ} (h : Sourced e v s) (w : Worker) (hj : FromNet v j)
    (ha : Accepted e j) (hx : j ∈ v.execs) : Sourced e v (s.invoke w j) :=
  { h with
    workers := ok_setWorker h.workers w hx
    execs := fun j' hj' => by
      rcases List.mem_append.mp hj' with hj' | hj'
      · exact h.execs j' hj'
      · rw [List.mem_singleton.mp hj']
        exact ⟨hj, ha⟩ }

theorem Sourced.enter {j : Job χ} (h : Sourced e v s) (w : Worker) (hj : FromNet v j)
    (ha : Accepted e j) (hn : j.nonce ≠ 0) : Sourced e v (s.enter w j) :=
  { h with
    workers := ok_setWorker h.workers w ⟨hj, ha, hn⟩
    copies := fun j' hj' => by
      simp only [Rpcs.enter] at hj'
      split at hj'
      · exact h.copies j' hj'
      · rcases List.mem_append.mp hj' with hj' | hj'
        · exact h.copies j' hj'
        · rw [List.mem_singleton.mp hj']
          exact ⟨hj, hn⟩ }

/-! ## Steps -/

theorem grows_invoke (s : Rpcs χ) (w : Worker) (j : Job χ) : Grows s (s.invoke w j) :=
  ⟨fun _ h => h, fun _ h => List.mem_append_left _ h, fun _ h => h, List.prefix_rfl, fun _ h => h,
    fun _ h => h⟩

theorem grows_answer (s : Rpcs χ) (w : Worker) (j : Job χ) (st : Rpcstate) :
    Grows s (s.answer w j st) := by
  cases st with
  | new => exact grows_invoke s w j
  | inprogress => exact .of_eq rfl rfl rfl rfl rfl rfl
  | done b sz => cases b <;> exact .of_eq rfl rfl rfl rfl rfl rfl
  | forgotten => exact .of_eq rfl rfl rfl rfl rfl rfl

/-- What a check may change. -/
theorem check_eq (s : Rpcs χ) (w : Worker) (j : Job χ) : ∃ t freed workers aborted execs,
    s.check w j = { s with
      table := t, freed := freed, workers := workers, aborted := aborted, execs := execs } := by
  unfold Rpcs.check
  split
  · exact ⟨_, _, _, _, _, rfl⟩
  · rename_i st t freed _
    cases st with
    | done b sz => cases b <;> exact ⟨_, _, _, _, _, rfl⟩
    | _ => exact ⟨_, _, _, _, _, rfl⟩

theorem grows_check (s : Rpcs χ) (w : Worker) (j : Job χ) : Grows s (s.check w j) := by
  unfold check
  split
  · exact .of_eq rfl rfl rfl rfl rfl rfl
  · rename_i st t freed _
    have h := grows_answer { s with table := t, freed := s.freed ++ freed } w j st
    exact ⟨h.received, h.execs, h.results, h.heap, h.recorded, h.dead⟩

/-- After a check the table still holds what handlers returned. -/
theorem Sourced.checked {j : Job χ} {st : Rpcstate} {t : ReplyTable} {freed : List Addr}
    (h : Sourced e v s) (hj : FromNet v j)
    (hc : ReplyTable.Checked s.table j.nonce j.xid j.xidRep st t freed) :
    Sourced e v { s with table := t, freed := s.freed ++ freed } :=
  { h with
    table := fun n en hen hsz => by
      rcases hc.of_mem hen with hold | ⟨-, -, rfl⟩
      · exact h.table n en hold hsz
      · exact absurd rfl hsz
    floor := fun n f hf => by
      rw [hc.floor] at hf
      by_cases hn : n = j.nonce
      · subst hn
        rw [AList.lookup_insert, Option.some.injEq] at hf
        rcases ReplyTable.newFloor_eq s.table j.nonce j.xidRep with heq | hold
        · exact ⟨j, hj, rfl, by rw [← hf, heq]⟩
        · exact h.floor _ _ (hf ▸ hold)
      · rw [AList.lookup_insert_ne hn] at hf
        exact h.floor n f hf }

theorem Sourced.done {j : Job χ} {b : Option Addr} {sz : Int} {t : ReplyTable} {freed : List Addr}
    (h : Sourced e v s) (hn : j.nonce ≠ 0)
    (hc : ReplyTable.Checked s.table j.nonce j.xid j.xidRep (.done b sz) t freed) :
    ∃ a, b = some a ∧ Holds v (SameCall j) a sz := by
  cases hc with
  | @done l kept removed _ en _ hl hs he hx hsz =>
      have hen : en ∈ s.table.replies j.nonce := by
        rw [ReplyTable.replies, hl]
        exact hs.sub.subset he
      obtain ⟨a, ha, hh⟩ := h.table _ en hen hsz
      refine ⟨a, ha, hh.imp fun j' hk => ⟨?_, fun h0 => absurd h0 hn⟩⟩
      rw [hk, hx]
      rfl

theorem Sourced.answer {w : Worker} {j : Job χ} {st : Rpcstate} (h : Sourced e v s)
    (hj : FromNet v j) (ha : Accepted e j) (hx : st = .new → j ∈ v.execs)
    (hd : ∀ b sz, st = .done b sz → ∃ a, b = some a ∧ Holds v (SameCall j) a sz) :
    Sourced e v (s.answer w j st) := by
  cases st with
  | new => exact h.invoke w hj ha (hx rfl)
  | inprogress => exact h.setWorker w trivial
  | done b sz =>
      obtain ⟨a, rfl, hh⟩ := hd b sz rfl
      exact h.setWorker w ⟨hh, j, hj, rfl, rfl, fun _ => rfl⟩
  | forgotten => exact h.setWorker w ⟨hj, _, by decide, rfl⟩

theorem Sourced.check {w : Worker} {j : Job χ} (h : Sourced e s s) (hw : s.workers w = .check j) :
    Sourced e (s.check w j) (s.check w j) := by
  have hok := h.workers w
  rw [hw] at hok
  obtain ⟨hj, ha, hn⟩ := hok
  have hg := grows_check s w j
  revert hg
  unfold Rpcs.check
  split
  · intro hg
    exact { h.mono hg with }
  · rename_i st t freed hc
    have hck := ReplyTable.checked hc
    intro hg
    have h' := (h.mono hg).checked (hj.mono hg) hck
    apply h'.answer (hj.mono hg) ha
    · rintro rfl
      simp [Rpcs.answer, Rpcs.invoke]
    · rintro b sz rfl
      exact (h.mono hg).done hn hck

theorem Sourced.saveConn {j : Job χ} (h : Sourced e v s) (hj : FromNet v j)
    (hn : j.nonce ≠ 0) : ∀ n c, (s.saveConn e j).lookup n = some c →
      n ≠ 0 ∧ ∃ j', FromNet v j' ∧ j'.conn = c ∧ j'.nonce = n := by
  have hins : ∀ n c, (s.conns.insert j.nonce j.conn).lookup n = some c →
      n ≠ 0 ∧ ∃ j', FromNet v j' ∧ j'.conn = c ∧ j'.nonce = n := by
    intro n c hc
    by_cases hnn : n = j.nonce
    · subst hnn
      rw [AList.lookup_insert, Option.some.injEq] at hc
      exact ⟨hn, j, hj, hc, rfl⟩
    · rw [AList.lookup_insert_ne hnn] at hc
      exact h.conns n c hc
  unfold Rpcs.saveConn
  split
  · exact hins
  · split
    · exact hins
    · exact h.conns

/-- What goes out is the reply to a call whose handler ran, on a connection of the call, or the refusal
of a request on its own connection. -/
theorem Sourced.output {a : Act χ} {m : χ × Bytes} (h : Sourced e s s) (hg : guard e s a)
    (hm : m ∈ s.output a) :
    (∃ r ∈ s.results, m.2 = frame r.buf ∧ ∃ j, SameCall j r.job ∧ Route s j m.1) ∨
      ∃ j ret, FromNet s j ∧ m.1 = j.conn ∧ ret < 0 ∧ m.2 = frame (j.reply ret []).buf := by
  cases a with
  | tx w j c b sz ok =>
      cases ok with
      | false => cases hm
      | true =>
          have hok := h.workers w
          rw [hg.2.1] at hok
          obtain ⟨⟨r, hr, hsame, hheap, rfl⟩, hroute⟩ := hok
          obtain rfl := List.mem_singleton.mp hm
          refine .inl ⟨r, hr, ?_, j, hsame, hroute⟩
          rw [contents_eq hheap]
          simp
  | txReply w j r ok =>
      cases ok with
      | false => cases hm
      | true =>
          have hok := h.workers w
          rw [hg.2.1] at hok
          obtain ⟨hj, ret, hret, rfl⟩ := hok
          obtain rfl := List.mem_singleton.mp hm
          exact .inr ⟨j, ret, hj, rfl, hret, rfl⟩
  | gotPdu => cases hm
  | begin => cases hm
  | seen => cases hm
  | save => cases hm
  | check => cases hm
  | handled => cases hm
  | record => cases hm
  | choose => cases hm
  | sent => cases hm
  | die => cases hm

variable [DecidableEq χ]

/-- What `dispatch` may change before its first critical section. -/
theorem begin_eq (s : Rpcs χ) (w : Worker) (c : χ) (b : Bytes) : ∃ jobs workers execs copies,
    s.begin e w c b = { s with jobs := jobs, workers := workers, execs := execs, copies := copies } := by
  unfold Rpcs.begin
  split
  · exact ⟨_, _, _, _, rfl⟩
  · simp only
    split
    · exact ⟨_, _, _, _, rfl⟩
    · split
      · exact ⟨_, _, _, _, rfl⟩
      · split <;> exact ⟨_, _, _, _, rfl⟩

theorem grows_begin (s : Rpcs χ) (w : Worker) (c : χ) (b : Bytes) : Grows s (s.begin e w c b) := by
  unfold begin
  split
  · exact .of_eq rfl rfl rfl rfl rfl rfl
  · simp only
    split
    · exact .of_eq rfl rfl rfl rfl rfl rfl
    · split
      · exact .of_eq rfl rfl rfl rfl rfl rfl
      · split
        · exact .of_eq rfl rfl rfl rfl rfl rfl
        · have h := grows_invoke { s with jobs := s.jobs.erase (c, b) } w ⟨c, by assumption⟩
          exact ⟨h.received, h.execs, h.results, h.heap, h.recorded, h.dead⟩

theorem grows_next (s : Rpcs χ) (a : Act χ) : Grows s (s.next e a) := by
  cases a with
  | gotPdu c b accept =>
      cases accept with
      | false => exact .of_eq rfl rfl rfl rfl rfl rfl
      | true =>
          exact ⟨fun _ h => List.mem_append_left _ h, fun _ h => h, fun _ h => h, List.prefix_rfl,
            fun _ h => h, fun _ h => h⟩
  | begin w c b => exact grows_begin s w c b
  | seen w j => exact .of_eq rfl rfl rfl rfl rfl rfl
  | save w j => exact .of_eq rfl rfl rfl rfl rfl rfl
  | check w j => exact grows_check s w j
  | handled w j ret body =>
      simp only [next, handled]
      split <;>
        exact ⟨fun _ h => h, fun _ h => h, fun _ h => List.mem_append_left _ h,
          List.prefix_append _ _, fun _ h => h, fun _ h => h⟩
  | record w j b =>
      simp only [next, record]
      split
      · exact .of_eq rfl rfl rfl rfl rfl rfl
      · exact ⟨fun _ h => h, fun _ h => h, fun _ h => h, List.prefix_rfl,
          fun _ h => List.mem_append_left _ h, fun _ h => h⟩
  | choose w j b =>
      simp only [next, choose]
      split <;> exact .of_eq rfl rfl rfl rfl rfl rfl
  | tx w j c b sz ok => exact .of_eq rfl rfl rfl rfl rfl rfl
  | sent w j c b sz => exact .of_eq rfl rfl rfl rfl rfl rfl
  | txReply w j r ok => exact .of_eq rfl rfl rfl rfl rfl rfl
  | die c =>
      exact ⟨fun _ h => h, fun _ h => h, fun _ h => h, List.prefix_rfl, fun _ h => h,
        fun _ h => List.mem_cons_of_mem _ h⟩

theorem Sourced.begin {w : Worker} {c : χ} {b : Bytes} (h : Sourced e s s) (hm : (c, b) ∈ s.jobs) :
    Sourced e (s.begin e w c b) (s.begin e w c b) := by
  have hg := grows_begin (e := e) s w c b
  have hin := h.jobs _ hm
  have h' : Sourced e (s.begin e w c b) { s with jobs := s.jobs.erase (c, b) } :=
    { h.mono hg with jobs := fun m hm => hg.received (h.jobs m (List.mem_of_mem_erase hm)) }
  revert hg h'
  unfold Rpcs.begin
  split
  · exact fun _ h' => h'
  · rename_i q hq
    have hj : FromNet s (⟨c, q⟩ : Job χ) := ⟨b, hin, hq⟩
    simp only
    split
    · intro hg h'
      exact h'.setWorker w ⟨hj.mono hg, _, by decide, rfl⟩
    · rename_i hsrv
      have ha : Accepted e (⟨c, q⟩ : Job χ) := by
        by_cases h0 : q.hdr.srvNonce = 0
        · exact .inl h0
        · exact .inr (by simpa [h0] using hsrv)
      split
      · exact fun _ h' => h'
      · split
        · rename_i hn
          intro hg h'
          exact h'.enter w (hj.mono hg) ha hn
        · intro hg h'
          exact h'.invoke w (hj.mono hg) ha (by simp [Rpcs.invoke])

theorem Sourced.handled {w : Worker} {j : Job χ} {ret : Int32} {body : Bytes} (h : Sourced e s s)
    (hw : s.workers w = .running j) (hr : HandlerOk e j ret body) :
    Sourced e (s.handled w j ret body) (s.handled w j ret body) := by
  have hx : j ∈ s.execs := by
    have hok := h.workers w
    rwa [hw] at hok
  have hg : Grows s (s.handled w j ret body) := grows_next (e := e) s (.handled w j ret body)
  have hnew : ∃ sz, Holds (s.handled w j ret body) (· = j) s.heap.length sz := by
    have hh : (s.handled w j ret body).heap = s.heap ++ [(Result.mk j ret body).buf] := by
      simp only [Rpcs.handled]
      split <;> rfl
    have hres : (s.handled w j ret body).results = s.results ++ [⟨j, ret, body⟩] := by
      simp only [Rpcs.handled]
      split <;> rfl
    exact ⟨_, ⟨j, ret, body⟩, by rw [hres]; simp, rfl, by rw [hh]; simp, rfl⟩
  have h' : Sourced e (s.handled w j ret body)
      { s with
        heap := s.heap ++ [(Result.mk j ret body).buf]
        results := s.results ++ [Result.mk j ret body] } :=
    { h.mono hg with
      results := fun r hmem => by
        rcases List.mem_append.mp hmem with hmem | hmem
        · exact (h.mono hg).results r hmem
        · rw [List.mem_singleton.mp hmem]
          exact ⟨hg.execs hx, hr⟩ }
  revert hg hnew h'
  simp only [Rpcs.handled]
  split
  · rename_i hn
    intro hg hnew h'
    exact h'.setWorker w ⟨hg.execs hx, hn, hnew⟩
  · intro hg hnew h'
    exact h'.setWorker w ⟨hg.execs hx, hnew⟩

theorem Sourced.record {w : Worker} {j : Job χ} {b : Addr} (h : Sourced e s s)
    (hw : s.workers w = .record j b) : Sourced e (s.record w j b) (s.record w j b) := by
  have hok := h.workers w
  rw [hw] at hok
  obtain ⟨hx, hn, sz, hh⟩ := hok
  have hg : Grows s (s.record w j b) := grows_next (e := e) s (.record w j b)
  revert hg
  unfold Rpcs.record
  split
  · intro hg
    exact { h.mono hg with }
  · rename_i t ht
    have hrec := ReplyTable.recorded (by omega) ht
    intro hg
    have h' := h.mono hg
    have hh' := hh.contents.mono hg
    refine { h' with
      workers := ok_setWorker h'.workers w ⟨hg.execs hx, sz, hh.mono hg⟩
      table := fun n en hen hsz => ?_
      floor := fun n f hf => h'.floor n f (by rw [← hrec.floor]; exact hf) }
    rcases hrec.of_mem hen with hold | ⟨rfl, rfl⟩
    · exact h'.table n en hold hsz
    · exact ⟨b, rfl, hh'.imp fun j' hj' => by rw [hj']; rfl⟩

theorem Sourced.choose {w : Worker} {j : Job χ} {b : Addr} (h : Sourced e s s)
    (hw : s.workers w = .choose j b) : Sourced e (s.choose w j b) (s.choose w j b) := by
  have hok := h.workers w
  rw [hw] at hok
  obtain ⟨hx, sz, hh⟩ := hok
  have hg : Grows s (s.choose w j b) := grows_next (e := e) s (.choose w j b)
  revert hg
  unfold Rpcs.choose
  split
  · intro hg
    exact { h.mono hg with }
  · rename_i c hc
    intro hg
    have hroute : Route s j c := by
      unfold target at hc
      split at hc
      · obtain ⟨hn, j', hj', hcc, hnn⟩ := h.conns _ _ hc
        exact ⟨j', hj', hcc, hnn, fun h0 => absurd h0 hn⟩
      · exact ⟨j, (h.execs j hx).1, Option.some.inj hc, rfl, fun _ => rfl⟩
    have hsame : Holds s (SameCall j) b (s.contents b).length :=
      hh.contents.imp fun j' hj' => ⟨by rw [hj'], fun _ => hj'⟩
    exact (h.mono hg).setWorker w ⟨hsame.mono hg, hroute.mono hg⟩

theorem Sourced.step {a : Act χ} (h : Sourced e s s) (hg : guard e s a) :
    Sourced e (s.next e a) (s.next e a) := by
  have hgr := grows_next (e := e) s a
  have h' := h.mono hgr
  cases a with
  | gotPdu c b accept =>
      cases accept with
      | false => exact h
      | true =>
          refine { h' with jobs := fun m hm => ?_ }
          rcases List.mem_append.mp hm with hm | hm
          · exact h'.jobs m hm
          · exact List.mem_append_right _ hm
  | begin w c b => exact h.begin hg.2.2
  | seen w j =>
      have hok := h'.workers w
      rw [hg.2] at hok
      refine { h' with
        workers := ok_setWorker h'.workers w hok
        table := fun n en hen => ?_
        floor := fun n f hf => ?_ }
      · have hen : en ∈ (s.table.create j.nonce).replies n := hen
        rw [ReplyTable.replies_create] at hen
        exact h'.table n en hen
      · have hf : (s.table.create j.nonce).rereplyWindow.lookup n = some f := hf
        rw [ReplyTable.rereplyWindow_create] at hf
        exact h'.floor n f hf
  | save w j =>
      have hok := h'.workers w
      rw [hg.2] at hok
      exact { h' with
        workers := ok_setWorker h'.workers w hok
        conns := h'.saveConn hok.1 hok.2.2 }
  | check w j => exact h.check hg.2
  | handled w j ret body => exact h.handled hg.2.1 hg.2.2
  | record w j b => exact h.record hg.2
  | choose w j b => exact h.choose hg.2
  | tx w j c b sz ok =>
      have hok := h'.workers w
      rw [hg.2.1] at hok
      exact { h' with workers := ok_setWorker h'.workers w hok }
  | sent w j c b sz => exact { h' with workers := ok_setWorker h'.workers w trivial }
  | txReply w j r ok => exact h'.setWorker w trivial
  | die c => exact { h' with }

theorem sourced_of_run {tr : List (Act χ)} (h : (lts e).Run tr s) : Sourced e s s := by
  refine h.invariant (I := fun _ s => Sourced e s s) ?_ ?_
  · rintro s rfl
    exact sourced_init
  · intro tr s a _ hs hg
    exact hs.step hg

end StanDfs.Rpcs
