import StanDfs.Rpc.Lemmas.Steps

/-!
# On which connection a reply goes out

The original dispatch answers on its own connection unless the server has seen that one dead, and only then
on the latest connection to the client. Duplicates that are answered `INPROGRESS` rely on it.
-/

namespace StanDfs

namespace Pc

variable {χ : Type*}

/-- The job of a dispatch. -/
def job : Pc χ → Option (Job χ)
  | .idle => none
  | .seen j | .save j | .check j | .running j | .record j _ | .choose j _ | .send j _ _ _
  | .sending j _ _ _ | .reply j _ => some j

/-- The dispatch has not saved its connection yet. -/
def unsaved : Pc χ → Option (Job χ)
  | .seen j | .save j => some j
  | _ => none

/-- The dispatch has not come to its check yet. -/
def early : Pc χ → Option (Job χ)
  | .seen j | .save j | .check j => some j
  | _ => none

/-- The handler runs, or the connection for its reply is not chosen yet. -/
def pending : Pc χ → Option (Job χ)
  | .running j | .record j _ | .choose j _ => some j
  | _ => none

/-- The connection on which the worker is about to send the reply to a call. -/
def route : Pc χ → Option ((UInt32 × UInt32) × χ)
  | .send j c _ _ => some (j.key, c)
  | _ => none

theorem job_of_early {p : Pc χ} {j : Job χ} (h : p.early = some j) : p.job = some j := by
  cases p <;> first | exact h | cases h

theorem job_of_pending {p : Pc χ} {j : Job χ} (h : p.pending = some j) : p.job = some j := by
  cases p <;> first | exact h | cases h

theorem job_of_route {p : Pc χ} {q : (UInt32 × UInt32) × χ} (h : p.route = some q) :
    ∃ j, p.job = some j ∧ j.key = q.1 := by
  cases p with
  | send j c b sz =>
      cases h
      exact ⟨j, rfl, rfl⟩
  | _ => cases h

end Pc

namespace Rpcs

variable {χ : Type*} {e : Env χ} {s : Rpcs χ} {A : χ → Prop}

/-- The connection `c` is at least as new as `c'`. -/
def AsNew (e : Env χ) (c c' : χ) : Prop := 0 ≤ compare (e.created c) (e.created c')

/-- A reply to the call was passed to `send`, or is about to be, on a connection at least as new as `c`. -/
def Covered (e : Env χ) (s : Rpcs χ) (k : UInt32 × UInt32) (c : χ) : Prop :=
  (∃ p ∈ s.answered, p.1 = k ∧ AsNew e p.2 c) ∨
    ∃ w, ∃ p ∈ (s.workers w).route, p.1 = k ∧ AsNew e p.2 c

/-- The reply to the copy's call went out on its own connection, or is about to. -/
def Served (s : Rpcs χ) (j : Job χ) : Prop :=
  (j.key, j.conn) ∈ s.answered ∨ ∃ w, (s.workers w).route = some (j.key, j.conn)

/-- A worker will choose a connection for the reply to the call. -/
def Pending (s : Rpcs χ) (k : UInt32 × UInt32) : Prop := ∃ w, ∃ j ∈ (s.workers w).pending, j.key = k

/-- A copy of the job has not come to its check. -/
def Early (s : Rpcs χ) (j : Job χ) : Prop := ∃ w, (s.workers w).early = some j

/-- The connection of the job is among those `conns_` has seen. -/
def Saved (e : Env χ) (s : Rpcs χ) (j : Job χ) : Prop :=
  ∃ c, s.conns.lookup j.nonce = some c ∧ AsNew e c j.conn

instance (e : Env χ) (c c' : χ) : Decidable (AsNew e c c') := inferInstanceAs (Decidable (_ ≤ _))

/-! ## Calls in progress are attended to -/

/-- Every entry in progress is of a call that a worker is busy with. -/
def Attended (s : Rpcs χ) : Prop :=
  ∀ n ≠ 0, ∀ en ∈ s.table.replies n, en.sz = -1 →
    ∃ w j, (s.workers w).busy = some j ∧ j.key = (n, en.xid)

theorem Attended.setWorker {w : Worker} {p p₀ : Pc χ} (h : Attended s) (hw : s.workers w = p₀)
    (hp : ∀ j, p₀.busy = some j → j.nonce ≠ 0 → p.busy = some j) : Attended (s.setWorker w p) := by
  intro n hn en hen hsz
  obtain ⟨w', j, hb, hk⟩ := h n hn en hen hsz
  by_cases hww : w' = w
  · subst hww
    rw [hw] at hb
    have hn' : j.nonce ≠ 0 := by
      rw [show j.nonce = n from congrArg Prod.fst hk]
      exact hn
    exact ⟨w', j, by simpa [Rpcs.setWorker] using hp j hb hn', hk⟩
  · exact ⟨w', j, by simpa [Rpcs.setWorker, Function.update_of_ne hww] using hb, hk⟩

theorem Attended.check {w : Worker} {j : Job χ} (h : Attended s) (hw : s.workers w = .check j) :
    Attended (s.check w j) := by
  unfold Rpcs.check
  split
  · exact h
  · rename_i st t freed hc
    have hck := ReplyTable.checked hc
    have hold : st ≠ .new → Attended { s with table := t, freed := s.freed ++ freed } := by
      intro hst n hn en hen hsz
      rcases hck.of_mem hen with hen | ⟨hnew, _⟩
      · exact h n hn en hen hsz
      · exact absurd hnew hst
    have hset : ∀ {s' : Rpcs χ} {p : Pc χ}, Attended s' → s'.workers w = .check j →
        Attended (s'.setWorker w p) := fun h' hw' => h'.setWorker hw' fun j hj => by cases hj
    cases st with
    | new =>
        intro n hn en hen hsz
        rcases hck.of_mem hen with hen | ⟨_, rfl, rfl⟩
        · obtain ⟨w', j', hb, hk⟩ := h n hn en hen hsz
          have hww : w' ≠ w := by
            rintro rfl
            rw [hw] at hb
            cases hb
          refine ⟨w', j', ?_, hk⟩
          simpa [Rpcs.answer, Rpcs.invoke, Rpcs.setWorker, Function.update_of_ne hww] using hb
        · exact ⟨w, j, by simp [Rpcs.answer, Rpcs.invoke, Rpcs.setWorker, Pc.busy], rfl⟩
    | inprogress => exact hset (hold (by simp)) hw
    | done b sz =>
        cases b with
        | none => exact hold (by simp)
        | some b => exact hset (hold (by simp)) hw
    | forgotten => exact hset (hold (by simp)) hw

theorem Attended.record {w : Worker} {j : Job χ} {b : Addr} (h : Attended s) (hd : s.table.Distinct)
    (hw : s.workers w = .record j b) : Attended (s.record w j b) := by
  unfold Rpcs.record
  split
  · exact h
  · rename_i t ht
    have hrec := ReplyTable.recorded (by omega) ht
    intro n hn en hen hsz
    rcases hrec.of_mem hen with hold | ⟨rfl, rfl⟩
    · obtain ⟨w', j', hb, hk⟩ := h n hn en hold hsz
      by_cases hww : w' = w
      · subst hww
        rw [hw] at hb
        cases hb
        obtain ⟨rfl, hx⟩ := Prod.mk.inj hk
        have heq := (hrec.distinct hd).eq hen hrec.mem_self hx.symm
        rw [heq] at hsz
        exact absurd hsz (show ((s.contents b).length : Int) ≠ -1 by omega)
      · exact ⟨w', j', by simpa [Rpcs.setWorker, Function.update_of_ne hww] using hb, hk⟩
    · exact absurd hsz (show ((s.contents b).length : Int) ≠ -1 by omega)

section Step

variable [DecidableEq χ]

theorem Attended.begin {w : Worker} {c : χ} {b : Bytes} (h : Attended s)
    (hw : s.workers w = .idle) : Attended (s.begin e w c b) := by
  have h' : Attended { s with jobs := s.jobs.erase (c, b) } := h
  have hset : ∀ p : Pc χ, Attended (Rpcs.setWorker { s with jobs := s.jobs.erase (c, b) } w p) :=
    fun p => h'.setWorker hw fun j hj => by cases hj
  unfold Rpcs.begin
  split
  · exact h'
  · simp only
    split
    · exact hset _
    · split
      · exact h'
      · split
        · exact hset _
        · exact hset _

theorem Attended.step {a : Act χ} (h : Attended s) (ho : Once s) (hg : guard e s a) :
    Attended (s.next e a) := by
  cases a with
  | gotPdu c b accept => cases accept <;> exact h
  | begin w c b => exact h.begin hg.2.1
  | seen w j =>
      have h' : Attended { s with table := s.table.create j.nonce } := by
        intro n hn en hen hsz
        have hen : en ∈ (s.table.create j.nonce).replies n := hen
        rw [ReplyTable.replies_create] at hen
        exact h n hn en hen hsz
      exact h'.setWorker hg.2 fun j hj => by cases hj
  | save w j => exact h.setWorker (p := .check j) hg.2 fun j hj => by cases hj
  | check w j => exact h.check hg.2
  | handled w j ret body =>
      simp only [next, handled]
      split
      · exact h.setWorker (p := .record j s.heap.length) hg.2.1 fun j' hj' _ => hj'
      · rename_i hn
        refine h.setWorker (p := .choose j s.heap.length) hg.2.1 fun j' hj' hn' => ?_
        cases hj'
        exact absurd hn' hn
  | record w j b => exact h.record ho.distinct hg.2
  | choose w j b =>
      simp only [next, choose]
      split
      · exact h
      · exact h.setWorker hg.2 fun j hj => by cases hj
  | tx w j c b sz ok => exact h.setWorker (p := .sending j c b sz) hg.2.1 fun j hj => by cases hj
  | sent w j c b sz => exact h.setWorker (p := .idle) hg.2 fun j hj => by cases hj
  | txReply w j r ok => exact h.setWorker hg.2.1 fun j hj => by cases hj
  | die c => exact h

theorem attended_of_run {tr : List (Act χ)} (h : (lts e).Run tr s) : Attended s := by
  refine h.invariant (I := fun _ s => Attended s) ?_ ?_
  · rintro s rfl n _ en hen
    cases hen
  · intro tr s a hr hs hg
    exact hs.step (once_of_run hr) hg

end Step

/-! ## Copies get their replies -/

theorem AsNew.refl (c : χ) : AsNew e c c := compare_self _

theorem AsNew.trans {c₁ c₂ c₃ : χ} (h : AsNew e c₁ c₂) (h' : AsNew e c₂ c₃) : AsNew e c₁ c₃ :=
  compare_nonneg_trans h h'

theorem AsNew.of_not {c c' : χ} (h : ¬ AsNew e c c') : AsNew e c' c := compare_swap (by simpa [AsNew] using h)

theorem Served.covered {j : Job χ} {c : χ} (h : Served s j) (hn : AsNew e j.conn c) : Covered e s j.key c := by
  rcases h with hans | ⟨w, hw⟩
  · exact .inl ⟨_, hans, rfl, hn⟩
  · exact .inr ⟨w, _, hw, rfl, hn⟩

theorem Covered.setWorker {k : UInt32 × UInt32} {c : χ} {w : Worker} {p : Pc χ} (h : Covered e s k c)
    (hw : (s.workers w).route = none) : Covered e (s.setWorker w p) k c := by
  rcases h with hans | ⟨w', q, hq, hk⟩
  · exact .inl hans
  · have hww : w' ≠ w := by
      rintro rfl
      rw [hw] at hq
      cases hq
    exact .inr ⟨w', q, by simpa [Rpcs.setWorker, Function.update_of_ne hww] using hq, hk⟩

theorem exists_newest {l : List χ} (h : l ≠ []) : ∃ c ∈ l, ∀ c' ∈ l, AsNew e c c' := by
  induction l with
  | nil => exact absurd rfl h
  | cons c l ih =>
      by_cases hl : l = []
      · subst hl
        refine ⟨c, List.mem_cons_self, fun c' hc' => ?_⟩
        rw [List.mem_singleton.mp hc']
        exact .refl c
      · obtain ⟨m, hm, hmax⟩ := ih hl
        by_cases hc : AsNew e m c
        · refine ⟨m, List.mem_cons_of_mem _ hm, fun c' hc' => ?_⟩
          rcases List.mem_cons.mp hc' with rfl | hc'
          · exact hc
          · exact hmax c' hc'
        · refine ⟨c, List.mem_cons_self, fun c' hc' => ?_⟩
          rcases List.mem_cons.mp hc' with rfl | hc'
          · exact .refl c'
          · exact (AsNew.of_not hc).trans (hmax c' hc')

/-- Every copy whose connection satisfies `A` has a reply coming that is not on an older connection. -/
structure Routed (e : Env χ) (A : χ → Prop) (s : Rpcs χ) : Prop where
  saved : ∀ j ∈ s.copies, (∃ w, (s.workers w).unsaved = some j) ∨ Saved e s j
  covered : ∀ j ∈ s.copies, A j.conn → Early s j ∨ Pending s j.key ∨ Covered e s j.key j.conn
  answered : ∀ r ∈ s.results, Pending s r.job.key ∨ ∃ c, Covered e s r.job.key c

theorem routed_init : Routed e A (init : Rpcs χ) where
  saved j hj := by cases hj
  covered j hj := by cases hj
  answered r hr := by cases hr

theorem Routed.mono {A' : χ → Prop} (h : Routed e A s) (hA : ∀ c, A' c → A c) : Routed e A' s :=
  { h with covered := fun j hj ha => h.covered j hj (hA _ ha) }

/-- The copies of a call have come to rest, or a worker will choose a connection for them. -/
def Settled (e : Env χ) (A : χ → Prop) (s : Rpcs χ) (k : UInt32 × UInt32) : Prop :=
  Pending s k ∨ ((∃ c, Covered e s k c) ∧
    ∀ j ∈ s.copies, j.key = k → A j.conn → Early s j ∨ Covered e s k j.conn)

theorem Routed.setWorker {w : Worker} {p p₀ : Pc χ} (h : Routed e A s) (hw : s.workers w = p₀)
    (hu : ∀ j, p₀.unsaved = some j → p.unsaved = some j ∨ Saved e s j)
    (he : ∀ j ∈ s.copies, A j.conn → p₀.early = some j → Early (s.setWorker w p) j ∨
      Pending (s.setWorker w p) j.key ∨ Covered e (s.setWorker w p) j.key j.conn)
    (hp : ∀ j, p₀.pending = some j → Settled e A (s.setWorker w p) j.key)
    (hr : ∀ q, p₀.route = some q → p.route = some q ∨ q ∈ s.answered) :
    Routed e A (s.setWorker w p) := by
  have hself : (s.setWorker w p).workers w = p := by simp [Rpcs.setWorker]
  have hrest : ∀ w' ≠ w, (s.setWorker w p).workers w' = s.workers w' := fun w' hww => by
    simp [Rpcs.setWorker, Function.update_of_ne hww]
  have hearly : ∀ j, Early s j → Early (s.setWorker w p) j ∨ p₀.early = some j := by
    rintro j ⟨w', hj⟩
    by_cases hww : w' = w
    · subst hww
      exact .inr (hw ▸ hj)
    · exact .inl ⟨w', by rw [hrest w' hww]; exact hj⟩
  have hpend : ∀ k, Pending s k → Settled e A (s.setWorker w p) k := by
    rintro k ⟨w', j, hj, rfl⟩
    by_cases hww : w' = w
    · subst hww
      exact hp j (hw ▸ hj)
    · exact .inl ⟨w', j, by rw [hrest w' hww]; exact hj, rfl⟩
  have hcov : ∀ k c, Covered e s k c → Covered e (s.setWorker w p) k c := by
    rintro k c (hans | ⟨w', q, hq, hk⟩)
    · exact .inl hans
    · by_cases hww : w' = w
      · subst hww
        rcases hr q (hw ▸ hq) with hq' | hq'
        · exact .inr ⟨w', q, by rw [hself]; exact hq', hk⟩
        · exact .inl ⟨q, hq', hk⟩
      · exact .inr ⟨w', q, by rw [hrest w' hww]; exact hq, hk⟩
  refine ⟨fun j hj => ?_, fun j hj ha => ?_, fun r hrm => ?_⟩
  · rcases h.saved j hj with ⟨w', hj'⟩ | hs
    · by_cases hww : w' = w
      · subst hww
        rcases hu j (hw ▸ hj') with hj'' | hs
        · exact .inl ⟨w', by rw [hself]; exact hj''⟩
        · exact .inr hs
      · exact .inl ⟨w', by rw [hrest w' hww]; exact hj'⟩
    · exact .inr hs
  · rcases h.covered j hj ha with hE | hP | hC
    · rcases hearly j hE with hE | hj'
      · exact .inl hE
      · exact he j hj ha hj'
    · rcases hpend j.key hP with hP | ⟨_, hall⟩
      · exact .inr (.inl hP)
      · exact (hall j hj rfl ha).imp_right .inr
    · exact .inr (.inr (hcov _ _ hC))
  · rcases h.answered r hrm with hP | ⟨c, hC⟩
    · exact (hpend _ hP).imp_right And.left
    · exact .inr ⟨c, hcov _ _ hC⟩

theorem Routed.move {w : Worker} {p p₀ : Pc χ} (h : Routed e A s) (hw : s.workers w = p₀)
    (he : p₀.early = none) (hu : p₀.unsaved = none) (hr : p₀.route = none)
    (hp : ∀ j, p₀.pending = some j → p.pending = some j) : Routed e A (s.setWorker w p) := by
  refine h.setWorker hw (fun j hj => ?_) (fun j _ _ hj => ?_) (fun j hj => ?_) fun q hq => ?_
  · rw [hu] at hj
    cases hj
  · rw [he] at hj
    cases hj
  · exact .inl ⟨w, j, by simpa [Rpcs.setWorker] using hp j hj, rfl⟩
  · rw [hr] at hq
    cases hq

/-! ## What each step does for the copies -/

theorem lookup_saveConn (e : Env χ) (s : Rpcs χ) (j : Job χ) :
    ∃ c, (s.saveConn e j).lookup j.nonce = some c ∧ AsNew e c j.conn ∧
      ∀ c₀, s.conns.lookup j.nonce = some c₀ → AsNew e c c₀ := by
  cases hl : s.conns.lookup j.nonce with
  | none =>
      simp only [saveConn, hl]
      exact ⟨j.conn, AList.lookup_insert _, .refl _, fun c₀ hc₀ => by cases hc₀⟩
  | some c =>
      simp only [saveConn, hl]
      split
      · rename_i hlt
        refine ⟨j.conn, AList.lookup_insert _, .refl _, fun c₀ hc₀ => ?_⟩
        cases hc₀
        exact compare_swap hlt
      · rename_i hge
        refine ⟨c, hl, by simpa [AsNew] using hge, fun c₀ hc₀ => ?_⟩
        cases hc₀
        exact .refl c

theorem lookup_saveConn_ne (e : Env χ) (s : Rpcs χ) {j : Job χ} {n : UInt32} (h : n ≠ j.nonce) :
    (s.saveConn e j).lookup n = s.conns.lookup n := by
  unfold saveConn
  split
  · exact AList.lookup_insert_ne h
  · split
    · exact AList.lookup_insert_ne h
    · rfl

theorem Routed.save {w : Worker} {j : Job χ} (h : Routed e A s) (hw : s.workers w = .save j) :
    Routed e A { s.setWorker w (.check j) with conns := s.saveConn e j } := by
  obtain ⟨c, hc, hj, hold⟩ := lookup_saveConn e s j
  have h' : Routed e A { s with conns := s.saveConn e j } :=
    { h with
      saved := fun j' hj' => (h.saved j' hj').imp_right fun ⟨c', hc', hn⟩ => by
        by_cases hnn : j'.nonce = j.nonce
        · rw [Saved, hnn]
          exact ⟨c, hc, (hold c' (hnn ▸ hc')).trans hn⟩
        · exact ⟨c', (lookup_saveConn_ne e s hnn).trans hc', hn⟩ }
  refine h'.setWorker (p := .check j) hw (fun j' hj' => ?_) (fun j' _ _ hj' => ?_)
    (fun j' hj' => by cases hj') fun q hq => by cases hq
  · cases hj'
    exact .inr ⟨c, hc, hj⟩
  · cases hj'
    exact .inl ⟨w, by simp [Rpcs.setWorker, Pc.early]⟩

/-- At rest, one reply went out on a connection that is not older than any copy's. -/
theorem Routed.newest {k : UInt32 × UInt32} (h : Routed e A s) (hx : ∃ r ∈ s.results, r.job.key = k)
    (hrest : ∀ w j, (s.workers w).job = some j → j.key ≠ k) :
    ∃ c, (k, c) ∈ s.answered ∧ ∀ j ∈ s.copies, j.key = k → A j.conn → AsNew e c j.conn := by
  have hearly : ∀ j, j.key = k → ¬ Early s j := fun j hk ⟨w, hj⟩ =>
    hrest w j (Pc.job_of_early hj) hk
  have hpend : ¬ Pending s k := fun ⟨w, j, hj, hk⟩ => hrest w j (Pc.job_of_pending hj) hk
  have hcov : ∀ c, Covered e s k c → ∃ c', (k, c') ∈ s.answered ∧ AsNew e c' c := by
    rintro c (⟨⟨k', c'⟩, hq, rfl, hn⟩ | ⟨w, q, hq, rfl, _⟩)
    · exact ⟨c', hq, hn⟩
    · obtain ⟨j, hj, hk⟩ := Pc.job_of_route hq
      exact absurd hk (hrest w j hj)
  have hmem : ∀ {c}, c ∈ (s.answered.filter fun p => p.1 = k).map Prod.snd ↔ (k, c) ∈ s.answered := by
    intro c
    simp
  obtain ⟨r, hr, rfl⟩ := hx
  obtain ⟨c, hc⟩ := (h.answered r hr).resolve_left hpend
  obtain ⟨c', hc', _⟩ := hcov c hc
  obtain ⟨m, hm, hmax⟩ := exists_newest (e := e) (List.ne_nil_of_mem (hmem.mpr hc'))
  refine ⟨m, hmem.mp hm, fun j hj hk ha => ?_⟩
  rcases h.covered j hj ha with hE | hP | hC
  · exact absurd hE (hearly j hk)
  · exact absurd (hk ▸ hP) hpend
  · obtain ⟨c'', hc'', hn⟩ := hcov _ (hk ▸ hC)
    exact (hmax c'' (hmem.mpr hc'')).trans hn

/-- What the steps that may leave a copy without its reply must respect. When a worker stays with its own
connection, a copy that came on a newer one has its reply already. When a copy is `FORGOTTEN`, the handler of
its call is not done, or a copy on a connection as new has its reply. -/
def RoutesWell (e : Env χ) (A : χ → Prop) (s : Rpcs χ) : Act χ → Prop
  | .choose _ j _ => j.conn ∈ s.dead ∨ ∀ j' ∈ s.copies, j'.key = j.key → A j'.conn →
      Early s j' ∨ Served s j' ∨ AsNew e j.conn j'.conn
  | .check _ j => j ∈ s.copies → A j.conn → j.xid < s.table.newFloor j.nonce j.xidRep →
      Pending s j.key ∨ ∃ j' ∈ s.copies, j'.key = j.key ∧ Served s j' ∧ AsNew e j'.conn j.conn
  | _ => True

theorem pending_of_busy {w : Worker} {j : Job χ} (h : (s.workers w).busy = some j) :
    (s.workers w).pending = some j := by
  cases hp : s.workers w with
  | running j' =>
      rw [hp] at h
      exact h
  | record j' b =>
      rw [hp] at h
      exact h
  | _ =>
      rw [hp] at h
      cases h

/-- A copy comes to its check: its call is new or in progress, or it is answered. -/
theorem Routed.check {w : Worker} {j : Job χ} (h : Routed e A s) (hatt : Attended s)
    (hn : j.nonce ≠ 0) (hw : s.workers w = .check j) (hc : RoutesWell e A s (.check w j)) :
    Routed e A (s.check w j) := by
  unfold Rpcs.check
  split
  · exact { h with }
  · rename_i st t freed heq
    have hck := ReplyTable.checked heq
    have h' : Routed e A { s with table := t, freed := s.freed ++ freed } := { h with }
    have hset : ∀ p : Pc χ, (j ∈ s.copies → A j.conn →
        Pending (Rpcs.setWorker { s with table := t, freed := s.freed ++ freed } w p) j.key ∨
          Covered e (Rpcs.setWorker { s with table := t, freed := s.freed ++ freed } w p) j.key j.conn) →
        Routed e A (Rpcs.setWorker { s with table := t, freed := s.freed ++ freed } w p) := by
      intro p hj
      refine h'.setWorker hw (fun j' hj' => by cases hj') (fun j' hmem ha hj' => ?_)
        (fun j' hj' => by cases hj') fun q hq => by cases hq
      cases hj'
      exact .inr (hj hmem ha)
    have hother : ∀ {k} {p : Pc χ}, Pending s k →
        Pending (Rpcs.setWorker { s with table := t, freed := s.freed ++ freed } w p) k := by
      rintro k p ⟨w', j', hj', hk⟩
      have hww : w' ≠ w := by
        rintro rfl
        rw [hw] at hj'
        cases hj'
      exact ⟨w', j', by simpa [Rpcs.setWorker, Function.update_of_ne hww] using hj', hk⟩
    cases st with
    | new =>
        have hnew := hset (.running j) fun _ _ => .inl ⟨w, j, by simp [Rpcs.setWorker, Pc.pending], rfl⟩
        exact { hnew with }
    | inprogress =>
        refine hset .idle fun _ _ => .inl (hother ?_)
        cases hck with
        | @inprogress l kept removed _ en _ hl hs hen hx hsz =>
            have hmem : en ∈ s.table.replies j.nonce := by
              rw [ReplyTable.replies, hl]
              exact hs.sub.subset hen
            obtain ⟨w', j', hb, hk⟩ := hatt j.nonce hn en hmem hsz
            exact ⟨w', j', pending_of_busy hb, by rw [hk, hx]; rfl⟩
    | done b sz =>
        cases b with
        | none => exact { h' with }
        | some b =>
            refine hset (.send j j.conn b sz) fun _ _ => .inr (.inr ⟨w, (j.key, j.conn), ?_, rfl, .refl _⟩)
            simp [Rpcs.setWorker, Pc.route]
    | forgotten =>
        refine hset (.reply j _) fun hmem ha => ?_
        have hlt : j.xid < s.table.newFloor j.nonce j.xidRep := by
          cases hck with
          | forgotten hlt => exact hlt
        have hcov : Pending s j.key ∨ Covered e s j.key j.conn := by
          rcases hc hmem ha hlt with hp | ⟨j', _, hk, hsv, hn⟩
          · exact .inl hp
          · exact .inr (hk ▸ hsv.covered hn)
        exact hcov.imp hother fun h => Covered.setWorker (s := { s with table := t, freed := s.freed ++ freed }) h
          (by rw [show Rpcs.workers _ w = .check j from hw]; rfl)

theorem Routed.choose {w : Worker} {j : Job χ} {b : Addr} [DecidableEq χ] (h : Routed e A s)
    (hw : s.workers w = .choose j b) (hc : RoutesWell e A s (.choose w j b)) :
    Routed e A (s.choose w j b) := by
  unfold Rpcs.choose
  split
  · exact { h with }
  · rename_i c htarget
    have hroute : ∀ {c'}, AsNew e c c' →
        Covered e (s.setWorker w (.send j c b (s.contents b).length)) j.key c' := fun hn =>
      .inr ⟨w, (j.key, c), by simp [Rpcs.setWorker, Pc.route], rfl, hn⟩
    have hearly : ∀ {j'}, Early s j' →
        Early (s.setWorker w (.send j c b (s.contents b).length)) j' := by
      rintro j' ⟨w', hj'⟩
      have hww : w' ≠ w := by
        rintro rfl
        rw [hw] at hj'
        cases hj'
      exact ⟨w', by simpa [Rpcs.setWorker, Function.update_of_ne hww] using hj'⟩
    refine h.setWorker hw (fun j' hj' => by cases hj') (fun j' _ _ hj' => by cases hj')
      (fun j' hj' => ?_) fun q hq => by cases hq
    cases hj'
    refine .inr ⟨⟨c, hroute (.refl c)⟩, fun j' hj' hk ha => ?_⟩
    unfold target at htarget
    split at htarget
    · -- the latest connection to the client
      rcases h.saved j' hj' with ⟨w', hu⟩ | ⟨c', hc', hn⟩
      · refine .inl (hearly ⟨w', ?_⟩)
        cases hp : s.workers w' with
        | seen j'' =>
            rw [hp] at hu
            exact hu
        | save j'' =>
            rw [hp] at hu
            exact hu
        | _ =>
            rw [hp] at hu
            cases hu
      · rw [show j'.nonce = j.nonce from congrArg Prod.fst hk, htarget, Option.some.injEq] at hc'
        exact .inr (hroute (hc' ▸ hn))
    · -- its own connection
      rename_i hdead
      obtain rfl := Option.some.inj htarget
      refine (hc.resolve_left hdead j' hj' hk ha).imp hearly fun hor => ?_
      rcases hor with hsv | hn
      · exact (hk ▸ hsv.covered (.refl _)).setWorker (by rw [hw]; rfl)
      · exact hroute hn

theorem Routed.handled {w : Worker} {j : Job χ} {ret : Int32} {body : Bytes} (h : Routed e A s)
    (hw : s.workers w = .running j) : Routed e A (s.handled w j ret body) := by
  have hset : ∀ p : Pc χ, p.pending = some j → Routed e A (Rpcs.setWorker { s with
      heap := s.heap ++ [(Result.mk j ret body).buf]
      results := s.results ++ [Result.mk j ret body] } w p) := by
    intro p hp
    have hm := h.move (w := w) (p := p) hw rfl rfl rfl fun j' hj' => by
      cases hj'
      exact hp
    refine { hm with answered := fun r hr => ?_ }
    rcases List.mem_append.mp hr with hr | hr
    · exact hm.answered r hr
    · obtain rfl := List.mem_singleton.mp hr
      exact .inl ⟨w, j, by simpa [Rpcs.setWorker] using hp, rfl⟩
  simp only [Rpcs.handled]
  split
  · exact hset _ rfl
  · exact hset _ rfl

variable [DecidableEq χ]

theorem Routed.begin {w : Worker} {c : χ} {b : Bytes} (h : Routed e A s) (hw : s.workers w = .idle) :
    Routed e A (s.begin e w c b) := by
  have h' : Routed e A { s with jobs := s.jobs.erase (c, b) } := { h with }
  have hset : ∀ p : Pc χ, Routed e A (Rpcs.setWorker { s with jobs := s.jobs.erase (c, b) } w p) :=
    fun p => h'.move hw rfl rfl rfl fun j hj => by cases hj
  unfold Rpcs.begin
  split
  · exact h'
  · rename_i q _
    simp only
    split
    · exact hset _
    · split
      · exact h'
      · split
        · have hs := hset (.seen ⟨c, q⟩)
          have hw' : (Rpcs.setWorker { s with jobs := s.jobs.erase (c, b) } w (.seen ⟨c, q⟩)).workers w
              = .seen ⟨c, q⟩ := by simp [Rpcs.setWorker]
          have hmem : ∀ j ∈ (Rpcs.enter { s with jobs := s.jobs.erase (c, b) } w ⟨c, q⟩).copies,
              j ∈ s.copies ∨ j = ⟨c, q⟩ := by
            intro j hj
            simp only [Rpcs.enter] at hj
            split at hj
            · exact .inl hj
            · exact (List.mem_append.mp hj).imp_right List.mem_singleton.mp
          refine { hs with saved := fun j hj => ?_, covered := fun j hj ha => ?_ }
          · rcases hmem j hj with hj | rfl
            · exact hs.saved j hj
            · exact .inl ⟨w, by rw [Rpcs.enter, hw']; rfl⟩
          · rcases hmem j hj with hj | rfl
            · exact hs.covered j hj ha
            · exact .inl ⟨w, by rw [Rpcs.enter, hw']; rfl⟩
        · exact { hset (.running ⟨c, q⟩) with }

theorem Routed.step {a : Act χ} (h : Routed e A s) (hatt : Attended s) (hs : Sourced e s s)
    (hg : guard e s a) (hc : RoutesWell e A s a) : Routed e A (s.next e a) := by
  cases a with
  | gotPdu c b accept =>
      cases accept with
      | false => exact h
      | true => exact { h with }
  | begin w c b => exact h.begin hg.2.1
  | seen w j =>
      have h' := h.setWorker (p := .save j) hg.2 (fun j' hj' => .inl hj')
        (fun j' _ _ hj' => .inl ⟨w, by cases hj'; simp [Rpcs.setWorker, Pc.early]⟩)
        (fun j' hj' => by cases hj') fun q hq => by cases hq
      exact { h' with }
  | save w j => exact h.save hg.2
  | check w j =>
      have hok := hs.workers w
      rw [hg.2] at hok
      exact h.check hatt hok.2.2 hg.2 hc
  | handled w j ret body => exact h.handled hg.2.1
  | record w j b =>
      simp only [next, record]
      split
      · exact { h with }
      · exact { h.move (p := .choose j b) hg.2 rfl rfl rfl (fun j' hj' => hj') with }
  | choose w j b => exact h.choose hg.2 hc
  | tx w j c b sz ok =>
      have hmono : ∀ {k c'}, Covered e s k c' →
          Covered e { s with answered := s.answered ++ [(j.key, c)] } k c' := by
        rintro k c' (⟨q, hq, hk⟩ | hr)
        · exact .inl ⟨q, List.mem_append_left _ hq, hk⟩
        · exact .inr hr
      have h' : Routed e A { s with answered := s.answered ++ [(j.key, c)] } :=
        { h with
          covered := fun j' hj' ha => (h.covered j' hj' ha).imp_right (Or.imp_right hmono)
          answered := fun r hr => (h.answered r hr).imp_right (Exists.imp fun _ => hmono) }
      refine h'.setWorker (p := .sending j c b sz) hg.2.1 (fun j' hj' => by cases hj')
        (fun j' _ _ hj' => by cases hj') (fun j' hj' => by cases hj') fun q hq => ?_
      cases hq
      exact .inr (by simp)
  | sent w j c b sz =>
      exact { h.move (p := .idle) hg.2 rfl rfl rfl (fun j hj => by cases hj) with }
  | txReply w j r ok => exact h.move hg.2.1 rfl rfl rfl fun j hj => by cases hj
  | die c => exact { h with }

end Rpcs

namespace RpcNet

variable {κ ι : Type*} {g : Config κ ι} {s : RpcNet κ ι}

/-- Neither end of the connection is dead. -/
def Alive (s : RpcNet κ ι) (i : ι) (c : Conn κ ι) : Prop :=
  c ∉ (s.srv i).dead ∧ c ∉ (s.clt c.clt).dead

/-- The steps of servers respect what they must for the copies on connections that are alive. -/
def RoutesWell (g : Config κ ι) (s : RpcNet κ ι) : Act κ ι → Prop
  | .clt _ _ => True
  | .srv i a => Rpcs.RoutesWell (g.srv i) (s.Alive i) (s.srv i) a

/-- The same without a look at the other workers, so that it can be tested. -/
def RoutesPlainly (g : Config κ ι) (s : RpcNet κ ι) : Act κ ι → Prop
  | .srv i (.choose _ j _) => j.conn ∈ (s.srv i).dead ∨ ∀ j' ∈ (s.srv i).copies, j'.key = j.key →
      Rpcs.AsNew (g.srv i) j.conn j'.conn
  | .srv i (.check _ j) => ¬ j.xid < (s.srv i).table.newFloor j.nonce j.xidRep
  | _ => True

theorem routesWell_of_plainly {a : Act κ ι} (h : RoutesPlainly g s a) : RoutesWell g s a := by
  cases a with
  | clt k a => trivial
  | srv i a =>
      cases a with
      | choose w j b => exact h.imp_right fun h j' hj' hk _ => .inr (.inr (h j' hj' hk))
      | check w j => exact fun _ _ hlt => absurd hlt h
      | _ => trivial

variable [DecidableEq κ] [DecidableEq ι]

instance (s : RpcNet κ ι) (i : ι) : DecidablePred (s.Alive i) := fun _ =>
  inferInstanceAs (Decidable (_ ∧ _))

instance (s : RpcNet κ ι) (a : Act κ ι) : Decidable (RoutesPlainly g s a) := by
  unfold RoutesPlainly
  apply @Act.casesOn _ _ _ a
  · intros
    infer_instance
  · intro i a
    apply @Rpcs.Act.casesOn _ _ a <;> intros <;> infer_instance

/-- Where the handler of a call has run and no dispatch of the call is under way, its reply was passed to
`send` on a connection at least as new as every connection that is alive and had a copy dispatched before
the reply was recorded. -/
def RepliesOnNewest (g : Config κ ι) (s : RpcNet κ ι) (i : ι) : Prop :=
  ∀ n x, n ≠ 0 → (∃ r ∈ (s.srv i).results, r.job.key = (n, x)) →
    (∀ w j, ((s.srv i).workers w).job = some j → j.key ≠ (n, x)) →
    ∃ c, ((n, x), c) ∈ (s.srv i).answered ∧ ∀ j ∈ (s.srv i).copies, j.key = (n, x) →
      s.Alive i j.conn → 0 ≤ compare (g.created c) (g.created j.conn)

theorem alive_of_next {a : Act κ ι} {i : ι} {c : Conn κ ι} (h : (next g s a).Alive i c) : s.Alive i c :=
  ⟨fun hd => h.1 ((grows_srv s a i).dead hd), fun hd => h.2 ((grows_clt s a c.clt).dead hd)⟩

theorem routed_of_run {tr : List (Act κ ι)} (h : ((lts g).restrict (RoutesWell g)).Run tr s) (i : ι) :
    Rpcs.Routed (g.srv i) (s.Alive i) (s.srv i) := by
  refine h.invariant (I := fun _ s => Rpcs.Routed (g.srv i) (s.Alive i) (s.srv i)) ?_ ?_
  · rintro s rfl
    exact Rpcs.routed_init
  · intro tr s a hr hs hg
    refine Rpcs.Routed.mono ?_ fun c => alive_of_next (g := g)
    cases a with
    | clt k a => exact hs
    | srv i' a =>
        by_cases hi : i = i'
        · subst hi
          have hrun := srv_run hr.of_restrict i
          have hstep := hs.step (Rpcs.attended_of_run hrun) (Rpcs.sourced_of_run hrun) hg.1.1 hg.2
          simpa [Lts.restrict, lts, next] using hstep
        · simpa [Lts.restrict, lts, next, Function.update_of_ne hi] using hs

theorem replies_on_newest {tr : List (Act κ ι)} (h : ((lts g).restrict (RoutesWell g)).Run tr s) (i : ι) :
    RepliesOnNewest g s i :=
  fun _ _ _ hx hrest => (routed_of_run h i).newest hx hrest

/-- The server sees the old connection die before it chooses, and answers on the new one. -/
theorem replies_on_newest_solo : ∃ tr s, ((lts Solo.config).restrict (RoutesWell Solo.config)).Run tr s ∧
    ((5, 2), Solo.conn 1) ∈ (s.srv ()).answered ∧ RepliesOnNewest Solo.config s () := by
  let f : Call (Conn Unit Unit) := ⟨Solo.req 2 1, some (Solo.conn 0)⟩
  let j : Job (Conn Unit Unit) := ⟨Solo.conn 0, Solo.req 2 1⟩
  obtain ⟨s, h, hs⟩ := Lts.run_of_exec (M := (lts Solo.config).restrict (RoutesPlainly Solo.config))
    (s := init)
    (l := Solo.bind ++ (Solo.call 0 0 (Solo.req 2 1) 1 [3]).take 8 ++
      [.clt () (.die (Solo.conn 0)), .clt () (.timedout 0 f), .clt () (.isdead 0 f),
        .clt () (.getRefconn 0 f (some (Solo.conn 1))),
        .clt () (.tx 0 { f with ch := some (Solo.conn 1) } (Solo.conn 1) true)] ++
      Solo.dispatch 1 { j with conn := Solo.conn 1 } ++
      [.srv () (.handled 0 j 0 [3]), .srv () (.record 0 j 1), .srv () (.die (Solo.conn 0)),
        .srv () (.choose 0 j 1), .srv () (.tx 0 j (Solo.conn 1) 1 25 true)])
    (f := fun s => decide (((5, 2), Solo.conn 1) ∈ (s.srv ()).answered)) rfl (by decide +kernel)
  have hr := h.restrict_mono fun _ _ => routesWell_of_plainly
  exact ⟨_, s, hr, of_decide_eq_true hs, replies_on_newest hr ()⟩

/-- The client has given up the old connection, but the server has not seen it dead. The duplicate on the new
connection is `INPROGRESS`, and the original answers on the old one. -/
theorem newest_left_without_reply :
    ¬ ∀ tr s, (lts Solo.config).Run tr s → RepliesOnNewest Solo.config s () := by
  intro hall
  let f : Call (Conn Unit Unit) := ⟨Solo.req 2 1, some (Solo.conn 0)⟩
  let j : Job (Conn Unit Unit) := ⟨Solo.conn 0, Solo.req 2 1⟩
  obtain ⟨s, hr, hs⟩ := Lts.run_of_exec (M := (lts Solo.config).restrict fun _ a => Within 2 a)
    (s := init)
    (l := Solo.bind ++ (Solo.call 0 0 (Solo.req 2 1) 1 [3]).take 8 ++
      [.clt () (.die (Solo.conn 0)), .clt () (.timedout 0 f), .clt () (.isdead 0 f),
        .clt () (.getRefconn 0 f (some (Solo.conn 1))),
        .clt () (.tx 0 { f with ch := some (Solo.conn 1) } (Solo.conn 1) true)] ++
      Solo.dispatch 1 { j with conn := Solo.conn 1 } ++ Solo.reply 0 j 1 [3] ++
      [.srv () (.sent 0 j (Solo.conn 0) 1 25)])
    (f := fun s => decide ((∃ r ∈ (s.srv ()).results, r.job.key = (5, 2)) ∧
      (∀ w ∈ List.range 2, ((s.srv ()).workers w).job = none) ∧
      (∀ p ∈ (s.srv ()).answered, p.2 = Solo.conn 0) ∧
      ∃ j ∈ (s.srv ()).copies, j.key = (5, 2) ∧ j.conn = Solo.conn 1 ∧ s.Alive () j.conn))
    rfl (by decide +kernel)
  obtain ⟨hx, hidle, hans, j', hj', hk, hconn, halive⟩ := of_decide_eq_true hs
  obtain ⟨c, hc, hnew⟩ := hall _ s hr.of_restrict 5 2 (by decide) hx fun w j hj => by
    by_cases hw : w < 2
    · rw [hidle w (List.mem_range.mpr hw)] at hj
      cases hj
    · rw [idle_of_run hr (Nat.not_lt.mp hw)] at hj
      cases hj
  have hle := hnew j' hj' hk halive
  obtain rfl : c = Solo.conn 0 := hans _ hc
  rw [hconn] at hle
  exact absurd hle (by decide)

end RpcNet
end StanDfs
