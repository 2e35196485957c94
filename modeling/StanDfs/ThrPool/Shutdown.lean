import StanDfs.ThrPool.Accounts

/-!
# The pool's destructor drains the queue

Once the destructor has started some thread can go on until it is done, and it is done after finitely many
steps but for waits that end for no reason.
-/

namespace StanDfs

/-- What a worker does before it takes a job or sleeps, and before it is back. -/
def WorkerPc.cost {J : Type*} : WorkerPc J → Nat
  | .ready => 1
  | .blocked true => 1
  | .blocked false => 0
  | .running _ => 2
  | .stopped => 0

/-- What the destructor has still to do, each pill counted with what becomes of it. -/
def DtorPc.cost (sz : Nat) : DtorPc → Nat
  | .out => 0
  | .enqueuing i wait => 5 * (sz - i) + sz + if wait = some false then 0 else 1
  | .joining i => sz - i
  | .done => 0

namespace ThrPool

/-- The wait of a thread ends for no reason. -/
def Act.isSpurious {J : Type*} : Act J → Bool
  | .spurious _ => true
  | .spuriousSpace _ => true
  | _ => false

variable {J : Type*} {e : Env} {s s' : ThrPool J} {a : Act J}

/-- How many steps the pool can take once the destructor has started. -/
def cost (e : Env) (s : ThrPool J) : Nat :=
  3 * s.q.length + Holders.total (Finset.range e.sz) WorkerPc.cost s.workers + s.dtor.cost e.sz

/-! ## The pool goes on until the destructor is done -/

/-- Some thread can go on without a wait that ends for no reason. -/
def Progresses (e : Env) (s : ThrPool J) : Prop := ∃ a, a.isSpurious = false ∧ guard e s a

theorem exists_wakesWorker (e : Env) (s : ThrPool J) : ∃ x, s.WakesWorker e x := by
  by_cases h : ∃ w, s.Sleeps e w
  · obtain ⟨w, hw⟩ := h
    exact ⟨some w, hw⟩
  · exact ⟨none, not_exists.mp h⟩

theorem exists_wakesSpace (s : ThrPool J) : ∃ x, s.WakesSpace x := by
  by_cases h : ∃ x, s.SpaceWaits x
  · obtain ⟨x, hx⟩ := h
    exact ⟨some x, hx⟩
  · exact ⟨none, not_exists.mp h⟩

theorem progresses_of_awake {w : Nat} (hw : w < e.sz) (haw : s.Awake w) : Progresses e s := by
  obtain ⟨x, hx⟩ := exists_wakesSpace s
  exact ⟨.takeJob w x, rfl, hw, haw, hx⟩

theorem progresses_of_live {w : Nat} (hw : w < e.sz) (hl : s.workers w ≠ .stopped) :
    s.Sleeps e w ∨ Progresses e s := by
  cases hp : s.workers w with
  | ready => exact .inr (progresses_of_awake hw (.inl hp))
  | blocked b =>
      cases b with
      | false => exact .inl ⟨hw, hp⟩
      | true => exact .inr (progresses_of_awake hw (.inr hp))
  | running j => exact .inr ⟨.finish w, rfl, hw, j, hp⟩
  | stopped => exact absurd hp hl

/-- What is in the queue is taken as long as there are workers. -/
theorem progresses_of_queue (h : Signalled e s) {w : Nat} (hw : w < e.sz) (hl : s.workers w ≠ .stopped)
    (hq : 0 < s.q.length) : Progresses e s := by
  rcases progresses_of_live hw hl with hs | hp
  · have hpos := hq.trans_le (h ⟨w, hs⟩)
    obtain ⟨v, hv, hne⟩ := Holders.exists_of_total_ne_zero hpos.ne'
    refine progresses_of_awake (Finset.mem_range.mp hv) (.inr ?_)
    cases hp : s.workers v with
    | blocked b =>
        cases b with
        | true => rfl
        | false => exact absurd (by rw [hp]; rfl) hne
    | _ => exact absurd (by rw [hp]; rfl) hne
  · exact hp

theorem exists_live (h : 0 < alive e s) : ∃ w < e.sz, s.workers w ≠ .stopped := by
  obtain ⟨w, hw, hne⟩ := Holders.exists_of_total_ne_zero (M := Nat) (g := WorkerPc.live) h.ne'
  refine ⟨w, Finset.mem_range.mp hw, fun hs => hne ?_⟩
  rw [hs]
  rfl

theorem alive_pos {w : Nat} (hw : w < e.sz) (hl : s.workers w ≠ .stopped) : 0 < alive e s := by
  refine Finset.sum_pos' (fun _ _ => Nat.zero_le _) ⟨w, Finset.mem_range.mpr hw, ?_⟩
  cases hp : s.workers w with
  | stopped => exact absurd hp hl
  | _ => exact Nat.one_pos

theorem Sound.progresses (h : Sound e s) (hout : s.dtor ≠ .out) :
    s.dtor = .done ∨ Progresses e s := by
  obtain ⟨x, hx⟩ := exists_wakesWorker e s
  have hj := h.joined
  cases hd : s.dtor with
  | out => exact absurd hd hout
  | done => exact .inl rfl
  | enqueuing i wait =>
      rw [hd] at hj
      right
      cases wait with
      | none => exact ⟨.enqPill x, rfl, ⟨i, .inl hd⟩, hx⟩
      | some b =>
          cases b with
          | true => exact ⟨.enqPill x, rfl, ⟨i, .inr hd⟩, hx⟩
          | false =>
              have hlt : i < e.sz := hj
              have hq := h.spaceSignalled i hd
              have hen := h.enough
              rw [Enough, pillsLeft, hd] at hen
              simp only [DtorPc.toEnqueue] at hen
              obtain ⟨w, hw, hl⟩ := exists_live (e := e) (s := s) (by omega)
              apply progresses_of_queue h.signalled hw hl
              unfold Env.max at hq
              omega
  | joining i =>
      rw [hd] at hj
      right
      by_cases hi : s.workers i = .stopped
      · exact ⟨.join, rfl, i, hd, hi⟩
      · have hen := h.enough
        have hpos := alive_pos hj.1 hi
        rw [Enough, pillsLeft, hd] at hen
        simp only [DtorPc.toEnqueue, add_zero] at hen
        have hle := List.countP_le_length (p := Option.isNone) (l := s.q)
        exact progresses_of_queue h.signalled hj.1 hi (by omega)

/-! ## It goes on for finitely many steps -/

theorem cost_woken {d d' : DtorPc} (h : SpaceWoken d d') : d'.cost e.sz ≤ d.cost e.sz + 1 := by
  rcases h with rfl | ⟨i, b, rfl, rfl⟩
  · exact Nat.le_succ _
  · simp only [DtorPc.cost]
    split <;> split <;> omega

theorem cost_update {w : Nat} (p : WorkerPc J) (hw : w < e.sz) :
    Holders.total (Finset.range e.sz) WorkerPc.cost (Function.update s.workers w p) + (s.workers w).cost =
      Holders.total (Finset.range e.sz) WorkerPc.cost s.workers + p.cost :=
  Holders.total_update WorkerPc.cost s.workers p (Finset.mem_range.mpr hw)

theorem Awake.cost {w : Nat} (h : s.Awake w) : (s.workers w).cost = 1 := by
  rcases h with h | h <;> rw [h] <;> rfl

theorem cost_afterPill {i : Nat} {b : Option Bool} (hi : i < e.sz) (hb : b ≠ some false) :
    (afterPill e (i + 1)).cost e.sz + 5 ≤ (DtorPc.enqueuing i b).cost e.sz := by
  unfold afterPill
  split
  · simp only [DtorPc.cost, if_neg hb]
    split <;> omega
  · simp only [DtorPc.cost, if_neg hb]
    omega

theorem cost_afterJoin {i : Nat} (hi : i < e.sz) :
    (afterJoin e (i + 1)).cost e.sz + 1 ≤ (DtorPc.joining i).cost e.sz := by
  unfold afterJoin
  split
  · simp only [DtorPc.cost]
    omega
  · simp only [DtorPc.cost]
    omega

/-- Each step takes from what is left to do. A wait that ends for no reason adds one to it. -/
theorem Moves.cost (hj : Joined e s.workers s.dtor) (hout : s.dtor ≠ .out)
    (hm : Moves e s a s') :
    ThrPool.cost e s' + 1 ≤ ThrPool.cost e s + 2 * (if a.isSpurious then 1 else 0) := by
  cases hm with
  | accept hd _ => exact absurd hd hout
  | refuse hd => exact absurd hd hout
  | destroy hd => exact absurd hd hout
  | @pill i b x hd hb hx =>
      rw [hd] at hj
      have hlt : i < e.sz := hj
      have hw : Holders.total (Finset.range e.sz) WorkerPc.cost (ThrPool.woken s.workers x) ≤
          Holders.total (Finset.range e.sz) WorkerPc.cost s.workers + 1 := by
        cases x with
        | none => exact Nat.le_succ _
        | some w =>
            have hu := cost_update (s := s) (.blocked true) hx.1
            simp only [WorkerPc.cost] at hu
            simp only [ThrPool.woken]
            omega
      have hd' := cost_afterPill hlt hb
      simp only [ThrPool.cost, hd, List.length_append, List.length_singleton]
      omega
  | full hd hb _ =>
      simp only [ThrPool.cost, hd, DtorPc.cost, if_neg hb, if_true]
      omega
  | sleep hw haw _ =>
      have hu := cost_update (s := s) (.blocked false) hw
      rw [haw.cost] at hu
      simp only [WorkerPc.cost] at hu
      simp only [ThrPool.cost, setWorker]
      omega
  | @take w x j q ad d hw haw hq hp =>
      have hu := cost_update (s := s) (.running j) hw
      rw [haw.cost] at hu
      simp only [WorkerPc.cost] at hu
      have hd := cost_woken (e := e) hp.1
      simp only [ThrPool.cost, setWorker, hq, List.length_cons]
      omega
  | @takePill w x q ad d hw haw hq hp =>
      have hu := cost_update (s := s) .stopped hw
      rw [haw.cost] at hu
      simp only [WorkerPc.cost] at hu
      have hd := cost_woken (e := e) hp.1
      simp only [ThrPool.cost, setWorker, hq, List.length_cons]
      omega
  | finish hw hj =>
      have hu := cost_update (s := s) .ready hw
      rw [hj] at hu
      simp only [WorkerPc.cost] at hu
      simp only [ThrPool.cost, setWorker]
      omega
  | @join i hd _ =>
      rw [hd] at hj
      have hd' := cost_afterJoin hj.1
      simp only [ThrPool.cost, hd]
      omega
  | spurious hx =>
      have hu := cost_update (s := s) (.blocked true) hx.1
      rw [hx.2] at hu
      simp only [WorkerPc.cost] at hu
      simp only [ThrPool.cost, setWorker, Act.isSpurious, if_true]
      omega
  | spuriousSpace hw =>
      have hd := cost_woken (e := e) hw
      simp only [ThrPool.cost, Act.isSpurious, if_true]
      omega

theorem Moves.started (hout : s.dtor ≠ .out) (hm : Moves e s a s') :
    s'.dtor ≠ .out ∧ s'.accepted = s.accepted := by
  cases hm with
  | accept hd _ => exact absurd hd hout
  | refuse hd => exact absurd hd hout
  | destroy hd => exact absurd hd hout
  | pill _ _ _ =>
      refine ⟨?_, rfl⟩
      simp only [afterPill]
      split <;> simp
  | full _ _ _ => exact ⟨by simp, rfl⟩
  | sleep _ _ _ => exact ⟨hout, rfl⟩
  | take _ _ _ hp => exact ⟨fun h => hout (hp.1.out_iff.mp h), rfl⟩
  | takePill _ _ _ hp => exact ⟨fun h => hout (hp.1.out_iff.mp h), rfl⟩
  | finish _ _ => exact ⟨hout, rfl⟩
  | join _ _ =>
      refine ⟨?_, rfl⟩
      simp only [afterJoin]
      split <;> simp
  | spurious _ => exact ⟨hout, rfl⟩
  | spuriousSpace hw => exact ⟨fun h => hout (hw.out_iff.mp h), rfl⟩

theorem late_of_run (hz : 0 < e.sz) {tr late : List (Act J)} (h : (lts e).Run tr s) (hout : s.dtor ≠ .out)
    (h' : (lts e).Run (late ++ tr) s') :
    (s'.dtor ≠ .out ∧ s'.accepted = s.accepted) ∧
      cost e s' + late.length ≤ cost e s + 2 * late.countP Act.isSpurious := by
  refine Lts.Run.since (I := fun late s' => (s'.dtor ≠ .out ∧ s'.accepted = s.accepted) ∧
    cost e s' + late.length ≤ cost e s + 2 * late.countP Act.isSpurious) ?_ ?_ h'
  · intro s' h'
    obtain rfl : s = s' := h.unique (by rintro s s' rfl rfl; rfl) h'
    exact ⟨⟨hout, rfl⟩, le_rfl⟩
  · rintro late s₀ a h₀ ⟨⟨hout₀, hacc₀⟩, hc₀⟩ hg
    have hi := sound_of_run hz h₀
    have hm := moves_of_guard hz hi.quiet hg
    have hc := hm.cost hi.joined hout₀
    obtain ⟨hout', hacc'⟩ := hm.started hout₀
    refine ⟨⟨hout', hacc'.trans hacc₀⟩, ?_⟩
    rw [List.length_cons, List.countP_cons]
    show cost e (next e s₀ a) + _ ≤ _
    omega

/-! ## The destructor is done -/

theorem Sound.done (hz : 0 < e.sz) (h : Sound e s) (hd : s.dtor = .done) :
    s.q = [] ∧ s.ran.Perm s.accepted := by
  have hs : ∀ w < e.sz, s.workers w = .stopped := by
    have hj := h.joined
    rw [hd] at hj
    exact hj
  have halive : alive e s = 0 := by
    refine Holders.total_eq_zero fun w hw => ?_
    rw [hs w (Finset.mem_range.mp hw)]
    rfl
  have hrun : s.running e = 0 := by
    refine Holders.total_eq_zero fun w hw => ?_
    rw [hs w (Finset.mem_range.mp hw)]
    rfl
  have hq : s.q = [] := by
    have hen := h.enough
    rw [Enough, halive, pillsLeft, Nat.add_eq_zero_iff, List.countP_eq_zero] at hen
    refine List.eq_nil_iff_forall_not_mem.mpr fun a ha => hen.1 a ha ?_
    rw [h.ordered.after 0 (hs 0 hz) a ha]
    rfl
  have hacc := h.accounted
  rw [Accounted, queued, hq, hrun, List.reduceOption_nil, Multiset.coe_nil, zero_add, zero_add] at hacc
  exact ⟨hq, Multiset.coe_eq_coe.mp hacc⟩

/-- Shutdown drains the queue. In every state a worker has stopped if and only if it took a pill, and then one;
no job is in the queue once a pill was taken; pills and workers are as many; each accepted job is in the
queue, with one worker, or has been run. When the destructor is done, all have been run and the queue is
empty. Once it has started, no job is accepted, no thread is left waiting, and the steps are finitely many
but for waits that end for no reason. -/
theorem shutdown_drains (hz : 0 < e.sz) {tr : List (Act J)} (h : (lts e).Run tr s) :
    (∀ w, s.pills w ≤ 1 ∧ (s.pills w = 1 ↔ s.workers w = .stopped)) ∧
      (∀ w, 0 < s.pills w → s.dtor ≠ .out ∧ ∀ j, some j ∉ s.q) ∧
      pillsLeft e s = alive e s ∧
      s.queued + s.running e + s.ran = s.accepted ∧
      (s.dtor = .done → (∀ w < e.sz, s.pills w = 1 ∧ s.workers w = .stopped) ∧ s.q = [] ∧
        s.ran.Perm s.accepted) ∧
      (s.dtor ≠ .out → (s.dtor = .done ∨ Progresses e s) ∧
        ∀ late s', (lts e).Run (late ++ tr) s' → s'.accepted = s.accepted ∧
          late.length ≤ cost e s + 2 * late.countP Act.isSpurious) := by
  have hi := sound_of_run hz h
  have hpill : ∀ w, s.pills w = 1 ↔ s.workers w = .stopped := by
    intro w
    have hone := hi.onePill w
    constructor
    · exact fun hp => WorkerPc.stopped_of_live (by omega)
    · intro hw
      rw [hw] at hone
      exact hone
  refine ⟨fun w => ⟨?_, hpill w⟩, fun w hw => ?_, hi.enough, hi.accounted, fun hd => ?_, fun hout => ?_⟩
  · have hone := hi.onePill w
    omega
  · have hone := hi.onePill w
    have hs := (hpill w).mp (by omega)
    refine ⟨fun hout => (hi.ordered.before hout).2 w hs, fun j hj => ?_⟩
    exact absurd (hi.ordered.after w hs (some j) hj) (by simp)
  · have hj := hi.joined
    rw [hd] at hj
    exact ⟨fun w hw => ⟨(hpill w).mpr (hj w hw), hj w hw⟩, hi.done hz hd⟩
  · refine ⟨hi.progresses hout, fun late s' h' => ?_⟩
    obtain ⟨⟨_, hacc⟩, hc⟩ := late_of_run hz h hout h'
    exact ⟨hacc, by omega⟩

theorem wakesWorker_none (h : ∀ w < e.sz, s.workers w ≠ .blocked false) : s.WakesWorker e none :=
  fun w hw => h w hw.1 hw.2

theorem wakesSpace_none (ha : s.adders = fun _ => .out) (hd : ∀ i, s.dtor ≠ .enqueuing i (some false)) :
    s.WakesSpace none := by
  intro x hx
  cases x with
  | adder t =>
      obtain ⟨j, hj⟩ := hx
      rw [ha] at hj
      cases hj
  | dtor =>
      obtain ⟨i, hi⟩ := hx
      exact hd i hi

/-- A pool of one worker whose destructor starts while the only job runs. -/
theorem shutdown_drains_one : ∃ (tr : List (Act Nat)) (s : ThrPool Nat), (lts ⟨1, true⟩).Run tr s ∧
    s.dtor = .done ∧ s.q = [] ∧ s.ran.Perm [7] := by
  have ha : (Function.update (fun _ => .out) 0 .out : Nat → AdderPc Nat) = fun _ => .out :=
    Function.update_eq_self 0 _
  have h0 : (lts ⟨1, true⟩).Run [] (init : ThrPool Nat) := .init rfl
  have h1 : (lts ⟨1, true⟩).Run [.addJob 0 7 none] _ := .step h0 ⟨rfl, rfl, wakesWorker_none (by decide)⟩
  have h2 : (lts ⟨1, true⟩).Run [.takeJob 0 none, _] _ :=
    .step h1 ⟨Nat.one_pos, .inl rfl, wakesSpace_none ha fun i h => by cases h⟩
  have h3 : (lts ⟨1, true⟩).Run [.destroy, _, _] _ := .step h2 ⟨rfl, fun t => congrFun ha t⟩
  have h4 : (lts ⟨1, true⟩).Run [.enqPill none, _, _, _] _ :=
    .step h3 ⟨⟨0, .inl rfl⟩, wakesWorker_none (by decide)⟩
  have h5 : (lts ⟨1, true⟩).Run [.finish 0, _, _, _, _] _ := .step h4 ⟨Nat.one_pos, 7, rfl⟩
  have h6 : (lts ⟨1, true⟩).Run [.takeJob 0 none, _, _, _, _, _] _ :=
    .step h5 ⟨Nat.one_pos, .inl rfl, wakesSpace_none ha fun i h => by cases h⟩
  have h7 : (lts ⟨1, true⟩).Run [.join, _, _, _, _, _, _] _ := .step h6 ⟨0, rfl, rfl⟩
  have hd := (shutdown_drains Nat.one_pos h7).2.2.2.2.1 rfl
  exact ⟨_, _, h7, rfl, hd.2⟩

end ThrPool
end StanDfs
