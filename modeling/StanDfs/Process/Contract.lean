import StanDfs.Process.Basic

/-!
# What an operation needs and leaves

The mutexes that a thread has at each operation, newest first, with the PDU it is giving to `got_pdu` and the
`rpcc` whose `calls_` it is in. Every operation locks in the order of the ranks, but for the look of `decref` at
`dead_` when the count has come to zero.
-/

namespace StanDfs

namespace Process

variable {χ κ : Type*}

/-- The order of the mutexes. -/
def Mutex.rank : Mutex χ κ → Nat
  | .chan _ | .conss | .count => 0
  | .conn _ => 1
  | .rpcc _ => 2
  | .caller _ => 3
  | .ref _ | .mgr | .queue | .window | .procs | .server => 4
  | .aio => 5

section

variable (c : χ) (k : κ) (t : Thr)

@[simp] theorem rank_chan : (.chan k : Mutex χ κ).rank = 0 := rfl
@[simp] theorem rank_conss : (.conss : Mutex χ κ).rank = 0 := rfl
@[simp] theorem rank_count : (.count : Mutex χ κ).rank = 0 := rfl
@[simp] theorem rank_conn : (.conn c : Mutex χ κ).rank = 1 := rfl
@[simp] theorem rank_rpcc : (.rpcc k : Mutex χ κ).rank = 2 := rfl
@[simp] theorem rank_caller : (.caller t : Mutex χ κ).rank = 3 := rfl
@[simp] theorem rank_ref : (.ref c : Mutex χ κ).rank = 4 := rfl
@[simp] theorem rank_mgr : (.mgr : Mutex χ κ).rank = 4 := rfl
@[simp] theorem rank_queue : (.queue : Mutex χ κ).rank = 4 := rfl
@[simp] theorem rank_window : (.window : Mutex χ κ).rank = 4 := rfl
@[simp] theorem rank_procs : (.procs : Mutex χ κ).rank = 4 := rfl
@[simp] theorem rank_server : (.server : Mutex χ κ).rank = 4 := rfl
@[simp] theorem rank_aio : (.aio : Mutex χ κ).rank = 5 := rfl

end

/-- What is known about a thread before an operation. -/
structure Ctx (χ κ : Type*) where
  held : List (Mutex χ κ)
  pdu : Option χ
  call : Option κ

namespace Ctx

/-- Every mutex that the thread has is below the rank. -/
def Below (Γ : Ctx χ κ) (r : Nat) : Prop := ∀ m ∈ Γ.held, m.rank < r

/-- With these mutexes a thread may give a reference to the connection back: nobody waits for its `caller`,
which is in no `calls_` any more, and a connection whose PDU it has is not dead. -/
def Gives (mgr : χ → Option κ) (t : Thr) (Γ : Ctx χ κ) (c : χ) (held : List (Mutex χ κ)) : Prop :=
  ∀ m ∈ held, m.rank = 0 ∨ (m = .caller t ∧ Γ.call = none) ∨ (m = .conn c ∧ Γ.pdu = some c ∧ mgr c = none)

/-- Nothing is held. -/
def idle : Ctx χ κ := ⟨[], none, none⟩

end Ctx

namespace Op

/-- The operation is one that nothing is to be known for but what it has locked. The others come only as the
next operation of a thread. -/
def plain : Op χ κ → Bool
  | .incref _ _ | .refInc _ _ | .decref _ _ | .refDec _ _ | .lockLast _ | .lastLook _ | .signal _ _
  | .lookRef _ | .readRef _ => false
  | _ => true

/-- The thread may do the operation. -/
def Fits (mgr : χ → Option κ) (t : Thr) (Γ : Ctx χ κ) : Op χ κ → Prop
  | .lock m => Γ.Below m.rank ∧ (∀ c, m ≠ .ref c) ∧ ∀ t', m = .caller t' → t' = t
  | .unlock m => m ∈ Γ.held ∧ ∀ c ∈ Γ.pdu, m ≠ .conn c
  | .sleep m => Γ.held = [m] ∧ Γ.pdu = none ∧ t ≠ .loop ∧ (∀ c, m ≠ .ref c) ∧ ∀ t', m = .caller t' → t' = t
  | .asleep m => Γ.held = [] ∧ Γ.pdu = none ∧ t ≠ .loop ∧ (∀ c, m ≠ .ref c) ∧ ∀ t', m = .caller t' → t' = t
  | .addCallback | .delCallback _ => Γ.Below 4
  | .pipeWrite => .aio ∈ Γ.held
  | .blockRemoveFd => Γ.held = [] ∧ Γ.pdu = none ∧ t ≠ .loop
  | .waitLoop | .callbacks => Γ = .idle
  | .isdead _ => Γ.held = [] ∧ Γ.pdu = none
  | .closeconn _ | .send _ => Γ.held = [] ∧ Γ.pdu = none ∧ t ≠ .loop
  | .closing c | .sendWait c | .completeWait c => Γ.held = [.conn c] ∧ Γ.pdu = none ∧ t ≠ .loop
  | .incref _ _ => Γ.Below 4
  | .refInc c _ => ∃ b, Γ.held = .ref c :: b
  | .decref c _ => Γ.Gives mgr t c Γ.held
  | .refDec c _ | .lockLast c => ∃ b, Γ.held = .ref c :: b ∧ Γ.Gives mgr t c b
  | .lastLook c => ∃ b, Γ.held = .conn c :: .ref c :: b ∧ Γ.Gives mgr t c b ∧ Γ.pdu ≠ some c
  | .readCb _ | .writeCb _ => Γ.held = [] ∧ Γ.pdu = none
  | .readBody c | .writeBody c | .setDead c => Γ.held = [.conn c] ∧ Γ.pdu = none
  | .gotPdu c | .readDone c => Γ.held = [.conn c] ∧ Γ.pdu = some c
  | .call1 _ | .bound _ | .cancel _ => Γ = .idle ∧ t ≠ .loop
  | .register k => Γ = ⟨[.rpcc k], none, none⟩ ∧ t ≠ .loop
  | .round k _ | .await k | .lost k | .again k | .leave k => Γ = ⟨[], none, some k⟩ ∧ t ≠ .loop
  | .awaiting k => Γ = ⟨[.caller t], none, some k⟩ ∧ t ≠ .loop
  | .erase k => Γ = ⟨[.rpcc k], none, some k⟩ ∧ t ≠ .loop
  | .sendCh | .sendOwn => Γ.held = [] ∧ Γ.pdu = none ∧ t ≠ .loop
  | .getRefconn _ => Γ.held = [] ∧ Γ.pdu = none
  | .lookChan k | .dropChan k | .connect k | .adopt k | .adoptRef k => Γ.held = [.chan k] ∧ Γ.pdu = none
  | .chanDead k c => Γ.held = [.conn c, .chan k] ∧ Γ.pdu = none
  | .find k => ∃ c, Γ.held = [.rpcc k, .conn c]
  | .signal k _ => .rpcc k ∈ Γ.held ∧ Γ.Below 3
  | .cancelEach k | .cancelWait k => Γ = ⟨[.rpcc k], none, none⟩ ∧ t ≠ .loop
  | .dropOwn => ∀ m ∈ Γ.held, m.rank = 0 ∨ (m = .caller t ∧ Γ.call = none)
  | .enq c => Γ.held = [.queue, .conn c] ∧ Γ.pdu = some c ∧ mgr c = none
  | .giveBack c => Γ.held = [.conn c] ∧ Γ.pdu = some c ∧ mgr c = none
  | .takeJob | .dispatch => Γ = .idle ∧ t ≠ .loop
  | .deq => Γ = ⟨[.queue], none, none⟩ ∧ t ≠ .loop
  | .forget | .new _ | .updatestat | .handler | .addReply _ | .checkduplicate _ => Γ = .idle ∧ t ≠ .loop
  | .serving => Γ = ⟨[.server], none, none⟩ ∧ t ≠ .loop
  | .saveConn _ | .dropLatest _ | .saveLatest _ | .choose _ | .adoptLatest _ =>
    Γ = ⟨[.conss], none, none⟩ ∧ t ≠ .loop
  | .choosing _ c => Γ = ⟨[.conn c, .conss], none, none⟩ ∧ t ≠ .loop
  | .accept | .collect _ | .seeRef _ | .lookRef _ | .unlist _ | .nextErased | .closeAll | .closeListed _ =>
    Γ = .idle ∧ t = .listener
  | .readRef c => Γ = ⟨[.ref c], none, none⟩ ∧ t = .listener
  | .seeDead c | .closingListed c => Γ = ⟨[.conn c], none, none⟩ ∧ t = .listener

variable [DecidableEq χ] [DecidableEq κ]

/-- What is known when the operation, with all that it calls, is done. -/
def after (Γ : Ctx χ κ) : Op χ κ → Ctx χ κ
  | .lock m | .asleep m => { Γ with held := m :: Γ.held }
  | .unlock m => { Γ with held := Γ.held.erase m }
  | .closing _ | .sendWait _ | .completeWait _ | .readBody _ | .writeBody _ | .setDead _ | .lookChan _
  | .serving | .saveConn _ | .seeDead _ | .closingListed _ => { Γ with held := [] }
  | .refInc _ _ | .readRef _ | .refDec _ _ | .lockLast _ | .find _ => { Γ with held := Γ.held.tail }
  | .lastLook _ => { Γ with held := Γ.held.tail.tail }
  | .readDone _ => { Γ with held := [], pdu := none }
  | .register _ | .round _ _ | .await _ | .awaiting _ | .lost _ | .again _ | .leave _ | .erase _ => .idle
  | .chanDead _ _ => { Γ with held := [] }
  | .cancelEach _ | .cancelWait _ | .deq | .choose _ | .choosing _ _ => .idle
  | .enq c => { Γ with held := [.conn c] }
  | _ => Γ

/-- The thread's mutexes after the operation alone. -/
def locks (held : List (Mutex χ κ)) (op : Op χ κ) : List (Mutex χ κ) :=
  match op.wants, op.frees with
  | some m, _ => m :: held
  | none, some m => held.erase m
  | none, none => held

end Op

variable [DecidableEq χ] [DecidableEq κ]

/-- The thread may do these operations one after the other. -/
def Runs (mgr : χ → Option κ) (t : Thr) : Ctx χ κ → List (Op χ κ) → Ctx χ κ → Prop
  | Γ, [], Γ' => Γ = Γ'
  | Γ, op :: l, Γ' => op.Fits mgr t Γ ∧ Runs mgr t (op.after Γ) l Γ'

variable {mgr : χ → Option κ} {t : Thr} {Γ Γ' Γ'' : Ctx χ κ} {l l' : List (Op χ κ)}

theorem Runs.append (h : Runs mgr t Γ l Γ') (h' : Runs mgr t Γ' l' Γ'') : Runs mgr t Γ (l ++ l') Γ'' := by
  induction l generalizing Γ with
  | nil =>
      cases h
      exact h'
  | cons op l ih => exact ⟨h.1, ih h.2⟩

theorem runs_callbacks {cs : List (χ × Bool)} (hh : Γ.held = []) (hp : Γ.pdu = none) :
    Runs mgr t Γ (cs.map fun c => if c.2 then .readCb c.1 else .writeCb c.1) Γ := by
  induction cs with
  | nil => rfl
  | cons c cs ih =>
      rw [List.map_cons]
      split
      · exact ⟨⟨hh, hp⟩, ih⟩
      · exact ⟨⟨hh, hp⟩, ih⟩

omit [DecidableEq χ] [DecidableEq κ] in
theorem Ctx.Below.mono {r r' : Nat} (h : Γ.Below r) (hle : r ≤ r') : Γ.Below r' :=
  fun m hm => Nat.lt_of_lt_of_le (h m hm) hle

/-- `add_callback` and `del_callback` lock `m_` and in it that of `aio_`. -/
theorem runs_pollMgr (h : Γ.Below 4) (hl : Runs mgr t { Γ with held := .aio :: .mgr :: Γ.held } l
    { Γ with held := .aio :: .mgr :: Γ.held }) :
    Runs mgr t Γ ([.lock .mgr, .lock .aio] ++ (l ++ [.unlock .aio, .unlock .mgr])) Γ := by
  have h5 : Ctx.Below { Γ with held := .mgr :: Γ.held } 5 := by
    rintro m (_ | ⟨_, hm⟩)
    · simp
    · exact h.mono (by decide) m hm
  have hlock : Runs mgr t Γ [.lock .mgr, .lock .aio] { Γ with held := .aio :: .mgr :: Γ.held } :=
    ⟨⟨h, by simp, by simp⟩, ⟨h5, by simp, by simp⟩, by simp [Op.after, Runs]⟩
  exact hlock.append (hl.append
    ⟨⟨by simp, by simp⟩, ⟨by simp [Op.after], by simp⟩, by simp [Op.after, Runs]⟩)

/-- What an operation calls may be done, and leaves what the operation leaves. -/
theorem runs_exec {d : Data χ κ} {x : Choice χ} {op : Op χ κ} (h : op.Fits mgr t Γ) (hp : d.pdu t = Γ.pdu)
    (hc : d.calls t = Γ.call) (hfree : ∀ m ∈ op.wants, m ∉ Γ.held) (hin : ∀ c ∈ Γ.pdu, .conn c ∈ Γ.held) :
    Runs mgr t ⟨op.locks Γ.held, (exec mgr d t x op).1.pdu t, (exec mgr d t x op).1.calls t⟩
      (exec mgr d t x op).2 (op.after Γ) := by
  obtain ⟨held, pdu, call⟩ := Γ
  simp only at hp hc
  subst hp hc
  cases op with
  | addCallback => exact runs_pollMgr (l := [.pipeWrite]) h ⟨List.mem_cons_self, rfl⟩
  | delCallback rdwr =>
      cases rdwr with
      | true => exact runs_pollMgr (l := [.pipeWrite]) h ⟨List.mem_cons_self, rfl⟩
      | false => exact runs_pollMgr (l := []) h rfl
  | callbacks =>
      obtain ⟨rfl, hp, _⟩ := Ctx.mk.inj h
      simp only [exec]
      split
      · exact (runs_callbacks rfl hp).append ⟨h, rfl⟩
      · exact ⟨h, rfl⟩
  | refInc c o =>
      obtain ⟨b, rfl⟩ := h
      exact ⟨⟨List.mem_cons_self, by simp⟩,
        by simp [Op.after, Runs, Op.locks, Op.wants, Op.frees, exec, Data.refInc]⟩
  | refDec c o =>
      obtain ⟨b, rfl, hb⟩ := h
      simp only [exec]
      split
      · exact ⟨⟨b, rfl, hb⟩, rfl⟩
      · exact ⟨⟨List.mem_cons_self, by simp⟩,
          by simp [Op.after, Runs, Op.locks, Op.wants, Op.frees, Data.refDec]⟩
  | lockLast c =>
      obtain ⟨b, rfl, hb⟩ := h
      refine ⟨⟨b, rfl, hb, fun hp => ?_⟩, rfl⟩
      exact hfree (.conn c) rfl (hin c hp)
  | lastLook c =>
      obtain ⟨b, rfl, _, hp⟩ := h
      have hconn : ∀ c' ∈ d.pdu t, (.conn c : Mutex χ κ) ≠ .conn c' := by
        rintro c' hc' heq
        cases heq
        exact hp hc'
      simp only [exec]
      split
      · exact ⟨⟨by simp [Op.locks, Op.wants, Op.frees], by simp⟩,
          ⟨by simp [Op.after, Op.locks, Op.wants, Op.frees], hconn⟩,
          by simp [Op.after, Runs, Op.locks, Op.wants, Op.frees]⟩
      · exact ⟨⟨by simp [Op.locks, Op.wants, Op.frees], hconn⟩,
          ⟨by simp [Op.after, Op.locks, Op.wants, Op.frees], by simp⟩,
          by simp [Op.after, Runs, Op.locks, Op.wants, Op.frees]⟩
  | find k =>
      obtain ⟨c, rfl⟩ := h
      simp only [exec]
      repeat' split
      all_goals simp [Runs, Op.Fits, Op.after, Ctx.Below, Op.locks, Op.wants, Op.frees]
  | signal k t' =>
      simp_all [exec, Runs, Op.Fits, Op.after, Op.locks, Op.wants, Op.frees]
  | dropOwn =>
      simp only [exec]
      split
      · exact ⟨fun m hm => (h m hm).imp_right .inl, rfl⟩
      · rfl
  | accept | closeAll | nextErased | collect c | seeDead c | seeRef c | lookRef c | readRef c | closeListed c
  | closingListed c =>
      obtain ⟨h, rfl⟩ := h
      simp only [Ctx.idle, Ctx.mk.injEq] at h
      simp only [exec]
      repeat' split
      all_goals
        simp_all [Runs, Op.Fits, Op.after, Ctx.Below, Ctx.idle, Op.locks, Op.wants, Op.frees, Data.setDead, Data.make]
  | _ =>
      simp only [Op.Fits, Ctx.idle, Ctx.mk.injEq] at h
      simp only [exec]
      repeat' split
      all_goals
        simp_all [Runs, Op.Fits, Op.after, Ctx.Below, Ctx.idle, Op.locks, Op.wants, Op.frees, Ctx.Gives, Data.setDead,
          Data.setOwn, Data.make, Data.pass]

end Process
end StanDfs
