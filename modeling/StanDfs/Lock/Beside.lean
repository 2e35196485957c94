import StanDfs.Lock.System
import StanDfs.Rpc.Lemmas.Completed

/-!
# Lock clients beside completed calls

A thread of a lock client calls `stat` until the counter of its `rpcc` has come round. What the others do
is then done with xids that were used before.
-/

namespace StanDfs
namespace LockNet

variable {m : Nat} {u : Tid} {v : Worker} {g : Config Unit Unit} {s s₀ : LockNet Unit}

/-- The system `s` is like `s₀`, but for completed calls of the thread `u` that the worker `v` handled. -/
structure Beside (m : Nat) (u : Tid) (v : Worker) (s s₀ : LockNet Unit) : Prop where
  net : RpcNet.Beside m u v s.net s₀.net
  locks : s.locks = s₀.locks
  held : s.held = s₀.held
  stages : ∀ w, w ≠ v → s.stages w = s₀.stages w

/-- The step is one of the other threads and workers, on other calls. -/
def Apart (g : Config Unit Unit) (m : Nat) (u : Tid) (v : Worker) (s : LockNet Unit) : Act Unit → Prop
  | .call k t op lid => RpcNet.Apart m u v s.net (rpc g k t op lid)
  | .serve w _ => w ≠ v
  | .net a => RpcNet.Apart m u v s.net a

theorem Beside.serve (h : Beside m u v s s₀) {w : Worker} {j : Job (Conn Unit Unit)} :
    Beside m u v (s.serve w j) (s₀.serve w j) := by
  unfold LockNet.serve
  rw [h.locks]
  split
  · split
    · exact { h with locks := rfl, stages := Rpcc.update_congr h.stages w _ }
    · exact { h with locks := rfl, stages := Rpcc.update_congr h.stages w _ }
  · exact { h with locks := rfl, stages := Rpcc.update_congr h.stages w _ }
  · exact h

theorem Beside.rpc (h : Beside m u v s s₀) (hm : m ≤ 2 ^ 32) {a : RpcNet.Act Unit Unit}
    (hg : RpcNet.guard g s₀.net a) (ha : RpcNet.Apart m u v s₀.net a) : RpcNet.guard g s.net a ∧
      Beside m u v (next g s (.net a)) (next g s₀ (.net a)) := by
  obtain ⟨hg', hn⟩ := h.net.step hm hg ha
  refine ⟨hg', hn, h.locks, ?_, fun w hw => ?_⟩
  · cases a with
    | srv i a => exact h.held
    | clt k a =>
        cases a with
        | ret t f r => simp only [next, acquired, h.held]
        | _ => exact h.held
  · cases a with
    | clt k a => exact h.stages w hw
    | srv i a =>
        cases a with
        | handled w' j ret body => exact Rpcc.update_congr h.stages w' _ w hw
        | _ => exact h.stages w hw

theorem Beside.call (h : Beside m u v s s₀) (hm : m ≤ 2 ^ 32) {k : Unit} {t : Tid} {op : LockOp} {lid : UInt64}
    (hg : RpcNet.guard g s₀.net (LockNet.rpc g k t op lid))
    (ha : RpcNet.Apart m u v s₀.net (LockNet.rpc g k t op lid)) :
    RpcNet.guard g s.net (LockNet.rpc g k t op lid) ∧
      Beside m u v (next g s (.call k t op lid)) (next g s₀ (.call k t op lid)) := by
  obtain ⟨hg', hn⟩ := h.net.step hm hg ha
  exact ⟨hg', hn, h.locks, by simp only [next, h.held], h.stages⟩

/-- What can be done without the completed calls can be done after them. -/
theorem Beside.step (h : Beside m u v s s₀) (hm : m ≤ 2 ^ 32) {a : Act Unit} (hg : guard g s₀ a)
    (ha : Apart g m u v s₀ a) : guard g s a ∧ Beside m u v (next g s a) (next g s₀ a) := by
  cases a with
  | call k t op lid =>
      obtain ⟨hg', hn⟩ := h.call hm hg.1 ha
      exact ⟨⟨hg', (h.net.clt.refuses _).trans hg.2.1, h.held ▸ hg.2.2⟩, hn⟩
  | serve w j =>
      obtain ⟨hab, hw, hst, hc⟩ := hg
      exact ⟨⟨h.net.srv.aborted.trans hab, (congrFun h.net.srv.workers w).trans hw, h.stages w ha ▸ hst, hc⟩, h.serve⟩
  | net a =>
      obtain ⟨hg', hn⟩ := h.rpc hm hg.1 ha
      refine ⟨⟨hg', ?_⟩, hn⟩
      cases a with
      | clt k a => cases a <;> exact hg.2
      | srv i a =>
          cases a with
          | handled w j ret body => exact ha.elim
          | _ => trivial

/-! ## Call after call -/

/-- A step of a call that is none of `acquire` or `release` and does not time out, in a system with `N` threads
and workers. -/
def Plain (N : Nat) (v : Worker) : RpcNet.Act Unit Unit → Prop
  | .clt _ (.call1 t proc _) => t < N ∧ lockOp proc.toInt32 = none
  | .clt _ (.ret _ f r) => lockOp f.req.hdr.proc = none ∧ r ≠ RpcConst.timeoutFailure
  | .clt _ .cancel => False
  | .srv _ (.begin w _ _) => w < N
  | .srv _ (.handled w j _ _) => w = v ∧ lockOp j.req.hdr.proc = none
  | _ => True

/-- The system does the steps of such calls. -/
structure Calls (g : Config Unit Unit) (N : Nat) (v : Worker) (M : Lts (LockNet Unit) (Act Unit)) : Prop where
  next : ∀ s a, M.next s a = LockNet.next g s a
  guard : ∀ s a, RpcNet.guard g s.net a → Plain N v a → M.guard s (.net a)

variable {N : Nat} {M : Lts (LockNet Unit) (Act Unit)}

theorem next_plain {a : RpcNet.Act Unit Unit} (ha : Plain N v a) :
    (next g s (.net a)).locks = s.locks ∧ (next g s (.net a)).held = s.held ∧
      ∀ w, w ≠ v → (next g s (.net a)).stages w = s.stages w := by
  refine ⟨rfl, ?_, fun w hw => ?_⟩
  · cases a with
    | srv i a => rfl
    | clt k a =>
        cases a with
        | ret t f r =>
            have hop : lockOp f.req.hdr.proc = none := ha.1
            simp only [next, acquired, lockCall, hop]
        | _ => rfl
  · cases a with
    | clt k a => rfl
    | srv i a =>
        cases a with
        | handled w' j ret body =>
            obtain rfl : w' = v := ha.1
            exact Function.update_of_ne hw _ _
        | _ => rfl

theorem run_of_plain (hM : Calls g N v M) {as : List (RpcNet.Act Unit Unit)} (ha : ∀ a ∈ as, Plain N v a)
    {tr : List (Act Unit)} (h : M.Run tr s) {n : RpcNet Unit Unit} (he : (RpcNet.lts g).exec s.net as = some n) :
    ∃ tr' s', M.Run tr' s' ∧ s'.net = n ∧ s'.locks = s.locks ∧ s'.held = s.held ∧
      ∀ w, w ≠ v → s'.stages w = s.stages w := by
  induction as generalizing tr s with
  | nil => exact ⟨tr, s, h, Option.some.inj he, rfl, rfl, fun _ _ => rfl⟩
  | cons a as ih =>
      obtain ⟨ha₁, ha⟩ := List.forall_mem_cons.mp ha
      unfold Lts.exec at he
      split at he
      · rename_i hg
        have hr := h.step (hM.guard s a hg ha₁)
        rw [hM.next] at hr
        obtain ⟨tr', s', hr', hnet, hlocks, hheld, hstages⟩ := ih ha hr he
        obtain ⟨hl, hh, hst⟩ := next_plain (g := g) (s := s) ha₁
        exact ⟨tr', s', hr', hnet, hlocks.trans hl, hheld.trans hh, fun w hw => (hstages w hw).trans (hst w hw)⟩
      · cases he

/-- `s` is `s₀` after calls of `stat` up to the `k`-th. -/
structure Looped (g : Config Unit Unit) (m : Nat) (u : Tid) (v : Worker) (s₀ : LockNet Unit) (k : Nat)
    (s : LockNet Unit) : Prop where
  net : RpcNet.Looped g m u v s₀.net k s.net
  locks : s.locks = s₀.locks
  held : s.held = s₀.held
  stages : ∀ w, w ≠ v → s.stages w = s₀.stages w

theorem plain_completed (hu : u < N) (hv : v < N) {r : Result (Conn Unit Unit)}
    (hp : lockOp r.job.req.hdr.proc = none) (hret : r.ret ≠ RpcConst.timeoutFailure) {b : Addr} :
    ∀ a ∈ RpcNet.completed u v r b, Plain N v a := by
  simp [RpcNet.completed, RpcNet.request, RpcNet.response, Rpcs.working, Plain, hu, hv, hp, hret]

variable {c : Conn Unit Unit} {k : Nat}

theorem Looped.run (hM : Calls g N v M) (hr : RpcNet.Ready g m u v c s₀.net) (hm : m ≤ 2 ^ 32)
    (hn : g.cltNonce () ≠ 0) (hprocs : g.procs () LockProtocol.stat.toInt32 = true) (hu : u < N) (hv : v < N)
    {tr : List (Act Unit)} (h : M.Run tr s) (hs : Looped g m u v s₀ k s) (hk : m ≤ k) (d : Nat)
    (hd : k + d ≤ 2 ^ 32) : ∃ tr' s', M.Run tr' s' ∧ Looped g m u v s₀ (k + d) s' := by
  induction d generalizing tr s k with
  | zero => exact ⟨tr, s, h, hs⟩
  | succ d ih =>
      obtain ⟨n, b, he, hn'⟩ :=
        hs.net.step hr hm hn hk (by omega) LockProtocol.stat (by decide) hprocs (BigEndian.bytes 0)
      obtain ⟨tr', s', hr', rfl, hlocks, hheld, hstages⟩ :=
        run_of_plain hM (plain_completed hu hv (show lockOp LockProtocol.stat.toInt32 = none by decide)
          (show (0 : Int32) ≠ RpcConst.timeoutFailure by decide)) h he
      have hs' : Looped g m u v s₀ (k + 1) s' :=
        ⟨hn', hlocks.trans hs.locks, hheld.trans hs.held, fun w hw => (hstages w hw).trans (hs.stages w hw)⟩
      obtain ⟨tr'', s'', hr'', hs''⟩ := ih hr' hs' (by omega) (by omega)
      exact ⟨tr'', s'', hr'', (show k + (d + 1) = k + 1 + d by omega) ▸ hs''⟩

theorem Looped.start (hr : RpcNet.Ready g m u v c s.net)
    (ho : ∀ e ∈ (s.net.srv ()).table.replies (g.cltNonce ()), e.xid < (s.net.clt ()).xid) :
    Looped g m u v s (s.net.clt ()).xid.toNat s where
  net :=
    { beside :=
        { clt := ⟨rfl, rfl, by simp [RpcNet.atCount], rfl, rfl, rfl,
            ⟨hr.small, [], by simp, rfl, by simp [RpcNet.atCount]⟩, fun _ _ => rfl, fun _ _ => rfl, rfl⟩
          srv := ⟨⟨fun _ => rfl, fun _ => rfl⟩, rfl, List.prefix_refl _, rfl, List.Perm.refl _, rfl, rfl⟩
          up := List.Perm.refl _
          down := List.Perm.refl _
          made := rfl }
      old := fun e he => UInt32.lt_iff_toNat_lt.mp (ho e he) }
  locks := rfl
  held := rfl
  stages _ _ := rfl

/-- The counter has come round to 0. -/
def wrapped (s : LockNet Unit) : LockNet Unit :=
  { s with net := { s.net with clt := fun _ => { s.net.clt () with xid := 0 } } }

theorem Looped.beside (h : Looped g m u v s₀ k s) (hk : UInt32.ofNat k = 0) : Beside m u v s (wrapped s₀) where
  net := by
    have hb := h.net.beside
    rw [RpcNet.atCount, hk] at hb
    exact hb
  locks := h.locks
  held := h.held
  stages := h.stages

/-- From a state in which the thread `u` may call `stat` until the counter has come round, what can be done
then. -/
theorem run_wrapped (hM : Calls g N v M) (hr : RpcNet.Ready g m u v c s₀.net) (hn : g.cltNonce () ≠ 0)
    (hprocs : g.procs () LockProtocol.stat.toInt32 = true) (hu : u < N) (hv : v < N)
    (ho : ∀ e ∈ (s₀.net.srv ()).table.replies (g.cltNonce ()), e.xid < (s₀.net.clt ()).xid)
    (hx : m ≤ (s₀.net.clt ()).xid.toNat) {tr : List (Act Unit)} (h : M.Run tr s₀) :
    ∃ tr' s, M.Run tr' s ∧ Beside m u v s (wrapped s₀) := by
  have hlt : (s₀.net.clt ()).xid.toNat < 2 ^ 32 := (s₀.net.clt ()).xid.toNat_lt
  obtain ⟨k, hk⟩ := Nat.exists_eq_add_of_lt hlt
  obtain ⟨tr', s, h', hs⟩ := (Looped.start hr ho).run hM hr (hx.trans (Nat.le_of_lt hlt)) hn hprocs hu hv h hx
    (k + 1) (Nat.le_of_eq hk.symm)
  refine ⟨tr', s, h', hs.beside ?_⟩
  rw [← UInt32.toNat_inj, UInt32.toNat_ofNat', ← Nat.add_assoc, ← hk]
  exact Nat.mod_self _

instance (s : LockNet Unit) (a : Act Unit) : Decidable (Apart g m u v s a) := by
  unfold Apart
  apply @Act.casesOn _ _ a <;> intros <;> infer_instance

end LockNet
end StanDfs
