import Mathlib.Algebra.BigOperators.Group.Finset.Basic
import Mathlib.Algebra.Order.BigOperators.Group.Finset
import StanDfs.Rpc.Lemmas.Bind

/-!
# At-most-once execution
-/

namespace StanDfs.RpcNet

variable {κ ι : Type*} [DecidableEq κ] [DecidableEq ι] {g : Config κ ι} {s : RpcNet κ ι}

/-- The handler runs at a server for the call `x` of the client `k`. -/
def execs (s : RpcNet κ ι) (k : κ) (x : UInt32) (i : ι) : Nat :=
  (s.srv i).execs.countP fun j => decide (j.conn.clt = k ∧ j.xid = x)

theorem countP_le_one {α : Type*} {P : α → Bool} {l : List α}
    (h : l.Pairwise fun x y => ¬ (P x = true ∧ P y = true)) : l.countP P ≤ 1 := by
  induction l with
  | nil => exact Nat.zero_le 1
  | cons x xs ih =>
      obtain ⟨hx, hxs⟩ := List.pairwise_cons.mp h
      rw [List.countP_cons]
      split
      · rename_i hp
        have h0 : xs.countP P = 0 := List.countP_eq_zero.mpr fun y hy hpy => hx y hy ⟨hp, hpy⟩
        rw [h0]
      · exact ih hxs

/-- The jobs of a call are all of its one request. -/
theorem req_of_exec {tr : List (Act κ ι)} (h : (unwrapped g).Run tr s) {k : κ} {i : ι} {q : Request}
    {j : Job (Conn κ ι)} (hq : q ∈ (s.clt k).issued) (hj : j ∈ (s.srv i).execs)
    (hk : j.conn.clt = k) (hx : j.xid = q.xid) :
    j.req = q ∧ j.conn.srv = i ∧ j.nonce = g.cltNonce k := by
  obtain ⟨hi, hreq, hn⟩ := job_of_run h ((sourced_srv h.of_restrict i).execs j hj).1
  subst hk
  exact ⟨(valid_clt h _).unique hreq hq hx, hi, hn⟩

/-- A server runs the handler at most once for a call of a client with at-most-once logic. -/
theorem execs_of_nonce {tr : List (Act κ ι)} (h : (unwrapped g).Run tr s) {k : κ} {q : Request} (i : ι)
    (hq : q ∈ (s.clt k).issued) (hn : g.cltNonce k ≠ 0) : s.execs k q.xid i ≤ 1 := by
  have honce := (Rpcs.once_of_run (srv_run h.of_restrict i)).once
  refine countP_le_one (honce.imp_of_mem fun {j j'} hj hj' hne hp => ?_)
  obtain ⟨⟨hk, hx⟩, hk', hx'⟩ : (j.conn.clt = k ∧ j.xid = q.xid) ∧ j'.conn.clt = k ∧ j'.xid = q.xid := by
    simpa using hp
  have h₁ := (req_of_exec h hq hj hk hx).2.2
  have h₂ := (req_of_exec h hq hj' hk' hx').2.2
  apply hne (by rw [h₁]; exact hn)
  rw [Job.key, Job.key, h₁, h₂, hx, hx']

theorem execs_of_not_retrans {tr : List (Act κ ι)} (h : (unwrapped g).Run tr s) {k : κ} {q : Request} (i : ι)
    (hq : q ∈ (s.clt k).issued) (hn : g.cltNonce k = 0) : s.execs k q.xid i ≤ 1 := by
  let P : Job (Conn κ ι) → Bool := fun j =>
    decide (j.conn.clt = k ∧ j.conn.srv = i ∧ j.nonce = 0 ∧ j.xid = q.xid)
  have hP : ∀ j, P j = true → j.conn.clt = k ∧ j.conn.srv = i ∧ j.nonce = 0 ∧ j.xid = q.xid :=
    fun j hj => by simpa [P] using hj
  have hretrans : (g.clt k).retrans = false := by
    cases hr : g.retrans k with
    | false => exact hr
    | true => exact absurd hn ((g.retrans_iff k).mp hr)
  calc s.execs k q.xid i
    _ ≤ (s.srv i).execs.countP P := List.countP_mono_left fun j hj hp => by
        obtain ⟨hk, hx⟩ : j.conn.clt = k ∧ j.xid = q.xid := by simpa using hp
        obtain ⟨_, hi, hnonce⟩ := req_of_exec h hq hj hk hx
        simp [P, hk, hi, hnonce, hn, hx]
    _ ≤ (s.srv i).received.countP (Rpcs.jobOf P) :=
        Nat.le_trans (Nat.le_add_left _ _)
          (Rpcs.execs_le_received (srv_run h.of_restrict i) fun j hj => (hP j hj).2.2.1)
    _ ≤ (s.clt k).sent.countP fun m => Rpcs.jobOf P (m.1, m.2.pdu) :=
        Nat.le_trans (Nat.le_add_left _ _) (received_le_sent h fun m hm => by
          unfold Rpcs.jobOf at hm
          split at hm
          · exact ⟨(hP _ hm).1, (hP _ hm).2.1⟩
          · cases hm)
    _ ≤ (s.clt k).copies q.xid := List.countP_mono_left fun m hm hp => by
        rw [Rpcs.jobOf, decodeReq_pdu] at hp
        exact beq_iff_eq.mpr (hP _ hp).2.2.2
    _ ≤ 1 := Rpcc.copies_le_one (h.component (clt_unwrapped g k)) hretrans q.xid

theorem execs_of_ne {tr : List (Act κ ι)} (h : (unwrapped g).Run tr s) {k : κ} {q : Request} {i : ι}
    (hq : q ∈ (s.clt k).issued) (hb : ¬ Rpcc.IsBind q) (hi : g.srvNonce i ≠ q.hdr.srvNonce) :
    s.execs k q.xid i = 0 := by
  refine List.countP_eq_zero.mpr fun j hj hp => ?_
  obtain ⟨hk, hx⟩ : j.conn.clt = k ∧ j.xid = q.xid := by simpa using hp
  obtain ⟨hreq, _⟩ := req_of_exec h hq hj hk hx
  have ha := accepted_of_run h hj (by rw [hreq]; exact hb)
  rw [hreq] at ha
  exact hi ha.symm

/-- For every call but `bind`, the handler runs at most once at all server instances together, as long
as no client makes 2³² calls. -/
theorem at_most_once {tr : List (Act κ ι)} (h : (lts g).Run tr s) (hf : s.FewCalls) {k : κ} {q : Request}
    (hq : q ∈ (s.clt k).issued) (hb : ¬ Rpcc.IsBind q) (I : Finset ι) :
    ∑ i ∈ I, s.execs k q.xid i ≤ 1 := by
  replace h := hf.run h
  obtain ⟨i₀, hi₀⟩ := (bound_of_run h k).issued q hq hb
  have hother : ∀ i ∈ I, i ≠ i₀ → s.execs k q.xid i = 0 := fun i _ hi =>
    execs_of_ne h hq hb fun heq => hi (g.srv_inj i i₀ (heq.trans hi₀.symm))
  have hone : s.execs k q.xid i₀ ≤ 1 := by
    by_cases hn : g.cltNonce k = 0
    · exact execs_of_not_retrans h i₀ hq hn
    · exact execs_of_nonce h i₀ hq hn
  by_cases hI : i₀ ∈ I
  · rw [Finset.sum_eq_single_of_mem i₀ hI hother]
    exact hone
  · rw [Finset.sum_eq_zero fun i hi => hother i hi fun heq => hI (heq ▸ hi)]
    exact Nat.zero_le 1

theorem at_most_once_solo : ∃ tr s, (lts Solo.config).Run tr s ∧
    (s.srv ()).execs.length = 2 ∧ ∑ i ∈ {()}, s.execs () 2 i ≤ 1 := by
  obtain ⟨s, hr, hs⟩ := Lts.run_of_exec (M := lts Solo.config) (s := init)
    (l := Solo.bind ++ Solo.call 0 0 (Solo.req 2 1) 1 [3])
    (f := fun s => decide (Solo.req 2 1 ∈ (s.clt ()).issued ∧ (s.srv ()).execs.length = 2 ∧
      (s.clt ()).issued.length < 2 ^ 32)) rfl (by decide +kernel)
  obtain ⟨hq, hx, hf⟩ := of_decide_eq_true hs
  exact ⟨_, s, hr, hx, at_most_once hr (fun _ => hf) hq (by decide) {()}⟩

end StanDfs.RpcNet
