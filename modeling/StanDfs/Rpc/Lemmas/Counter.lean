import StanDfs.Rpc.Net

/-!
# The counter of calls

`xid_` goes up by one with each call and wraps around. Until then it is never 0 when a call takes its xid
from it, and the calls of a client are told apart by their xids.
-/

namespace StanDfs

namespace Rpcc

variable {χ : Type*} {e : Env} {s : Rpcc χ}

/-- Only a client that retransmits sends a request again. -/
theorem isdead_cases [DecidableEq χ] (s : Rpcc χ) (t : Tid) (f : Call χ) :
    s.isdead e t f = s.setThread t (.waiting f) ∨
      (e.retrans = true ∧ s.isdead e t f = s.setThread t (.transmit f)) := by
  rw [isdead]
  split
  · rename_i hr
    exact .inr ⟨(Bool.and_eq_true_iff.mp hr).1, rfl⟩
  · exact .inl rfl

/-- Only `call1` makes calls. -/
theorem calls_next [DecidableEq χ] {a : Act χ} (ha : ∀ t proc args, a ≠ .call1 t proc args) :
    (s.next e a).xid = s.xid ∧ (s.next e a).issued = s.issued := by
  cases a with
  | call1 t proc args => exact absurd rfl (ha t proc args)
  | getRefconn t f conn =>
      simp only [next, getRefconn]
      split <;> exact ⟨rfl, rfl⟩
  | ret t f r =>
      simp only [next, ret]
      split
      · split <;> exact ⟨rfl, rfl⟩
      · exact ⟨rfl, rfl⟩
  | gotPdu c b =>
      rw [next, gotPdu]
      split
      · exact ⟨rfl, rfl⟩
      · simp only
        split
        · exact ⟨rfl, rfl⟩
        · rw [take]
          split <;> exact ⟨rfl, rfl⟩
  | _ => exact ⟨rfl, rfl⟩

theorem length_call1 {t : Tid} {proc : UInt32} {args : Bytes} (hr : s.refuses proc = false) :
    (s.call1 e t proc args).issued.length = s.issued.length + 1 := by
  simp [Rpcc.call1, hr]

theorem length_le_next [DecidableEq χ] (s : Rpcc χ) (a : Act χ) :
    s.issued.length ≤ (s.next e a).issued.length := by
  by_cases ha : ∃ t proc args, a = .call1 t proc args
  · obtain ⟨t, proc, args, rfl⟩ := ha
    rw [next, Rpcc.call1]
    split <;> simp
  · rw [(calls_next fun t proc args heq => ha ⟨t, proc, args, heq⟩).2]

/-- The counter has gone up by one with each call. -/
def Counts (s : Rpcc χ) : Prop := s.xid.toNat = (s.issued.length + 1) % 2 ^ 32

theorem Counts.call1 {t : Tid} {proc : UInt32} {args : Bytes} (h : Counts s) :
    Counts (s.call1 e t proc args) := by
  unfold Rpcc.call1
  split
  · exact h
  · unfold Counts at h ⊢
    simp [UInt32.toNat_add, h]

theorem Counts.step [DecidableEq χ] {a : Act χ} (h : Counts s) : Counts (s.next e a) := by
  by_cases ha : ∃ t proc args, a = .call1 t proc args
  · obtain ⟨t, proc, args, rfl⟩ := ha
    exact h.call1
  · obtain ⟨hx, hi⟩ := calls_next (e := e) (s := s) fun t proc args heq => ha ⟨t, proc, args, heq⟩
    unfold Counts
    rw [hx, hi]
    exact h

theorem Counts.xid_ne_zero (h : Counts s) (hlen : s.issued.length < 2 ^ 32) :
    s.xid ≠ 0 ↔ s.issued.length + 1 < 2 ^ 32 := by
  unfold Counts at h
  rw [Ne, ← UInt32.toNat_inj, h, UInt32.toNat_zero]
  omega

/-- A step that ends with fewer than 2³² calls is made before the counter wraps around. -/
theorem Counts.unwrapped [DecidableEq χ] {a : Act χ} (h : Counts s)
    (hlen : (s.next e a).issued.length < 2 ^ 32) : s.Unwrapped a := by
  cases a with
  | call1 t proc args =>
      intro hr
      rw [next, length_call1 hr] at hlen
      exact (h.xid_ne_zero (by omega)).mpr hlen
  | _ => trivial

end Rpcc

namespace RpcNet

variable {κ ι : Type*}

/-- Each client has made fewer than 2³² calls. -/
def FewCalls (s : RpcNet κ ι) : Prop := ∀ k, (s.clt k).issued.length < 2 ^ 32

variable [DecidableEq κ] [DecidableEq ι] {g : Config κ ι} {s : RpcNet κ ι}

def Unwrapped (s : RpcNet κ ι) : Act κ ι → Prop
  | .clt k a => (s.clt k).Unwrapped a
  | .srv _ _ => True

/-- The runs in which no client's `xid_` wraps around. -/
def unwrapped (g : Config κ ι) : Lts (RpcNet κ ι) (Act κ ι) := (lts g).restrict Unwrapped

theorem clt_unwrapped (g : Config κ ι) (k : κ) :
    Lts.Component (unwrapped g) (Rpcc.unwrapped (g.clt k)) (fun s => s.clt k) (cltAct k) := by
  refine (clt_component g k).restrict fun s a b hc hp => ?_
  cases a with
  | srv i a => cases hp
  | clt k' a =>
      rw [cltAct] at hp
      split at hp
      · rename_i hk
        subst hk
        cases hp
        exact hc
      · cases hp

theorem counts_of_run {tr : List (Act κ ι)} (h : (lts g).Run tr s) (k : κ) : (s.clt k).Counts := by
  refine (h.component (clt_component g k)).invariant (I := fun _ s => s.Counts) ?_ ?_
  · rintro s rfl
    rfl
  · intro _ s a _ hs _
    exact hs.step

theorem length_le_next (g : Config κ ι) (s : RpcNet κ ι) (a : Act κ ι) (k : κ) :
    (s.clt k).issued.length ≤ ((next g s a).clt k).issued.length := by
  cases a with
  | srv i a => exact Nat.le_refl _
  | clt k' a =>
      by_cases hk : k = k'
      · subst hk
        simpa [next] using Rpcc.length_le_next (e := g.clt k) (s.clt k) a
      · simp [next, Function.update_of_ne hk]

theorem FewCalls.of_next {a : Act κ ι} (h : (next g s a).FewCalls) : s.FewCalls :=
  fun k => Nat.lt_of_le_of_lt (length_le_next g s a k) (h k)

theorem FewCalls.step {a : Act κ ι} (hc : ∀ k, (s.clt k).Counts) (h : (next g s a).FewCalls) :
    s.Unwrapped a := by
  cases a with
  | srv i a => trivial
  | clt k a =>
      have hk := h k
      simp only [next, Function.update_self] at hk
      exact (hc k).unwrapped hk

/-- No counter has wrapped around in a run that ends with fewer than 2³² calls of each client. -/
theorem FewCalls.run {tr : List (Act κ ι)} (hf : s.FewCalls) (h : (lts g).Run tr s) :
    (unwrapped g).Run tr s := by
  induction h with
  | init h => exact .init h
  | step hr hg ih => exact .step (ih hf.of_next) ⟨hg, hf.step (counts_of_run hr)⟩

theorem FewCalls.run_restrict {C : RpcNet κ ι → Act κ ι → Prop} {tr : List (Act κ ι)} (hf : s.FewCalls)
    (h : ((lts g).restrict C).Run tr s) : ((unwrapped g).restrict C).Run tr s :=
  (hf.run h.of_restrict).restrict_and (by rintro s s' rfl rfl; rfl) h

end RpcNet
end StanDfs
