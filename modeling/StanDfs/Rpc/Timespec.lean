import Mathlib.Algebra.Order.Ring.Int
import Mathlib.Tactic.Common

/-!
# Deadlines

`add_timespec` adds milliseconds and carries the nanoseconds over into the seconds. Its loop stops at
10^9 nanoseconds, one too late.
-/

namespace StanDfs

/-- `struct timespec` -/
structure Timespec where
  tvSec : Int
  tvNsec : Int
  deriving DecidableEq, Repr

namespace Timespec

/-- The loop of `add_timespec`. -/
def carry (result : Timespec) : Timespec :=
  if result.tvNsec > 1000000000 then carry ⟨result.tvSec + 1, result.tvNsec - 1000000000⟩ else result
termination_by result.tvNsec.toNat

end Timespec

open Timespec

/-- `add_timespec`, where the `assert` holds and `tv_sec` does not overflow. The division of C rounds
towards zero. -/
def addTimespec (a : Timespec) (b : Int) : Timespec :=
  carry ⟨a.tvSec + b.tdiv 1000, a.tvNsec + b.tmod 1000 * 1000000⟩

/-- `cmp_timespec` -/
def cmpTimespec (a b : Timespec) : Int :=
  if a.tvSec > b.tvSec then 1
  else if a.tvSec < b.tvSec then -1
  else if a.tvNsec > b.tvNsec then 1
  else if a.tvNsec < b.tvNsec then -1
  else 0

namespace Timespec

/-- The values of a `time_t`. -/
def IsTime (n : Int) : Prop := -2 ^ 63 ≤ n ∧ n < 2 ^ 63

/-- The `assert` of `add_timespec` holds, and `tv_sec`, which the loop only increments, stays a `time_t`
from its first value to its last. -/
def AddDefined (a : Timespec) (b : Int) : Prop :=
  0 ≤ a.tvNsec + b.tmod 1000 * 1000000 ∧ IsTime (a.tvSec + b.tdiv 1000) ∧ IsTime (addTimespec a b).tvSec

/-- The time as a number of nanoseconds. -/
def nanos (t : Timespec) : Int := t.tvSec * 1000000000 + t.tvNsec

/-- What `pthread_cond_timedwait` takes as a deadline. -/
def Valid (t : Timespec) : Prop := 0 ≤ t.tvNsec ∧ t.tvNsec < 1000000000

/-- `cmp_timespec` orders the two as their nanoseconds do. -/
def Ordered (x y : Timespec) : Prop :=
  (cmpTimespec x y = 1 ↔ y.nanos < x.nanos) ∧ (cmpTimespec x y = -1 ↔ x.nanos < y.nanos) ∧
    (cmpTimespec x y = 0 ↔ x.nanos = y.nanos)

/-- The sum is the time `b` milliseconds after `a`, and a deadline. -/
def AddExact (a : Timespec) (b : Int) : Prop :=
  AddDefined a b ∧ (addTimespec a b).nanos = a.nanos + b * 1000000 ∧ (addTimespec a b).Valid

/-- The nanoseconds and the milliseconds of the remainder do not make up one full second, and the seconds
of the sum are a `time_t`. -/
def Carried (a : Timespec) (b : Int) : Prop :=
  a.tvNsec + b % 1000 * 1000000 ≠ 1000000000 ∧ (a.nanos + b * 1000000) / 1000000000 < 2 ^ 63

variable {a t x y : Timespec} {b : Int}

/-! ## The loop -/

theorem carry_of_le (h : t.tvNsec ≤ 1000000000) : carry t = t := by
  rw [carry, if_neg (not_lt.mpr h)]

theorem carry_of_gt (h : t.tvNsec > 1000000000) : carry t = carry ⟨t.tvSec + 1, t.tvNsec - 1000000000⟩ := by
  rw [carry, if_pos h]

theorem nanos_carry (t : Timespec) : (carry t).nanos = t.nanos := by
  induction t using carry.induct with
  | case1 t h ih =>
      rw [carry_of_gt h, ih]
      unfold nanos
      simp only
      omega
  | case2 t h => rw [carry_of_le (not_lt.mp h)]

theorem tvNsec_carry (h : 0 ≤ t.tvNsec) : 0 ≤ (carry t).tvNsec ∧ (carry t).tvNsec ≤ 1000000000 := by
  induction t using carry.induct with
  | case1 t hgt ih =>
      rw [carry_of_gt hgt]
      apply ih
      simp only
      omega
  | case2 t hle =>
      rw [carry_of_le (not_lt.mp hle)]
      exact ⟨h, not_lt.mp hle⟩

/-- The loop leaves a full second there exactly when the nanoseconds were whole seconds, and at least one. -/
theorem tvNsec_carry_eq (h : 0 ≤ t.tvNsec) :
    (carry t).tvNsec = 1000000000 ↔ t.tvNsec ≠ 0 ∧ t.tvNsec % 1000000000 = 0 := by
  induction t using carry.induct with
  | case1 t hgt ih =>
      rw [carry_of_gt hgt, ih (by simp only; omega)]
      simp only
      omega
  | case2 t hle =>
      rw [carry_of_le (not_lt.mp hle)]
      omega

/-! ## The sum and the comparison -/

theorem addTimespec_of_nonneg (hb : 0 ≤ b) :
    addTimespec a b = carry ⟨a.tvSec + b / 1000, a.tvNsec + b % 1000 * 1000000⟩ := by
  rw [addTimespec, Int.tdiv_eq_ediv_of_nonneg hb, Int.tmod_eq_emod_of_nonneg hb]

theorem nanos_addTimespec (hb : 0 ≤ b) : (addTimespec a b).nanos = a.nanos + b * 1000000 := by
  rw [addTimespec_of_nonneg hb, nanos_carry]
  unfold nanos
  simp only
  omega

/-- The nanoseconds are normalised, but for one value. -/
theorem valid_addTimespec (ha : a.Valid) (hb : 0 ≤ b) :
    (addTimespec a b).Valid ↔ a.tvNsec + b % 1000 * 1000000 ≠ 1000000000 := by
  obtain ⟨h0, h1⟩ := ha
  have hle : 0 ≤ a.tvNsec + b % 1000 * 1000000 := by omega
  have hbounds := tvNsec_carry (t := ⟨a.tvSec + b / 1000, a.tvNsec + b % 1000 * 1000000⟩) hle
  have heq := tvNsec_carry_eq (t := ⟨a.tvSec + b / 1000, a.tvNsec + b % 1000 * 1000000⟩) hle
  rw [addTimespec_of_nonneg hb, Valid]
  simp only at heq
  omega

theorem tvNsec_addTimespec (ha : a.Valid) (hb : 0 ≤ b) :
    0 ≤ (addTimespec a b).tvNsec ∧ (addTimespec a b).tvNsec ≤ 1000000000 := by
  rw [addTimespec_of_nonneg hb]
  apply tvNsec_carry
  have := ha.1
  simp only
  omega

/-- `cmp_timespec` never puts the later time first, normalised or not. -/
theorem nanos_le_of_cmp (hx : 0 ≤ x.tvNsec ∧ x.tvNsec ≤ 1000000000)
    (hy : 0 ≤ y.tvNsec ∧ y.tvNsec ≤ 1000000000) (h : ¬ cmpTimespec x y > 0) : x.nanos ≤ y.nanos := by
  unfold cmpTimespec at h
  unfold nanos
  split_ifs at h <;> omega

theorem tvSec_of_valid (h : t.Valid) : t.tvSec = t.nanos / 1000000000 := by
  obtain ⟨h0, h1⟩ := h
  unfold nanos
  omega

theorem ordered_of_valid (hx : x.Valid) (hy : y.Valid) : Ordered x y := by
  obtain ⟨hx0, hx1⟩ := hx
  obtain ⟨hy0, hy1⟩ := hy
  unfold Ordered cmpTimespec nanos
  split_ifs <;> simp <;> omega

theorem addDefined_iff (ha : a.Valid) (ht : IsTime a.tvSec) (hb : 0 ≤ b) (hv : (addTimespec a b).Valid) :
    AddDefined a b ↔ (a.nanos + b * 1000000) / 1000000000 < 2 ^ 63 := by
  obtain ⟨h0, h1⟩ := ha
  obtain ⟨ht0, ht1⟩ := ht
  unfold AddDefined
  rw [tvSec_of_valid hv, nanos_addTimespec hb, Int.tdiv_eq_ediv_of_nonneg hb, Int.tmod_eq_emod_of_nonneg hb]
  unfold IsTime nanos
  omega

theorem addExact_iff (ha : a.Valid) (ht : IsTime a.tvSec) (hb : 0 ≤ b) : AddExact a b ↔ Carried a b := by
  constructor
  · rintro ⟨hd, _, hv⟩
    exact ⟨(valid_addTimespec ha hb).mp hv, (addDefined_iff ha ht hb hv).mp hd⟩
  · rintro ⟨hne, hlt⟩
    have hv := (valid_addTimespec ha hb).mpr hne
    exact ⟨(addDefined_iff ha ht hb hv).mpr hlt, nanos_addTimespec hb, hv⟩

end Timespec

/-- `add_timespec` is exact, normalised and ordered by `cmp_timespec` for exactly the sums whose
nanoseconds do not come to one full second. -/
theorem addTimespec_exact_iff (a₁ a₂ : Timespec) (b₁ b₂ : Int) (h₁ : a₁.Valid) (h₂ : a₂.Valid)
    (ht₁ : IsTime a₁.tvSec) (ht₂ : IsTime a₂.tvSec) (hb₁ : 0 ≤ b₁) (hb₂ : 0 ≤ b₂) :
    (AddExact a₁ b₁ ↔ Carried a₁ b₁) ∧
      (AddExact a₁ b₁ ∧ AddExact a₂ b₂ ∧ Ordered (addTimespec a₁ b₁) (addTimespec a₂ b₂) ↔
        Carried a₁ b₁ ∧ Carried a₂ b₂) := by
  constructor
  · exact addExact_iff h₁ ht₁ hb₁
  · rw [addExact_iff h₁ ht₁ hb₁, addExact_iff h₂ ht₂ hb₂]
    constructor
    · rintro ⟨hc₁, hc₂, _⟩
      exact ⟨hc₁, hc₂⟩
    · rintro ⟨hc₁, hc₂⟩
      have hv₁ := (valid_addTimespec h₁ hb₁).mpr hc₁.1
      have hv₂ := (valid_addTimespec h₂ hb₂).mpr hc₂.1
      exact ⟨hc₁, hc₂, ordered_of_valid hv₁ hv₂⟩

theorem addTimespec_exact_iff_second : AddExact ⟨0, 999000001⟩ 1 :=
  (addTimespec_exact_iff ⟨0, 999000001⟩ ⟨1, 0⟩ 1 0 (by unfold Valid; simp) (by unfold Valid; simp)
    (by unfold IsTime; simp) (by unfold IsTime; simp) (by simp) (by simp)).1.mpr
    (by unfold Carried nanos; simp)

/-- One millisecond before the full second: the sum is no deadline, and it compares as earlier than the
same time. -/
theorem addTimespec_full_second :
    (⟨0, 999000000⟩ : Timespec).Valid ∧ addTimespec ⟨0, 999000000⟩ 1 = ⟨0, 1000000000⟩ ∧
      ¬ (addTimespec ⟨0, 999000000⟩ 1).Valid ∧
      (addTimespec ⟨0, 999000000⟩ 1).nanos = (addTimespec ⟨1, 0⟩ 0).nanos ∧
      cmpTimespec (addTimespec ⟨0, 999000000⟩ 1) (addTimespec ⟨1, 0⟩ 0) = -1 := by
  have h₁ : addTimespec ⟨0, 999000000⟩ 1 = ⟨0, 1000000000⟩ := by
    rw [addTimespec_of_nonneg (by simp), carry_of_le (by simp)]
    rfl
  have h₂ : addTimespec ⟨1, 0⟩ 0 = ⟨1, 0⟩ := by
    rw [addTimespec_of_nonneg (by simp), carry_of_le (by simp)]
    rfl
  rw [h₁, h₂]
  unfold Valid nanos
  simp [cmpTimespec]

end StanDfs
