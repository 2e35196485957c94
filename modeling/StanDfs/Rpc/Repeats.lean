import Mathlib.Data.List.Dedup
import Mathlib.Data.List.Perm.Subperm
import StanDfs.Rpc.Window

/-!
# An xid that is reported twice

`got_pdu` reports the xid of a call, and `call1` reports it again. The insertion does not look whether the
xid is there already, so a repetition is absorbed only if the front has come up to the xid.
-/

namespace StanDfs

namespace XidWindow

/-- The window is strictly increasing, and no longer than the xids reported above its front allow. -/
def Distinct (xs : List UInt32) (w : XidWindow) : Prop :=
  w.xids.Pairwise (· < ·) ∧ w.xids.length ≤ 1 + (xs.filter (w.front < ·)).dedup.length

/-- The front is at the xid, or every xid from the front up to it is in the window. -/
def NoGap (w : XidWindow) (xid : UInt32) : Prop :=
  xid ≤ w.front ∨ ∀ y, w.front < y → y < xid → y ∈ w.rest

variable {R : UInt32 → Prop} {w : XidWindow} {x xid : UInt32} {l : List UInt32}

/-! ## The list as a whole -/

theorem insertXid_perm (xid : UInt32) (l : List UInt32) : (insertXid xid l).Perm (xid :: l) := by
  induction l with
  | nil => exact .refl _
  | cons y ys ih =>
      unfold insertXid
      split
      · exact .refl _
      · exact (ih.cons y).trans (.swap xid y ys)

theorem popFront_sublist (x front : UInt32) (mid : List UInt32) :
    (popFront x front mid).xids.Sublist (front :: (mid ++ [x])) := by
  induction mid generalizing front with
  | nil =>
      unfold popFront
      split
      · exact List.sublist_cons_self front [x]
      · exact .refl _
  | cons y ys ih =>
      unfold popFront
      split
      · exact (ih y).cons front
      · exact .refl _

theorem compress_sublist (w : XidWindow) (l : List UInt32) : (compress w l).xids.Sublist (w.xids ++ l) := by
  induction l generalizing w with
  | nil => simp [compress]
  | cons x xs ih =>
      have hp := popFront_sublist x w.front w.rest
      have h := (ih (popFront x w.front w.rest)).trans (hp.append_right xs)
      simpa [xids, compress] using h

/-- Nothing is popped where the xid behind the front is missing. -/
theorem compress_of_gap (h : w.front + 1 ∉ l) : compress w l = ⟨w.front, w.rest ++ l⟩ := by
  induction l generalizing w with
  | nil => simp [compress]
  | cons x xs ih =>
      rw [List.mem_cons, not_or] at h
      have hp : popFront x w.front w.rest = ⟨w.front, w.rest ++ [x]⟩ := by
        cases w.rest <;> simp [popFront, h.1]
      rw [compress, hp]
      have h' := ih (w := ⟨w.front, w.rest ++ [x]⟩) h.2
      simpa using h'

theorem pairwise_lt_insertXid (h : l.Pairwise (· < ·)) (hx : xid ∉ l) :
    (insertXid xid l).Pairwise (· < ·) := by
  have hle : (insertXid xid l).Pairwise (· ≤ ·) := sorted_insertXid (h.imp UInt32.le_of_lt)
  have hnd : (insertXid xid l).Nodup := by
    rw [(insertXid_perm xid l).nodup_iff, List.nodup_cons]
    exact ⟨hx, h.imp UInt32.ne_of_lt⟩
  exact (hle.and hnd).imp fun ⟨hle, hne⟩ => UInt32.lt_of_le_of_ne hle hne

/-! ## One report -/

/-- A repetition above the front stays in the list twice. -/
theorem Exact.repeated (h : w.Exact R) (hf : w.front < xid) (hx : xid ∈ w.rest) :
    updateXidRep w xid = ⟨w.front, insertXid xid w.rest⟩ := by
  have hgap : w.front + 1 ∉ insertXid xid w.rest := by
    rw [mem_insertXid, not_or]
    exact ⟨fun heq => h.gap (heq ▸ hx), h.gap⟩
  unfold updateXidRep
  rw [if_neg (UInt32.not_le.mpr hf)]
  exact compress_of_gap (w := ⟨w.front, []⟩) hgap

theorem update_of_le (h : xid ≤ w.front) : updateXidRep w xid = w := by
  unfold updateXidRep
  rw [if_pos h]

/-- The front comes up to a reported xid when no xid below it is missing. -/
theorem Exact.le_front_iff (h : w.Exact R) : xid ≤ (updateXidRep w xid).front ↔ w.NoGap xid := by
  have h' := updateXidRep_exact xid h
  have hup := le_updateXidRep xid h.toReports
  constructor
  · intro hle
    unfold NoGap
    by_cases hf : xid ≤ w.front
    · exact .inl hf
    · right
      intro y hy hyx
      have hyle : y ≤ (updateXidRep w xid).front := UInt32.le_trans (UInt32.le_of_lt hyx) hle
      rcases h'.below y (UInt32.lt_of_le_of_lt (UInt32.zero_le) hy) hyle with rfl | hR
      · exact absurd hyx (UInt32.lt_irrefl y)
      · exact h.above y hR hy
  · rintro (hf | hall)
    · exact UInt32.le_trans hf hup
    · by_contra hgt
      have hlt := UInt32.not_le.mp hgt
      -- The xid behind the new front is reported, and so it is in the window.
      have hR : (updateXidRep w xid).front + 1 = xid ∨ R ((updateXidRep w xid).front + 1) := by
        by_cases heq : (updateXidRep w xid).front + 1 = xid
        · exact .inl heq
        · exact .inr (h.mem _ (hall _ (by grind) (by grind)))
      exact h'.gap (h'.above _ hR (by grind))

theorem Exact.twice_iff (h : w.Exact R) :
    updateXidRep (updateXidRep w xid) xid = updateXidRep w xid ↔ w.NoGap xid := by
  rw [← h.le_front_iff]
  constructor
  · intro heq
    by_contra hgt
    have hlt := UInt32.not_le.mp hgt
    have h' := updateXidRep_exact xid h
    have hrep := h'.repeated hlt (h'.above xid (.inl rfl) hlt)
    have hlen := (insertXid_perm xid (updateXidRep w xid).rest).length_eq
    rw [heq] at hrep
    have heqlen := congrArg (fun w => w.rest.length) hrep
    simp only [hlen, List.length_cons] at heqlen
    omega
  · exact update_of_le

theorem Exact.update_distinct (h : w.Exact R) (hs : w.xids.Pairwise (· < ·)) :
    (updateXidRep w xid).xids.Pairwise (· < ·) ↔ ¬ (w.front < xid ∧ xid ∈ w.rest) := by
  constructor
  · rintro hp ⟨hf, hx⟩
    rw [h.repeated hf hx] at hp
    have hnd : (insertXid xid w.rest).Nodup := (List.pairwise_cons.mp hp).2.imp UInt32.ne_of_lt
    rw [(insertXid_perm xid w.rest).nodup_iff, List.nodup_cons] at hnd
    exact hnd.1 hx
  · intro hno
    by_cases hf : xid ≤ w.front
    · rw [update_of_le hf]
      exact hs
    · have hx : xid ∉ w.rest := fun hm => hno ⟨UInt32.not_le.mp hf, hm⟩
      have hs' := List.pairwise_cons.mp hs
      unfold updateXidRep
      rw [if_neg hf]
      apply List.Pairwise.sublist (compress_sublist _ _)
      apply List.pairwise_cons.mpr
      refine ⟨fun y hy => ?_, pairwise_lt_insertXid hs'.2 hx⟩
      rcases mem_insertXid.mp hy with rfl | hy
      · exact UInt32.not_le.mp hf
      · exact hs'.1 y hy

theorem Exact.distinct {xs : List UInt32} (h : w.Exact (· ∈ xs)) (hs : w.xids.Pairwise (· < ·)) :
    w.Distinct xs := by
  have hs' := List.pairwise_cons.mp hs
  have hnd : w.rest.Nodup := hs'.2.imp UInt32.ne_of_lt
  have hsub : w.rest ⊆ (xs.filter (w.front < ·)).dedup := by
    intro y hy
    simp [h.mem y hy, hs'.1 y hy]
  have hle := (hnd.subperm hsub).length_le
  refine ⟨hs, ?_⟩
  simp only [xids, List.length_cons]
  omega

end XidWindow

/-! ## Every sequence of reports -/

/-- Some report of the sequence is of an xid that is in the window above its front. -/
def Repeats (xs : List UInt32) : Prop :=
  ∃ (ys : List UInt32) (y : UInt32) (w : XidWindow),
    ys ++ [y] <+: xs ∧ reportAll ys = some w.xids ∧ w.front < y ∧ y ∈ w.rest

theorem xids_injective {w w' : XidWindow} (h : w.xids = w'.xids) : w = w' := by
  cases w
  cases w'
  simpa [XidWindow.xids] using h

theorem reportAll_append {xs : List UInt32} {w : XidWindow} (h : reportAll xs = some w.xids) (x : UInt32) :
    reportAll (xs ++ [x]) = some (updateXidRep w x).xids := by
  rw [reportAll] at h ⊢
  rw [List.foldlM_append, h]
  simp [updateList_eq]

theorem distinct_iff (xs : List UInt32) :
    (∀ ys w, ys <+: xs → reportAll ys = some (XidWindow.xids w) → w.Distinct ys) ↔ ¬ Repeats xs := by
  constructor
  · rintro h ⟨ys, y, w, hpre, hw, hf, hy⟩
    obtain ⟨w', hw', he⟩ := exact_of_reports ys
    obtain rfl := xids_injective (Option.some.inj (hw.symm.trans hw'))
    have hys : ys <+: xs := (List.prefix_append ys [y]).trans hpre
    have hd := (h _ _ hpre (reportAll_append hw y)).1
    exact (he.update_distinct (h ys w hys hw).1).mp hd ⟨hf, hy⟩
  · intro hno ys
    induction ys using List.reverseRecOn with
    | nil =>
        intro w _ hw
        obtain rfl := xids_injective (w := ⟨0, []⟩) (Option.some.inj hw)
        simp [XidWindow.Distinct, XidWindow.xids]
    | append_singleton ys y ih =>
        intro w hpre hw
        obtain ⟨w₀, hw₀, he⟩ := exact_of_reports ys
        obtain rfl := xids_injective (Option.some.inj ((reportAll_append hw₀ y).symm.trans hw))
        have hys : ys <+: xs := (List.prefix_append ys [y]).trans hpre
        obtain ⟨w', hw', he'⟩ := exact_of_reports (ys ++ [y])
        obtain rfl := xids_injective (Option.some.inj (hw.symm.trans hw'))
        apply he'.distinct
        exact (he.update_distinct (ih w₀ hys hw₀).1).mpr fun h => hno ⟨ys, y, w₀, hpre, hw₀, h⟩

/-- A second report in a row is harmless exactly when no xid below it is missing from the window, and the
windows of a sequence of reports stay strictly increasing exactly when none is of an xid that the window
still has above its front. -/
theorem reported_twice_iff (xs : List UInt32) :
    (∀ xid, ∃ w : XidWindow, reportAll xs = some w.xids ∧
      (reportAll (xs ++ [xid, xid]) = reportAll (xs ++ [xid]) ↔ w.NoGap xid)) ∧
    ((∀ ys w, ys <+: xs → reportAll ys = some (XidWindow.xids w) → w.Distinct ys) ↔ ¬ Repeats xs) := by
  refine ⟨fun xid => ?_, distinct_iff xs⟩
  obtain ⟨w, hw, he⟩ := exact_of_reports xs
  refine ⟨w, hw, ?_⟩
  have h₁ := reportAll_append hw xid
  have h₂ := reportAll_append h₁ xid
  rw [List.append_assoc] at h₂
  rw [← he.twice_iff, h₁]
  constructor
  · intro heq
    exact xids_injective (Option.some.inj (h₂.symm.trans heq))
  · intro heq
    rw [← heq]
    exact h₂

/-- The call with xid 1 is still out when `got_pdu` and then `call1` report xid 2. -/
theorem reported_twice_stays :
    reportAll [2] = some [0, 2] ∧ reportAll [2, 2] = some [0, 2, 2] ∧ ¬ [0, 2, 2].Pairwise (· < ·) := by
  refine ⟨rfl, rfl, by simp⟩

end StanDfs
