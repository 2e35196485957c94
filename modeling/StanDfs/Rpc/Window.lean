import Mathlib.Data.List.Induction
import Mathlib.Order.Bounds.Basic
import Mathlib.Tactic.Common

/-!
# The window of a client's replies

`xid_rep_window_` starts as `[0]` and never becomes empty. Its first element tells the server that every
xid up to it needs no reply any more; the others are the xids reported above a gap.
-/

namespace StanDfs

/-- `xid_rep_window_`, a list that is never empty. -/
structure XidWindow where
  front : UInt32
  rest : List UInt32
  deriving DecidableEq, Repr

namespace XidWindow

def xids (w : XidWindow) : List UInt32 := w.front :: w.rest

/-- Insertion before the first greater element. -/
def insertXid (xid : UInt32) : List UInt32 → List UInt32
  | [] => [xid]
  | y :: ys => if y > xid then xid :: y :: ys else y :: insertXid xid ys

/-- The inner loop at element `x`, behind `front :: mid`: `pop_front` while the front is just below `x`.
Once `x` is the front itself, the loop ends. -/
def popFront (x front : UInt32) : List UInt32 → XidWindow
  | [] => if front + 1 = x then ⟨x, []⟩ else ⟨front, [x]⟩
  | y :: ys => if front + 1 = x then popFront x y ys else ⟨front, y :: ys ++ [x]⟩

/-- The loop at `compress`: `w` is the list before the iterator, the argument the list from it on. -/
def compress (w : XidWindow) : List UInt32 → XidWindow
  | [] => w
  | x :: xs => compress (popFront x w.front w.rest) xs

end XidWindow

open XidWindow

/-- `update_xid_rep` -/
def updateXidRep (w : XidWindow) (xid : UInt32) : XidWindow :=
  if xid ≤ w.front then w
  else compress ⟨w.front, []⟩ (insertXid xid w.rest)

namespace XidWindow

/-! ## What the window stands for -/

/-- The window of a client for which `update_xid_rep` was called with the xids that satisfy `R`. -/
structure Reports (R : UInt32 → Prop) (w : XidWindow) : Prop where
  sorted : w.xids.Pairwise (· ≤ ·)
  below : ∀ x, 0 < x → x ≤ w.front → R x
  mem : ∀ x ∈ w.rest, R x

theorem mem_insertXid {xid x : UInt32} {l : List UInt32} : x ∈ insertXid xid l ↔ x = xid ∨ x ∈ l := by
  induction l with
  | nil => simp [insertXid]
  | cons y ys ih =>
      unfold insertXid
      split
      · simp
      · rw [List.mem_cons, ih, List.mem_cons]
        exact or_left_comm

theorem sorted_insertXid {xid : UInt32} {l : List UInt32} (h : l.Pairwise (· ≤ ·)) :
    (insertXid xid l).Pairwise (· ≤ ·) := by
  induction l with
  | nil => simp [insertXid]
  | cons y ys ih =>
      rw [List.pairwise_cons] at h
      unfold insertXid
      split
      · rename_i hy
        refine List.pairwise_cons.mpr ⟨fun z hz => ?_, List.pairwise_cons.mpr h⟩
        rcases List.mem_cons.mp hz with rfl | hz
        · exact UInt32.le_of_lt hy
        · exact UInt32.le_trans (UInt32.le_of_lt hy) (h.1 z hz)
      · rename_i hy
        refine List.pairwise_cons.mpr ⟨fun z hz => ?_, ih h.2⟩
        rcases mem_insertXid.mp hz with rfl | hz
        · exact UInt32.not_lt.mp hy
        · exact h.1 z hz

/-- A front just below a reported xid may go: the next element of the window is at most that xid. -/
theorem Reports.pop {R : UInt32 → Prop} {front y : UInt32} {ys : List UInt32}
    (h : Reports R ⟨front, y :: ys⟩) (hy : y ≤ front + 1) (hR : R (front + 1)) :
    Reports R ⟨y, ys⟩ := by
  refine ⟨(List.pairwise_cons.mp h.sorted).2, fun x hx hle => ?_, fun x hx => h.mem x (by simp [hx])⟩
  by_cases hlt : x ≤ front
  · exact h.below x hx hlt
  · have heq : x = front + 1 := by grind
    exact heq ▸ hR

theorem Reports.popFront {R : UInt32 → Prop} {x front : UInt32} {mid xs : List UInt32}
    (h : Reports R ⟨front, mid ++ x :: xs⟩) :
    Reports R ⟨(popFront x front mid).front, (popFront x front mid).rest ++ xs⟩ := by
  have hx : R x := h.mem x (by simp)
  induction mid generalizing front with
  | nil =>
      unfold XidWindow.popFront
      split
      · rename_i he
        exact h.pop (by rw [he]; exact UInt32.le_refl x) (he ▸ hx)
      · exact h
  | cons y ys ih =>
      unfold XidWindow.popFront
      split
      · rename_i he
        have hs := (List.pairwise_cons.mp h.sorted).2
        have hyx : y ≤ x := (List.pairwise_cons.mp hs).1 x (by simp)
        exact ih (h.pop (by rw [he]; exact hyx) (he ▸ hx))
      · simpa using h

theorem le_popFront {x front : UInt32} {mid xs : List UInt32}
    (h : (front :: (mid ++ x :: xs)).Pairwise (· ≤ ·)) : front ≤ (popFront x front mid).front := by
  induction mid generalizing front with
  | nil =>
      have hle : front ≤ x := (List.pairwise_cons.mp h).1 x (by simp)
      unfold popFront
      split
      · exact hle
      · exact UInt32.le_refl front
  | cons y ys ih =>
      have hle : front ≤ y := (List.pairwise_cons.mp h).1 y (by simp)
      unfold popFront
      split
      · exact UInt32.le_trans hle (ih (List.pairwise_cons.mp h).2)
      · exact UInt32.le_refl front

theorem Reports.compress {R : UInt32 → Prop} {w : XidWindow} {l : List UInt32}
    (h : Reports R ⟨w.front, w.rest ++ l⟩) : Reports R (compress w l) := by
  induction l generalizing w with
  | nil =>
      rw [List.append_nil] at h
      exact h
  | cons x xs ih => exact ih h.popFront

theorem Reports.le_compress {R : UInt32 → Prop} {w : XidWindow} {l : List UInt32}
    (h : Reports R ⟨w.front, w.rest ++ l⟩) : w.front ≤ (XidWindow.compress w l).front := by
  induction l generalizing w with
  | nil => exact UInt32.le_refl _
  | cons x xs ih => exact UInt32.le_trans (le_popFront h.sorted) (ih h.popFront)

theorem Reports.mono {R R' : UInt32 → Prop} {w : XidWindow} (h : Reports R w)
    (hR : ∀ x, R x → R' x) : Reports R' w :=
  ⟨h.sorted, fun x hx hle => hR x (h.below x hx hle), fun x hx => hR x (h.mem x hx)⟩

/-- The list `update_xid_rep` compresses stands for one more xid. -/
theorem Reports.insert {R : UInt32 → Prop} {w : XidWindow} {xid : UInt32} (h : Reports R w)
    (hx : ¬ xid ≤ w.front) :
    Reports (fun x => x = xid ∨ R x) ⟨w.front, insertXid xid w.rest⟩ := by
  have hs := List.pairwise_cons.mp h.sorted
  refine ⟨List.pairwise_cons.mpr ⟨fun y hy => ?_, sorted_insertXid hs.2⟩,
    fun x hx hle => .inr (h.below x hx hle), fun x hx => ?_⟩
  · rcases mem_insertXid.mp hy with rfl | hy
    · exact UInt32.le_of_lt (UInt32.not_le.mp hx)
    · exact hs.1 y hy
  · rcases mem_insertXid.mp hx with rfl | hx
    · exact .inl rfl
    · exact .inr (h.mem x hx)

theorem reports_init (R : UInt32 → Prop) : Reports R ⟨0, []⟩ :=
  ⟨by simp [xids], fun x hx hle => by grind, by simp⟩

end XidWindow

/-- After `update_xid_rep`, the window stands for one more xid. -/
theorem updateXidRep_reports {R : UInt32 → Prop} {w : XidWindow} (xid : UInt32)
    (h : w.Reports R) : (updateXidRep w xid).Reports fun x => x = xid ∨ R x := by
  unfold updateXidRep
  split
  · exact h.mono fun _ => .inr
  · rename_i hx
    exact Reports.compress (w := ⟨w.front, []⟩) (h.insert hx)

/-- What the client tells the servers never goes back. -/
theorem le_updateXidRep {R : UInt32 → Prop} {w : XidWindow} (xid : UInt32) (h : w.Reports R) :
    w.front ≤ (updateXidRep w xid).front := by
  unfold updateXidRep
  split
  · exact UInt32.le_refl _
  · rename_i hx
    exact Reports.le_compress (w := ⟨w.front, []⟩) (h.insert hx)

/-! ## The list and its iterator -/

namespace XidWindow

/-- The inner loop on the list before the iterator; the iterator is at `x`. There is no result if the
element that the iterator is at is popped. -/
def popLoop (x : UInt32) : List UInt32 → Option (List UInt32)
  | [] => if x + 1 = x then none else some []
  | y :: ys => if y + 1 = x then popLoop x ys else some (y :: ys)

/-- The loop at `compress` on the list before the iterator and the list from it on. -/
def compressLoop : List UInt32 → List UInt32 → Option (List UInt32)
  | pre, [] => some pre
  | pre, x :: xs =>
    match popLoop x pre with
    | none => none
    | some pre => compressLoop (pre ++ [x]) xs

/-- `update_xid_rep` on the list. There is no result if the list is empty where it must not be, or if an
iterator is used whose element was popped. -/
def updateList (l : List UInt32) (xid : UInt32) : Option (List UInt32) :=
  match l with
  | [] => none
  | f :: _ =>
    if xid ≤ f then some l
    else
      match insertXid xid l with
      | [] => none
      | y :: ys => compressLoop [y] ys

theorem popLoop_eq (x front : UInt32) (mid : List UInt32) :
    ∃ pre, popLoop x (front :: mid) = some pre ∧ pre ++ [x] = (popFront x front mid).xids := by
  induction mid generalizing front with
  | nil =>
      rw [popLoop, popFront]
      split
      · have hx : x + 1 ≠ x := by grind
        exact ⟨[], by rw [popLoop, if_neg hx], rfl⟩
      · exact ⟨[front], rfl, rfl⟩
  | cons y ys ih =>
      rw [popLoop, popFront]
      split
      · exact ih y
      · exact ⟨front :: y :: ys, rfl, rfl⟩

theorem compressLoop_eq (w : XidWindow) (l : List UInt32) :
    compressLoop w.xids l = some (compress w l).xids := by
  induction l generalizing w with
  | nil => rfl
  | cons x xs ih =>
      obtain ⟨pre, hp, hpre⟩ := popLoop_eq x w.front w.rest
      rw [xids, compressLoop, hp, compress, ← ih, ← hpre]

end XidWindow

/-- The list never becomes empty, and no iterator is used after its element is gone. -/
theorem updateList_eq (w : XidWindow) (xid : UInt32) :
    updateList w.xids xid = some (updateXidRep w xid).xids := by
  rw [xids, updateList, updateXidRep]
  split
  · rfl
  · rename_i hx
    have hins : insertXid xid (w.front :: w.rest) = w.front :: insertXid xid w.rest := by
      rw [insertXid, if_neg fun hlt => hx (UInt32.le_of_lt hlt)]
    rw [hins]
    exact compressLoop_eq ⟨w.front, []⟩ (insertXid xid w.rest)

/-! ## Any sequence of reports -/

namespace XidWindow

/-- The window has just what was reported above its front, and there is a gap right behind the front. -/
structure Exact (R : UInt32 → Prop) (w : XidWindow) : Prop extends Reports R w where
  above : ∀ x, R x → w.front < x → x ∈ w.rest
  gap : w.front + 1 ∉ w.rest

theorem exact_init : Exact (fun _ => False) ⟨0, []⟩ :=
  ⟨reports_init _, fun _ h => h.elim, List.not_mem_nil⟩

/-- Nothing above the new front is popped, and if there was no gap behind the front, there is one now. -/
theorem popFront_exact {x front : UInt32} {mid xs : List UInt32}
    (h : (front :: (mid ++ x :: xs)).Pairwise (· ≤ ·)) (hg : front + 1 ∉ mid) :
    (∀ y ∈ mid ++ [x], (popFront x front mid).front < y → y ∈ (popFront x front mid).rest) ∧
      (popFront x front mid).front + 1 ∉ (popFront x front mid).rest := by
  induction mid generalizing front with
  | nil =>
      unfold popFront
      split
      · refine ⟨fun y hy hlt => ?_, List.not_mem_nil⟩
        rw [List.mem_singleton.mp hy] at hlt
        exact absurd hlt (UInt32.lt_irrefl x)
      · rename_i he
        exact ⟨fun y hy _ => hy, by simpa using he⟩
  | cons z zs ih =>
      unfold popFront
      split
      · rename_i he
        have hs := List.pairwise_cons.mp h
        have hzx : z ≤ x := (List.pairwise_cons.mp hs.2).1 x (by simp)
        have hzf : front ≤ z := hs.1 z (by simp)
        have hne : front + 1 ≠ z := fun heq => hg (by simp [heq])
        -- The new front repeats the old one, or it is `x` itself.
        have hz : z = front := by grind
        have hgz : z + 1 ∉ zs := fun hm => hg (by rw [← hz]; simp [hm])
        obtain ⟨habove, hgap⟩ := ih hs.2 hgz
        refine ⟨fun y hy hlt => ?_, hgap⟩
        rcases List.mem_cons.mp hy with rfl | hy
        · exact absurd (UInt32.lt_of_le_of_lt (le_popFront hs.2) hlt) (UInt32.lt_irrefl y)
        · exact habove y hy hlt
      · rename_i he
        refine ⟨fun y hy _ => hy, fun hm => ?_⟩
        rcases List.mem_append.mp hm with hm | hm
        · exact hg hm
        · exact he (List.mem_singleton.mp hm)

theorem Exact.compress {R : UInt32 → Prop} {w : XidWindow} {l : List UInt32}
    (h : Reports R ⟨w.front, w.rest ++ l⟩) (ha : ∀ x, R x → w.front < x → x ∈ w.rest ++ l)
    (hg : w.front + 1 ∉ w.rest) : Exact R (compress w l) := by
  induction l generalizing w with
  | nil =>
      rw [List.append_nil] at h ha
      exact ⟨h, ha, hg⟩
  | cons x xs ih =>
      obtain ⟨habove, hgap⟩ := popFront_exact h.sorted hg
      refine ih h.popFront (fun y hy hlt => ?_) hgap
      have hm := ha y hy (UInt32.lt_of_le_of_lt (le_popFront h.sorted) hlt)
      rcases List.mem_append.mp hm with hm | hm
      · exact List.mem_append_left _ (habove y (List.mem_append_left _ hm) hlt)
      · rcases List.mem_cons.mp hm with rfl | hm
        · exact List.mem_append_left _ (habove y (by simp) hlt)
        · exact List.mem_append_right _ hm

end XidWindow

theorem updateXidRep_exact {R : UInt32 → Prop} {w : XidWindow} (xid : UInt32) (h : w.Exact R) :
    (updateXidRep w xid).Exact fun x => x = xid ∨ R x := by
  unfold updateXidRep
  split
  · rename_i hx
    refine ⟨h.toReports.mono fun _ => .inr, fun x hR hlt => ?_, h.gap⟩
    rcases hR with rfl | hR
    · exact absurd hlt (UInt32.not_lt.mpr hx)
    · exact h.above x hR hlt
  · rename_i hx
    refine XidWindow.Exact.compress (w := ⟨w.front, []⟩) (h.toReports.insert hx) (fun x hR hlt => ?_)
      List.not_mem_nil
    apply mem_insertXid.mpr
    rcases hR with rfl | hR
    · exact .inl rfl
    · exact .inr (h.above x hR hlt)

/-- The list after `update_xid_rep` was called with each of `xs` in turn. -/
def reportAll (xs : List UInt32) : Option (List UInt32) := xs.foldlM updateList [0]

theorem exact_of_reports (xs : List UInt32) :
    ∃ w : XidWindow, reportAll xs = some w.xids ∧ w.Exact (· ∈ xs) := by
  induction xs using List.reverseRecOn with
  | nil =>
      refine ⟨⟨0, []⟩, rfl, ?_⟩
      simpa using exact_init
  | append_singleton xs x ih =>
      obtain ⟨w, hw, he⟩ := ih
      refine ⟨updateXidRep w x, ?_, ?_⟩
      · rw [reportAll] at hw ⊢
        rw [List.foldlM_append, hw]
        simp [updateList_eq]
      · have hmem : (fun y => y ∈ xs ++ [x]) = fun y => y = x ∨ y ∈ xs := by
          funext y
          simp [or_comm]
        rw [hmem]
        exact updateXidRep_exact x he

theorem XidWindow.Exact.mem_xids {R : UInt32 → Prop} {w : XidWindow} (h : w.Exact R) (x : UInt32) :
    x ∈ w.xids ↔ x = w.front ∨ R x ∧ w.front < x := by
  rw [xids, List.mem_cons]
  constructor
  · rintro (rfl | hx)
    · exact .inl rfl
    · have hle := (List.pairwise_cons.mp h.sorted).1 x hx
      by_cases heq : x = w.front
      · exact .inl heq
      · exact .inr ⟨h.mem x hx, by grind⟩
  · rintro (rfl | ⟨hR, hlt⟩)
    · exact .inl rfl
    · exact .inr (h.above x hR hlt)

/-- The numbers up to which every xid was reported. -/
def reportedTo (xs : List UInt32) : Set Nat := {n | ∀ k, 1 ≤ k → k ≤ n → ∃ x ∈ xs, x.toNat = k}

theorem XidWindow.Exact.isGreatest {xs : List UInt32} {w : XidWindow} (h : w.Exact (· ∈ xs)) :
    IsGreatest (reportedTo xs) w.front.toNat := by
  constructor
  · intro k hk hle
    have hlt : k < 2 ^ 32 := Nat.lt_of_le_of_lt hle w.front.toNat_lt
    have hkn : (UInt32.ofNat k).toNat = k := UInt32.toNat_ofNat_of_lt' hlt
    refine ⟨UInt32.ofNat k, h.below _ ?_ ?_, hkn⟩
    · rw [UInt32.lt_iff_toNat_lt, hkn]
      exact hk
    · rw [UInt32.le_iff_toNat_le, hkn]
      exact hle
  · intro n hn
    by_contra hlt
    obtain ⟨x, hx, hxn⟩ := hn (w.front.toNat + 1) (Nat.succ_pos _) (Nat.not_le.mp hlt)
    have heq : x = w.front + 1 := by
      rw [← UInt32.toNat_inj, UInt32.toNat_add]
      have := x.toNat_lt
      simp
      omega
    have hfx : w.front < x := by
      rw [UInt32.lt_iff_toNat_lt]
      omega
    exact h.gap (heq ▸ h.above x hx hfx)

theorem reportedTo_mono {xs ys : List UInt32} (h : ∀ x ∈ xs, x ∈ ys) : reportedTo xs ⊆ reportedTo ys := by
  intro n hn k hk hle
  obtain ⟨x, hx, hxk⟩ := hn k hk hle
  exact ⟨x, h x hx, hxk⟩

/-- After any calls of `update_xid_rep`, in any order and with any repetitions, the list has at its front
the last xid up to which all were reported, and behind it those reported above a gap. -/
theorem update_xid_rep_spec (xs : List UInt32) : ∃ f l,
    reportAll xs = some (f :: l) ∧ (f :: l).Pairwise (· ≤ ·) ∧
    IsGreatest (reportedTo xs) f.toNat ∧ (∀ x, x ∈ f :: l ↔ x = f ∨ x ∈ xs ∧ f < x) ∧
    ∀ ys : List UInt32, (∀ x ∈ xs, x ∈ ys) → ∃ f' l', reportAll ys = some (f' :: l') ∧ f ≤ f' ∧
      ((∀ x ∈ ys, x ∈ xs) → f' = f ∧ ∀ x, x ∈ f' :: l' ↔ x ∈ f :: l) := by
  obtain ⟨w, hw, he⟩ := exact_of_reports xs
  refine ⟨w.front, w.rest, hw, he.sorted, he.isGreatest, he.mem_xids, fun ys hxs => ?_⟩
  obtain ⟨w', hw', he'⟩ := exact_of_reports ys
  have hle : w.front ≤ w'.front := UInt32.le_iff_toNat_le.mpr
    (he'.isGreatest.2 (reportedTo_mono hxs he.isGreatest.1))
  refine ⟨w'.front, w'.rest, hw', hle, fun hys => ?_⟩
  have hge : w'.front ≤ w.front := UInt32.le_iff_toNat_le.mpr
    (he.isGreatest.2 (reportedTo_mono hys he'.isGreatest.1))
  have hf : w'.front = w.front := UInt32.le_antisymm hge hle
  refine ⟨hf, fun x => ?_⟩
  have hxy : x ∈ ys ↔ x ∈ xs := ⟨hys x, hxs x⟩
  exact (he'.mem_xids x).trans (by rw [hf, hxy]; exact (he.mem_xids x).symm)

/-- Repeated and out of order. -/
example : reportAll [2, 1, 5, 5, 4, 1] = some [2, 4, 5, 5] := by decide

end StanDfs
