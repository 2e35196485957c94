import Mathlib.Data.List.Basic
import Mathlib.Data.List.TakeDrop

/-!
# Streams in segments

A stream comes in non-empty segments. `advance q` is what is left of them after `q` elements have
been taken, the first segment perhaps in part.
-/

namespace Segments

variable {α : Type*}

/-- The segments after the first `q` elements. -/
def advance : Nat → List (List α) → List (List α)
  | _, [] => []
  | q, s :: segs => if s.length ≤ q then advance (q - s.length) segs else s.drop q :: segs

theorem advance_zero {segs : List (List α)} (h : ∀ s ∈ segs, s ≠ []) : advance 0 segs = segs := by
  cases segs with
  | nil => rfl
  | cons s segs =>
      have hs : 0 < s.length := List.length_pos_iff.mpr (h s (by simp))
      rw [advance, if_neg (by omega), List.drop_zero]

theorem flatten_advance (q : Nat) (segs : List (List α)) :
    (advance q segs).flatten = segs.flatten.drop q := by
  induction segs generalizing q with
  | nil => simp [advance]
  | cons s segs ih =>
      rw [advance, List.flatten_cons, List.drop_append]
      split
      · rename_i h
        rw [ih, List.drop_eq_nil_of_le h, List.nil_append]
      · rename_i h
        rw [List.flatten_cons, show q - s.length = 0 by omega, List.drop_zero]

theorem advance_ne_nil {q : Nat} {segs : List (List α)} (h : ∀ s ∈ segs, s ≠ []) :
    ∀ s ∈ advance q segs, s ≠ [] := by
  induction segs generalizing q with
  | nil => simp [advance]
  | cons s segs ih =>
      unfold advance
      split
      · exact ih fun t ht => h t (by simp [ht])
      · rename_i hlt
        intro t ht
        rcases List.mem_cons.mp ht with rfl | ht
        · simpa using Nat.lt_of_not_le hlt
        · exact h t (by simp [ht])

theorem advance_append {q : Nat} {segs new : List (List α)} (hq : q ≤ segs.flatten.length)
    (hn : ∀ s ∈ new, s ≠ []) : advance q (segs ++ new) = advance q segs ++ new := by
  induction segs generalizing q with
  | nil =>
      obtain rfl : q = 0 := by simpa using hq
      exact advance_zero hn
  | cons s segs ih =>
      simp only [List.flatten_cons, List.length_append] at hq
      rw [List.cons_append, advance, advance]
      split
      · exact ih (by omega)
      · rfl

/-- Taking more takes it from the first segment left. -/
theorem advance_add {q n : Nat} {segs rest : List (List α)} {s : List α}
    (h : ∀ t ∈ segs, t ≠ []) (hs : advance q segs = s :: rest) (hn : n ≤ s.length) :
    advance (q + n) segs = if n < s.length then s.drop n :: rest else rest := by
  induction segs generalizing q with
  | nil => simp [advance] at hs
  | cons t segs ih =>
      have ht : ∀ u ∈ segs, u ≠ [] := fun u hu => h u (by simp [hu])
      unfold advance at hs
      split at hs
      · rename_i hle
        rw [advance, if_pos (by omega), show q + n - t.length = q - t.length + n by omega]
        exact ih ht hs
      · rename_i hlt
        simp only [List.cons.injEq] at hs
        obtain ⟨rfl, rfl⟩ := hs
        rw [List.length_drop] at hn ⊢
        rw [advance, List.drop_drop]
        split
        · rename_i hle
          rw [if_neg (by omega), show q + n - t.length = 0 by omega, advance_zero ht]
        · rw [if_pos (by omega)]

theorem lt_of_advance {q : Nat} {segs rest : List (List α)} {s : List α}
    (h : ∀ t ∈ segs, t ≠ []) (hs : advance q segs = s :: rest) : q < segs.flatten.length := by
  by_contra hq
  have hf := flatten_advance q segs
  rw [List.drop_eq_nil_of_le (by omega), hs, List.flatten_cons] at hf
  exact advance_ne_nil (q := q) h s (by simp [hs]) (List.append_eq_nil_iff.mp hf).1

end Segments
