import Mathlib.Data.List.Infix

/-!
# Prefix codes

Words of a code in which no word is a proper prefix of another can be concatenated and still be told
apart. A stream that starts with some such words starts with them in only one way.
-/

namespace PrefixCode

variable {α : Type*}

/-- No word that satisfies `P` is empty or a proper prefix of another. -/
structure Code (P : List α → Prop) : Prop where
  ne_nil : ∀ p, P p → p ≠ []
  eq_of_prefix : ∀ p q, P p → P q → p <+: q → p = q

variable {P : List α → Prop}

/-- Two words at the start of one stream are the same. -/
theorem Code.eq_of_common (hP : Code P) {p q s : List α} (hp : P p) (hq : P q) (h₁ : p <+: s)
    (h₂ : q <+: s) : p = q := by
  rcases List.prefix_or_prefix_of_prefix h₁ h₂ with h | h
  · exact hP.eq_of_prefix p q hp hq h
  · exact (hP.eq_of_prefix q p hq hp h).symm

/-- A stream that is a prefix of another consists of the first words of that other. -/
theorem Code.prefix_of_flatten (hP : Code P) {l₁ l₂ : List (List α)} (h₁ : ∀ p ∈ l₁, P p)
    (h₂ : ∀ p ∈ l₂, P p) (h : l₁.flatten <+: l₂.flatten) : l₁ <+: l₂ := by
  induction l₁ generalizing l₂ with
  | nil => exact List.nil_prefix
  | cons p t₁ ih =>
      cases l₂ with
      | nil =>
          have hp : p ++ t₁.flatten = [] := List.prefix_nil.mp h
          exact absurd (List.append_eq_nil_iff.mp hp).1 (hP.ne_nil p (h₁ p (by simp)))
      | cons q t₂ =>
          simp only [List.flatten_cons] at h
          have hpq : p = q := hP.eq_of_common (h₁ p (by simp)) (h₂ q (by simp))
            ((List.prefix_append _ _).trans h) (List.prefix_append _ _)
          subst hpq
          have ht := ih (fun r hr => h₁ r (by simp [hr])) (fun r hr => h₂ r (by simp [hr]))
            ((List.prefix_append_right_inj _).mp h)
          exact (List.prefix_cons_inj _).mpr ht

end PrefixCode
