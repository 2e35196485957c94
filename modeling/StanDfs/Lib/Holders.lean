import Mathlib.Algebra.Order.BigOperators.Group.Finset

/-!
# Places that hold references

A place holds one thing or none, and some finitely many places are looked at. The number of those that
hold a thing changes with one place by what the place holds before and after.
-/

namespace Holders

section Total

variable {α γ M : Type*} [AddCommMonoid M]

/-- What the places of `H` hold together. -/
def total (H : Finset α) (g : γ → M) (f : α → γ) : M := ∑ a ∈ H, g (f a)

theorem total_eq_zero {H : Finset α} {g : γ → M} {f : α → γ} (h : ∀ a ∈ H, g (f a) = 0) : total H g f = 0 :=
  Finset.sum_eq_zero h

theorem exists_of_total_ne_zero {H : Finset α} {g : γ → M} {f : α → γ} (h : total H g f ≠ 0) :
    ∃ a ∈ H, g (f a) ≠ 0 :=
  Finset.exists_ne_zero_of_sum_ne_zero h

/-- One place changes. -/
theorem total_update [DecidableEq α] {H : Finset α} (g : γ → M) (f : α → γ) {a : α} (c : γ) (ha : a ∈ H) :
    total H g (Function.update f a c) + g (f a) = total H g f + g c := by
  have hrest : ∑ x ∈ H.erase a, g (Function.update f a c x) = ∑ x ∈ H.erase a, g (f x) :=
    Finset.sum_congr rfl fun x hx => by rw [Function.update_of_ne (Finset.ne_of_mem_erase hx)]
  rw [total, ← Finset.add_sum_erase H (fun x => g (Function.update f a c x)) ha, hrest,
    Function.update_self, total, ← Finset.add_sum_erase H (fun x => g (f x)) ha]
  ac_rfl

/-- One place changes, and holds as much as before. -/
theorem total_update_of_eq [DecidableEq α] (H : Finset α) {g : γ → M} {f : α → γ} {a : α} {c : γ}
    (hg : g c = g (f a)) : total H g (Function.update f a c) = total H g f := by
  refine Finset.sum_congr rfl fun x _ => ?_
  by_cases hx : x = a
  · rw [hx, Function.update_self, hg]
  · rw [Function.update_of_ne hx]

end Total

variable {α β : Type*} [DecidableEq β]

/-- One if the place holds `b`. -/
def one (o : Option β) (b : β) : Nat := if o = some b then 1 else 0

@[simp] theorem one_none (b : β) : one none b = 0 := rfl

theorem one_some (b b' : β) : one (some b) b' = if b = b' then 1 else 0 := by
  simp [one]

@[simp] theorem one_self (b : β) : one (some b) b = 1 := if_pos rfl

theorem count_cons (b b' : β) (l : List β) : (b :: l).count b' = l.count b' + one (some b) b' := by
  rw [List.count_cons, one_some]
  simp only [beq_iff_eq]

/-- How many places of `H` hold `b`. -/
def count (H : Finset α) (f : α → Option β) (b : β) : Nat := ∑ a ∈ H, one (f a) b

theorem one_le_count {H : Finset α} {f : α → Option β} {a : α} (b : β) (ha : a ∈ H) :
    one (f a) b ≤ count H f b :=
  Finset.single_le_sum (f := fun a => one (f a) b) (fun _ _ => Nat.zero_le _) ha

theorem count_eq_zero {H : Finset α} {f : α → Option β} {b : β} :
    count H f b = 0 ↔ ∀ a ∈ H, f a ≠ some b := by
  simp [count, one]

/-! ## Lists of what is let go -/

theorem count_filterMap_cons (f : α → Option β) (a : α) (l : List α) (b : β) :
    ((a :: l).filterMap f).count b = (l.filterMap f).count b + one (f a) b := by
  cases h : f a with
  | none => rw [List.filterMap_cons_none h, one_none, Nat.add_zero]
  | some b₀ => rw [List.filterMap_cons_some h, count_cons]

theorem count_filterMap_zero {f : α → Option β} {l : List α} :
    (∀ b, (l.filterMap f).count b = 0) ↔ ∀ a ∈ l, f a = none := by
  simp only [List.count_eq_zero, List.mem_filterMap, not_exists, not_and]
  constructor
  · intro h a ha
    by_contra hf
    obtain ⟨b, hb⟩ := Option.ne_none_iff_exists'.mp hf
    exact h b a ha hb
  · intro h b a ha hb
    rw [h a ha] at hb
    cases hb

/-! ## One place changes -/

variable [DecidableEq α]

/-- A new place that holds nothing. -/
theorem count_insert {H : Finset α} {f : α → Option β} {a : α} (b : β) (hf : f a = none) :
    count (insert a H) f b = count H f b := by
  by_cases ha : a ∈ H
  · rw [Finset.insert_eq_of_mem ha]
  · rw [count, Finset.sum_insert ha, hf, one_none, Nat.zero_add, count]

/-- One place changes what it holds. -/
theorem count_update {H : Finset α} (f : α → Option β) {a : α} (o : Option β) (b : β) (ha : a ∈ H) :
    count H (Function.update f a o) b + one (f a) b = count H f b + one o b :=
  total_update (fun o => one o b) f o ha

end Holders
