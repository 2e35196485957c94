import Mathlib.Data.List.Lex
import Mathlib.Data.Prod.Lex

/-!
# Maps as sorted lists

A map is the list of its entries in the order of their keys, as an iteration over an ordered container
gives them.
-/

/-- A map from an ordered type. -/
@[ext]
structure SortedMap (α β : Type*) [LinearOrder α] where
  entries : List (α × β)
  sorted : entries.Pairwise fun x y => x.1 < y.1

namespace SortedMap

variable {α β : Type*} [LinearOrder α]

def empty : SortedMap α β := ⟨[], List.Pairwise.nil⟩

/-- The entries after the assignment of a value to a key. -/
def assignEntries (a : α) (b : β) : List (α × β) → List (α × β)
  | [] => [(a, b)]
  | (a', b') :: l =>
    if a' < a then (a', b') :: assignEntries a b l
    else if a < a' then (a, b) :: (a', b') :: l
    else (a, b) :: l

theorem key_of_mem_assignEntries {a : α} {b : β} {l : List (α × β)} {x : α × β}
    (h : x ∈ assignEntries a b l) : x = (a, b) ∨ x ∈ l := by
  induction l with
  | nil => exact .inl (List.mem_singleton.mp h)
  | cons y l ih =>
      unfold assignEntries at h
      split at h
      · rcases List.mem_cons.mp h with rfl | h
        · exact .inr List.mem_cons_self
        · exact (ih h).imp_right (List.mem_cons_of_mem _)
      · split at h
        · exact (List.mem_cons.mp h).imp_right id
        · exact (List.mem_cons.mp h).imp_right (List.mem_cons_of_mem _)

theorem sorted_assignEntries (a : α) (b : β) {l : List (α × β)}
    (h : l.Pairwise fun x y => x.1 < y.1) : (assignEntries a b l).Pairwise fun x y => x.1 < y.1 := by
  induction l with
  | nil => exact List.pairwise_singleton _ _
  | cons y l ih =>
      obtain ⟨hy, hl⟩ := List.pairwise_cons.mp h
      unfold assignEntries
      split
      · rename_i hlt
        refine List.pairwise_cons.mpr ⟨fun x hx => ?_, ih hl⟩
        rcases key_of_mem_assignEntries hx with rfl | hx
        · exact hlt
        · exact hy x hx
      · rename_i hge
        split
        · rename_i hlt
          refine List.pairwise_cons.mpr ⟨fun x hx => ?_, h⟩
          rcases List.mem_cons.mp hx with rfl | hx
          · exact hlt
          · exact lt_trans hlt (hy x hx)
        · rename_i hle
          have heq : y.1 = a := le_antisymm (not_lt.mp hle) (not_lt.mp hge)
          exact List.pairwise_cons.mpr ⟨fun x hx => heq ▸ hy x hx, hl⟩

/-- `m[a] = b` -/
def assign (m : SortedMap α β) (a : α) (b : β) : SortedMap α β :=
  ⟨assignEntries a b m.entries, sorted_assignEntries a b m.sorted⟩

theorem entries_assign_last {m : SortedMap α β} {a : α} {b : β} (h : ∀ x ∈ m.entries, x.1 < a) :
    (m.assign a b).entries = m.entries ++ [(a, b)] := by
  show assignEntries a b m.entries = m.entries ++ [(a, b)]
  generalize m.entries = l at h
  induction l with
  | nil => rfl
  | cons y l ih =>
      rw [assignEntries, if_pos (h y List.mem_cons_self),
        ih fun x hx => h x (List.mem_cons_of_mem _ hx), List.cons_append]

/-- Assigning entries in the order of their keys, above those there are, appends them. -/
theorem entries_foldl_assign {l : List (α × β)} {m : SortedMap α β}
    (h : (m.entries ++ l).Pairwise fun x y => x.1 < y.1) :
    (l.foldl (fun m x => m.assign x.1 x.2) m).entries = m.entries ++ l := by
  induction l generalizing m with
  | nil => exact (List.append_nil _).symm
  | cons y l ih =>
      have hy : ∀ x ∈ m.entries, x.1 < y.1 := fun x hx =>
        (List.pairwise_append.mp h).2.2 x hx y List.mem_cons_self
      have he := entries_assign_last (b := y.2) hy
      have hl : (m.assign y.1 y.2).entries ++ l = m.entries ++ y :: l := by
        rw [he, List.append_assoc, List.singleton_append]
      rw [List.foldl_cons, ih (by rw [hl]; exact h), hl]

/-- A map is made up again by assigning its entries. -/
theorem foldl_assign (m : SortedMap α β) :
    m.entries.foldl (fun m x => m.assign x.1 x.2) empty = m :=
  SortedMap.ext (entries_foldl_assign (m := empty) m.sorted)

/-- Maps compare by their entries, lexicographically. -/
instance [LinearOrder β] : LinearOrder (SortedMap α β) :=
  LinearOrder.lift' (fun m => m.entries.map toLex) fun _ _ h =>
    SortedMap.ext (List.map_injective_iff.mpr toLex.injective h)

end SortedMap
