import Mathlib.Data.List.Basic
import Mathlib.Data.List.TakeDrop

/-!
# Copying bytes into an allocation

An allocation is the list of its cells. `put b i p` is what `memcpy(b + i, p, n)` leaves in `b`, for
a copy that stays inside the allocation.
-/

namespace Memory

variable {α : Type*}

/-- `b` after the cells from `i` on were overwritten by `p`. -/
def put (b : List α) (i : Nat) (p : List α) : List α :=
  b.take i ++ p ++ b.drop (i + p.length)

@[simp] theorem put_nil (b : List α) (i : Nat) : put b i [] = b := by
  simp [put]

theorem length_put {b : List α} {i : Nat} {p : List α} (h : i + p.length ≤ b.length) :
    (put b i p).length = b.length := by
  simp only [put, List.length_append, List.length_take, List.length_drop]
  omega

/-- Two copies, the second right after the first, are one. -/
theorem put_put {b : List α} {i : Nat} {p q : List α} (h : i + p.length ≤ b.length) :
    put (put b i p) (i + p.length) q = put b i (p ++ q) := by
  have ht : (b.take i ++ p).length = i + p.length := by
    simp only [List.length_append, List.length_take]
    omega
  simp only [put]
  rw [List.take_append_of_le_length (Nat.le_of_eq ht.symm), List.take_of_length_le (Nat.le_of_eq ht),
    List.drop_append, ht, List.drop_eq_nil_of_le (by omega), List.drop_drop, List.length_append]
  simp only [List.nil_append, List.append_assoc]
  congr 4
  omega

theorem set_eq_put {b : List α} {i : Nat} (x : α) (h : i < b.length) : b.set i x = put b i [x] := by
  rw [List.set_eq_take_append_cons_drop, if_pos h]
  simp [put]

theorem take_put_end {b : List α} {i : Nat} {p : List α} (h : i ≤ b.length) :
    (put b i p).take (i + p.length) = b.take i ++ p := by
  have ht : (b.take i ++ p).length = i + p.length := by
    simp only [List.length_append, List.length_take]
    omega
  rw [put, List.take_append_of_le_length (Nat.le_of_eq ht.symm), List.take_of_length_le (Nat.le_of_eq ht)]

theorem take_put_of_le {b : List α} {i n : Nat} {p : List α} (h : n ≤ i) (hb : i ≤ b.length) :
    (put b i p).take n = b.take n := by
  rw [put, List.append_assoc, List.take_append_of_le_length (by simp; omega), List.take_take,
    Nat.min_eq_left h]

theorem drop_put {b : List α} {i n : Nat} {p : List α} (h : i + p.length ≤ n)
    (hb : i + p.length ≤ b.length) : (put b i p).drop n = b.drop n := by
  have ht : (b.take i ++ p).length = i + p.length := by
    simp only [List.length_append, List.length_take]
    omega
  rw [put, List.drop_append, ht, List.drop_eq_nil_of_le (by omega), List.drop_drop, List.nil_append]
  congr 1
  omega

/-- Overwriting cells below `n` does not change what is dropped before `n` is taken. -/
theorem take_put {b : List α} {i n : Nat} {p : List α} (h : i + p.length ≤ n) (hn : n ≤ b.length) :
    (put b i p).take n = put (b.take n) i p := by
  have h' : i + p.length ≤ (b.take n).length := by
    simp only [List.length_take]
    omega
  have hsplit : b = b.take n ++ b.drop n := (List.take_append_drop n b).symm
  have hd : (b.take n).drop (i + p.length) ++ b.drop n = b.drop (i + p.length) := by
    conv_rhs => rw [hsplit, List.drop_append_of_le_length h']
  rw [put, put, ← hd, List.take_take, Nat.min_eq_left (by omega), ← List.append_assoc,
    List.take_append_of_le_length, List.take_of_length_le]
  all_goals
    simp only [List.length_append, List.length_take, List.length_drop]
    omega

end Memory
