import StanDfs.Lib.SortedMap

/-!
# Iterators of a map

An iterator is at the element with some key, or at the end. It can be used as long as its element is in the
map: there is no result once the element was erased.
-/

namespace SortedMap

/-- An iterator of a map with keys `α`. -/
inductive Iter (α : Type*)
  | elem (a : α)
  | stop
  deriving DecidableEq

variable {α β : Type*}

/-- The iterator at the first of these elements. -/
def Iter.first : List (α × β) → Iter α
  | [] => .stop
  | x :: _ => .elem x.1

variable [LinearOrder α]

def start (m : SortedMap α β) : Iter α := Iter.first m.entries

/-- `*it` -/
def get (m : SortedMap α β) : Iter α → Option (α × β)
  | .elem a => m.entries.find? fun x => x.1 = a
  | .stop => none

/-- `++it` -/
def advance (m : SortedMap α β) : Iter α → Option (Iter α)
  | .elem a => if ∃ x ∈ m.entries, x.1 = a then some (Iter.first (m.entries.filter fun x => a < x.1)) else none
  | .stop => none

/-- `m.erase(it)` for an iterator at the key. -/
def erase (m : SortedMap α β) (a : α) : SortedMap α β :=
  ⟨m.entries.filter fun x => x.1 ≠ a, m.sorted.filter _⟩

variable {m : SortedMap α β} {pre l : List (α × β)} {x : α × β}

/-- The keys around an element. -/
theorem sorted_split (h : m.entries = pre ++ x :: l) :
    (∀ y ∈ pre, y.1 < x.1) ∧ ∀ y ∈ l, x.1 < y.1 := by
  have hs := m.sorted
  rw [h, List.pairwise_append, List.pairwise_cons] at hs
  exact ⟨fun y hy => hs.2.2 y hy x List.mem_cons_self, hs.2.1.1⟩

theorem get_elem (h : m.entries = pre ++ x :: l) : m.get (.elem x.1) = some x := by
  obtain ⟨hpre, _⟩ := sorted_split h
  have hnone : pre.find? (fun y => y.1 = x.1) = none := by
    rw [List.find?_eq_none]
    intro y hy
    simpa using (hpre y hy).ne
  rw [get, h, List.find?_append, hnone]
  simp

/-- The element behind comes next. -/
theorem advance_elem (h : m.entries = pre ++ x :: l) : m.advance (.elem x.1) = some (Iter.first l) := by
  obtain ⟨hpre, hl⟩ := sorted_split h
  have hmem : ∃ y ∈ m.entries, y.1 = x.1 := ⟨x, by simp [h], rfl⟩
  have hbefore : pre.filter (fun y => x.1 < y.1) = [] := by
    rw [List.filter_eq_nil_iff]
    intro y hy
    simpa using (hpre y hy).le
  have hbehind : l.filter (fun y => x.1 < y.1) = l := by
    rw [List.filter_eq_self]
    intro y hy
    simpa using hl y hy
  have hfilter : m.entries.filter (fun y => x.1 < y.1) = l := by
    rw [h, List.filter_append, List.filter_cons_of_neg (by simp), hbefore, hbehind]
    rfl
  rw [advance, if_pos hmem, hfilter]

/-- The iterator of an erased element cannot be advanced. -/
theorem advance_erase (m : SortedMap α β) (a : α) : (m.erase a).advance (.elem a) = none := by
  unfold advance erase
  simp

theorem mem_assign {a : α} {b : β} (ha : ∀ y ∈ m.entries, y.1 ≠ a) :
    x ∈ (m.assign a b).entries ↔ x = (a, b) ∨ x ∈ m.entries := by
  unfold assign
  simp only
  generalize m.entries = l at ha
  induction l with
  | nil => simp [assignEntries]
  | cons y l ih =>
      rw [List.forall_mem_cons] at ha
      unfold assignEntries
      split_ifs with hlt hgt
      · rw [List.mem_cons, ih ha.2, List.mem_cons]
        exact or_left_comm
      · simp
      · exact absurd (le_antisymm (not_lt.mp hgt) (not_lt.mp hlt)) ha.1

end SortedMap
