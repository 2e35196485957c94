import StanDfs.Lib.MapIterator

/-!
# The collection of dead connections

`process_accept` goes through `conns_` and erases what nobody else needs any more. The iterator of the
element that it has just erased is the one it goes on with.
-/

namespace StanDfs

/-- A `tcpsconn` with its connections `χ`. `dead` and `refno` are what `isdead` and `ref` return when the
loop comes to a connection; `deleted` has the connections whose last reference was given back. -/
structure TcpsConn (χ : Type*) where
  conns : SortedMap Nat χ
  dead : χ → Bool
  refno : χ → Int
  channo : χ → Nat
  deleted : List χ

/-- How the loop ends. -/
inductive SweepResult (χ : Type*)
  | finished (s : TcpsConn χ)
  /-- An iterator is used whose element is gone. -/
  | invalidated
  | running

namespace TcpsConn

variable {χ : Type*}

/-- Dead, and with a reference count of 1. -/
def Garbage (s : TcpsConn χ) (c : χ) : Prop := s.dead c = true ∧ s.refno c = 1

instance (s : TcpsConn χ) (c : χ) : Decidable (s.Garbage c) := inferInstanceAs (Decidable (_ ∧ _))

/-- The new connection is put in `conns_`. -/
def enlist (s : TcpsConn χ) (ch : χ) : TcpsConn χ := { s with conns := s.conns.assign (s.channo ch) ch }

variable [DecidableEq χ]

/-- `connection::decref` -/
def decref (s : TcpsConn χ) (c : χ) : TcpsConn χ :=
  { s with
    refno := Function.update s.refno c (s.refno c - 1)
    deleted := if s.refno c - 1 = 0 ∧ s.dead c = true then s.deleted ++ [c] else s.deleted }

/-- The body of the loop at an element. -/
def collect (s : TcpsConn χ) (x : Nat × χ) : TcpsConn χ :=
  if s.Garbage x.2 then { s.decref x.2 with conns := s.conns.erase x.1 } else s

/-- The loop from an iterator on, for so many rounds. -/
def sweep : Nat → TcpsConn χ → SortedMap.Iter Nat → SweepResult χ
  | 0, _, _ => .running
  | _ + 1, s, .stop => .finished s
  | n + 1, s, .elem fd =>
    match s.conns.get (.elem fd) with
    | none => .invalidated
    | some x =>
      match (s.collect x).conns.advance (.elem fd) with
      | none => .invalidated
      | some i => sweep n (s.collect x) i

/-- `process_accept` after `accept` gave the connection `ch`, if its loop ends well. There is one look more
at the iterator than there are elements. -/
def processAccept (s : TcpsConn χ) (ch : χ) : Option (TcpsConn χ) :=
  match sweep (s.conns.entries.length + 1) s s.conns.start with
  | .finished s => some (s.enlist ch)
  | .invalidated => none
  | .running => none

/-- What is promised: the loop ends, exactly the garbage has lost its reference and is deleted and erased,
and the new connection is there besides all others. -/
def Collected (s : TcpsConn χ) (ch : χ) : Prop :=
  ∃ s', s.processAccept ch = some s' ∧
    (∀ c, s'.refno c = if (∃ x ∈ s.conns.entries, x.2 = c) ∧ s.Garbage c then s.refno c - 1 else s.refno c) ∧
    (∀ c, c ∈ s'.deleted ↔ c ∈ s.deleted ∨ (∃ x ∈ s.conns.entries, x.2 = c) ∧ s.Garbage c) ∧
    ∀ x, x ∈ s'.conns.entries ↔ x = (s.channo ch, ch) ∨ x ∈ s.conns.entries ∧ ¬ s.Garbage x.2

variable {s : TcpsConn χ} {ch : χ} {n : Nat} {p l : List (Nat × χ)}

/-! ## The loop -/

theorem sweep_clean (h : s.conns.entries = p ++ l) (hn : l.length < n)
    (hno : ∀ x ∈ l, ¬ s.Garbage x.2) : sweep n s (SortedMap.Iter.first l) = .finished s := by
  induction l generalizing p n with
  | nil =>
      obtain ⟨n, rfl⟩ := Nat.exists_eq_add_of_lt hn
      rfl
  | cons x l ih =>
      rw [List.forall_mem_cons] at hno
      obtain ⟨k, rfl⟩ : ∃ k, n = k + 1 := ⟨n - 1, by omega⟩
      have hkeep : s.collect x = s := if_neg hno.1
      rw [SortedMap.Iter.first, sweep, SortedMap.get_elem h]
      simp only [hkeep, SortedMap.advance_elem h]
      exact ih (p := p ++ [x]) (by simp [h]) (by simpa using hn) hno.2

/-- At the first garbage, the loop has erased what its iterator is at. -/
theorem sweep_garbage (h : s.conns.entries = p ++ l) (hn : l.length < n)
    (hex : ∃ x ∈ l, s.Garbage x.2) : sweep n s (SortedMap.Iter.first l) = .invalidated := by
  induction l generalizing p n with
  | nil => simp at hex
  | cons x l ih =>
      obtain ⟨k, rfl⟩ : ∃ k, n = k + 1 := ⟨n - 1, by omega⟩
      rw [SortedMap.Iter.first, sweep, SortedMap.get_elem h]
      by_cases hx : s.Garbage x.2
      · have hdrop : s.collect x = { s.decref x.2 with conns := s.conns.erase x.1 } := if_pos hx
        simp only [hdrop, SortedMap.advance_erase]
      · have hkeep : s.collect x = s := if_neg hx
        simp only [hkeep, SortedMap.advance_elem h]
        have hex' : ∃ y ∈ l, s.Garbage y.2 := by simpa [hx] using hex
        exact ih (p := p ++ [x]) (by simp [h]) (by simpa using hn) hex'

theorem processAccept_clean (hno : ∀ x ∈ s.conns.entries, ¬ s.Garbage x.2) :
    s.processAccept ch = some (s.enlist ch) := by
  have h := sweep_clean (s := s) (p := []) rfl (Nat.lt_succ_self _) hno
  unfold processAccept SortedMap.start
  rw [h]

theorem processAccept_garbage (hex : ∃ x ∈ s.conns.entries, s.Garbage x.2) :
    s.processAccept ch = none := by
  have h := sweep_garbage (s := s) (p := []) rfl (Nat.lt_succ_self _) hex
  unfold processAccept SortedMap.start
  rw [h]

end TcpsConn

open TcpsConn

/-- For any connections under their descriptors, none of which the new one was given: the collection is as
promised exactly when there is nothing to collect. -/
theorem accept_collects_iff {χ : Type*} [DecidableEq χ] (s : TcpsConn χ) (ch : χ)
    (hk : ∀ x ∈ s.conns.entries, x.1 = s.channo x.2)
    (hfd : ∀ x ∈ s.conns.entries, s.channo x.2 ≠ s.channo ch) :
    s.Collected ch ↔ ∀ x ∈ s.conns.entries, ¬ s.Garbage x.2 := by
  constructor
  · rintro ⟨s', hs', _⟩ x hx hg
    rw [processAccept_garbage ⟨x, hx, hg⟩] at hs'
    cases hs'
  · intro hno
    have hnone : ∀ c, ¬ ((∃ x ∈ s.conns.entries, x.2 = c) ∧ s.Garbage c) := by
      rintro c ⟨⟨x, hx, rfl⟩, hg⟩
      exact hno x hx hg
    have hnew : ∀ x ∈ s.conns.entries, x.1 ≠ s.channo ch := by
      intro x hx
      rw [hk x hx]
      exact hfd x hx
    refine ⟨s.enlist ch, processAccept_clean hno, ?_, ?_, ?_⟩
    · intro c
      rw [if_neg (hnone c)]
      rfl
    · intro c
      rw [or_iff_left (hnone c)]
      rfl
    · intro x
      rw [enlist, SortedMap.mem_assign hnew]
      apply or_congr_right
      exact (and_iff_left_of_imp (hno x)).symm

/-- Two live connections, and the third is accepted. -/
theorem accept_collects_iff_live :
    (⟨(SortedMap.empty.assign 5 0).assign 6 1, fun _ => false, fun _ => 1, fun c => c + 5, []⟩ :
      TcpsConn Nat).Collected 2 :=
  (accept_collects_iff _ 2 (by decide) (by decide)).mpr (by decide)

/-- One connection, and it is dead. -/
theorem accept_invalidates :
    ¬ (⟨SortedMap.empty.assign 5 0, fun _ => true, fun _ => 1, fun c => c + 5, []⟩ :
      TcpsConn Nat).Collected 1 := by
  rintro ⟨s', hs', _⟩
  rw [processAccept_garbage ⟨(5, 0), by decide, by decide⟩] at hs'
  cases hs'

end StanDfs
