import Mathlib.Data.Set.Insert
import StanDfs.Lib.Lts

/-!
# Calls that are executed at most once

What callers may rely on. A call is made, it is executed at most once and only after it was made, and its
caller is answered at most once: with the result of the one execution, or with none at all.
-/

open Classical

/-- Calls `α` with results `ρ`. An answer without a result says nothing about the execution. -/
structure OnceCalls (α ρ : Type*) where
  made : Set α
  result : α → Option ρ
  answer : α → Option (Option ρ)

namespace OnceCalls

variable {α ρ : Type*}

inductive Act (α ρ : Type*)
  | make (a : α)
  | run (a : α) (r : ρ)
  | answer (a : α) (o : Option ρ)
  deriving DecidableEq

/-- The call that an action is about. -/
def Act.call : Act α ρ → α
  | .make a => a
  | .run a _ => a
  | .answer a _ => a

def init : OnceCalls α ρ := ⟨∅, fun _ => none, fun _ => none⟩

noncomputable def next (t : OnceCalls α ρ) : Act α ρ → OnceCalls α ρ
  | .make a => { t with made := insert a t.made }
  | .run a r => { t with result := Function.update t.result a (some r) }
  | .answer a o => { t with answer := Function.update t.answer a (some o) }

def guard (t : OnceCalls α ρ) : Act α ρ → Prop
  | .make a => a ∉ t.made
  | .run a _ => a ∈ t.made ∧ t.result a = none
  | .answer a o => a ∈ t.made ∧ t.answer a = none ∧ ∀ r, o = some r → t.result a = some r

noncomputable def lts : Lts (OnceCalls α ρ) (Act α ρ) where
  init t := t = init
  guard := guard
  next := next

@[simp] theorem result_run_self (t : OnceCalls α ρ) (a : α) (r : ρ) :
    (t.next (.run a r)).result a = some r := by simp [next]

theorem result_run_of_ne (t : OnceCalls α ρ) {a a' : α} (r : ρ) (h : a' ≠ a) :
    (t.next (.run a r)).result a' = t.result a' := Function.update_of_ne h ..

@[simp] theorem answer_answer_self (t : OnceCalls α ρ) (a : α) (o : Option ρ) :
    (t.next (.answer a o)).answer a = some o := by simp [next]

theorem answer_answer_of_ne (t : OnceCalls α ρ) {a a' : α} (o : Option ρ) (h : a' ≠ a) :
    (t.next (.answer a o)).answer a' = t.answer a' := Function.update_of_ne h ..

/-- All that may have happened to one call, newest first: nothing, or it was made, and then it was
executed, or answered, or both. -/
inductive Life (a : α) : List (Act α ρ) → Prop
  | unmade : Life a []
  | made : Life a [.make a]
  | executed (r : ρ) : Life a [.run a r, .make a]
  | abandoned : Life a [.answer a none, .make a]
  | answered (r : ρ) : Life a [.answer a (some r), .run a r, .make a]
  | unheard (r : ρ) : Life a [.answer a none, .run a r, .make a]
  | late (r : ρ) : Life a [.run a r, .answer a none, .make a]

/-- The state keeps of a call what happened to it. -/
structure Tells (t : OnceCalls α ρ) (a : α) (l : List (Act α ρ)) : Prop where
  life : Life a l
  made : a ∈ t.made ↔ .make a ∈ l
  result : ∀ r, t.result a = some r ↔ .run a r ∈ l
  answer : ∀ o, t.answer a = some o ↔ .answer a o ∈ l

theorem Tells.other {t : OnceCalls α ρ} {a : α} {l : List (Act α ρ)} {b : Act α ρ} (h : t.Tells a l)
    (hne : a ≠ b.call) : (t.next b).Tells a l := by
  cases b with
  | make a' =>
      have hm : a ∈ (t.next (.make a')).made ↔ a ∈ t.made := or_iff_right hne
      exact { h with made := hm.trans h.made }
  | run a' r =>
      exact { h with result := fun r' => by rw [result_run_of_ne t r (show a ≠ a' from hne)]; exact h.result r' }
  | answer a' o =>
      exact { h with answer := fun o' => by rw [answer_answer_of_ne t o (show a ≠ a' from hne)]; exact h.answer o' }

theorem Tells.make {t : OnceCalls α ρ} {a : α} {l : List (Act α ρ)} (h : t.Tells a l)
    (hg : a ∉ t.made) : (t.next (.make a)).Tells a (.make a :: l) := by
  rw [h.made] at hg
  have hl : l = [] := by
    cases h.life with
    | unmade => rfl
    | _ => simp at hg
  subst hl
  exact
    { life := .made
      made := iff_of_true (Set.mem_insert _ _) List.mem_cons_self
      result := fun r => (h.result r).trans (by simp)
      answer := fun o => (h.answer o).trans (by simp) }

theorem Tells.run {t : OnceCalls α ρ} {a : α} {r : ρ} {l : List (Act α ρ)} (h : t.Tells a l)
    (hm : a ∈ t.made) (hr : t.result a = none) : (t.next (.run a r)).Tells a (.run a r :: l) := by
  have hno : ∀ r', .run a r' ∉ l := fun r' hr' => by
    rw [← h.result, hr] at hr'
    cases hr'
  rw [h.made] at hm
  have hlife : Life a (.run a r :: l) := by
    cases h.life with
    | unmade => cases hm
    | made => exact .executed r
    | abandoned => exact .late r
    | executed r' => exact absurd List.mem_cons_self (hno r')
    | answered r' => exact absurd (by simp) (hno r')
    | unheard r' => exact absurd (by simp) (hno r')
    | late r' => exact absurd List.mem_cons_self (hno r')
  exact
    { life := hlife
      made := iff_of_true (h.made.mpr hm) (List.mem_cons_of_mem _ hm)
      result := fun r' => by simp [hno, eq_comm]
      answer := fun o => (h.answer o).trans (by simp) }

theorem Tells.answered {t : OnceCalls α ρ} {a : α} {o : Option ρ} {l : List (Act α ρ)} (h : t.Tells a l)
    (hm : a ∈ t.made) (ha : t.answer a = none) (ho : ∀ r, o = some r → t.result a = some r) :
    (t.next (.answer a o)).Tells a (.answer a o :: l) := by
  have hno : ∀ o', .answer a o' ∉ l := fun o' ho' => by
    rw [← h.answer, ha] at ho'
    cases ho'
  rw [h.made] at hm
  have hlife : Life a (.answer a o :: l) := by
    cases o with
    | none =>
        cases h.life with
        | unmade => cases hm
        | made => exact .abandoned
        | executed r => exact .unheard r
        | abandoned => exact absurd List.mem_cons_self (hno none)
        | answered r => exact absurd List.mem_cons_self (hno (some r))
        | unheard r => exact absurd List.mem_cons_self (hno none)
        | late r => exact absurd (by simp) (hno none)
    | some r =>
        have hr := (h.result r).mp (ho r rfl)
        cases h.life with
        | unmade => cases hm
        | made => simp at hr
        | executed r' =>
            obtain rfl : r = r' := by simpa using hr
            exact .answered r
        | abandoned => exact absurd List.mem_cons_self (hno none)
        | answered r => exact absurd List.mem_cons_self (hno (some r))
        | unheard r => exact absurd List.mem_cons_self (hno none)
        | late r => exact absurd (by simp) (hno none)
  exact
    { life := hlife
      made := iff_of_true (h.made.mpr hm) (List.mem_cons_of_mem _ hm)
      result := fun r => (h.result r).trans (by simp)
      answer := fun o' => by simp [hno, eq_comm] }

theorem tells_of_run [DecidableEq α] {l : List (Act α ρ)} {t : OnceCalls α ρ} (h : lts.Run l t) (a : α) :
    t.Tells a (l.filter fun b => b.call = a) := by
  refine h.invariant (I := fun l t => Tells t a (l.filter fun b => b.call = a)) ?_ ?_
  · rintro t rfl
    exact ⟨.unmade, by simp [init], fun r => by simp [init], fun o => by simp [init]⟩
  · intro l t b _ ht hg
    by_cases hb : b.call = a
    · rw [List.filter_cons_of_pos (by simpa using hb)]
      subst hb
      cases b with
      | make a => exact ht.make hg
      | run a r => exact ht.run hg.1 hg.2
      | answer a o => exact ht.answered hg.1 hg.2.1 hg.2.2
    · rw [List.filter_cons_of_neg (by simpa using hb)]
      exact ht.other (Ne.symm hb)

/-- Only a call that was made is answered. -/
theorem Tells.made_of_answer {t : OnceCalls α ρ} {a : α} {l : List (Act α ρ)} (h : t.Tells a l)
    {o : Option ρ} (ho : t.answer a = some o) : a ∈ t.made := by
  rw [h.answer] at ho
  rw [h.made]
  cases h.life <;> simp_all

end OnceCalls
