import StanDfs.Marshall.Decode

/-!
# Reading into a variable that holds a value

`operator>>` into a variable that is not fresh.
-/

namespace StanDfs

/-- `operator>>` puts its value in the place of the old one: not so for `std::vector`, which it appends to. -/
def Ty.Replaces : Ty → Prop
  | .vec _ => False
  | _ => True

namespace Reading

theorem rawbytes_reused (r : Reading) (s s' : Bytes) (n : UInt32) :
    (r.rawbytes s n).2 = (r.rawbytes s' n).2 ∧
      ((r.rawbytes s n).2.u.ok = true → (r.rawbytes s n).1 = (r.rawbytes s' n).1) := by
  simp only [rawbytes]
  split
  · exact ⟨rfl, fun hok => absurd hok Bool.false_ne_true⟩
  · split
    · exact ⟨rfl, fun _ => rfl⟩
    · exact ⟨rfl, fun hok => absurd hok Bool.false_ne_true⟩

theorem getString_reused (r : Reading) (s s' : Bytes) :
    (r.getString s).2 = (r.getString s').2 ∧
      ((r.getString s).2.u.ok = true → (r.getString s).1 = (r.getString s').1) := by
  simp only [getString]
  split
  · exact rawbytes_reused _ _ _ _
  · rename_i hn
    exact ⟨rfl, fun hok => absurd hok hn⟩

/-- A loop that appends leaves what was there before. -/
theorem loop_append {β : Type} (f : Reading → β × Reading) (n : Nat) (v w : List β) (r : Reading) :
    loop (fun v r => (v ++ [(f r).1], (f r).2)) n (v ++ w) r
      = (v ++ (loop (fun v r => (v ++ [(f r).1], (f r).2)) n w r).1,
        (loop (fun v r => (v ++ [(f r).1], (f r).2)) n w r).2) := by
  induction n generalizing w r with
  | zero => rfl
  | succ n ih =>
      have h := ih (w ++ [(f r).1]) (f r).2
      rw [← List.append_assoc] at h
      exact h

/-- A vector gets the elements it would get if it were empty, behind those it has. -/
theorem get_vec (t : Ty) (r : Reading) : ∃ (w : List t.Val) (r' : Reading),
    ∀ v : List t.Val, get (.vec t) r v = (v ++ w, r') := by
  refine ⟨(get (.vec t) r (Ty.default (.vec t))).1, (get (.vec t) r (Ty.default (.vec t))).2, fun v => ?_⟩
  have h := loop_append (fun r => get t r t.default) r.getUint.1.toNat v [] r.getUint.2
  rw [List.append_nil] at h
  exact h

/-- What a variable held has no bearing on what is read, nor on its value but for vectors. -/
theorem get_reused (t : Ty) (r : Reading) (x x' : t.Val) :
    (get t r x).2 = (get t r x').2 ∧
      ((get t r x).2.u.ok = true → t.Replaces → (get t r x).1 = (get t r x').1) := by
  cases t with
  | string =>
      obtain ⟨hr, hv⟩ := getString_reused r x x'
      exact ⟨hr, fun hok _ => hv hok⟩
  | vec t =>
      obtain ⟨w, r', h⟩ := get_vec t r
      rw [h x, h x']
      exact ⟨rfl, fun _ h => h.elim⟩
  | _ => exact ⟨rfl, fun _ _ => rfl⟩

/-- A good read of a vector tells its old contents. -/
theorem get_reused_iff (t : Ty) {r : Reading} (x x' : t.Val) (hok : (get t r x).2.u.ok = true) :
    (get t r x).1 = (get t r x').1 ↔ t.Replaces ∨ x = x' := by
  constructor
  · intro h
    cases t with
    | vec t =>
        obtain ⟨w, r', hv⟩ := get_vec t r
        rw [hv x, hv x'] at h
        exact .inr (List.append_cancel_right h)
    | _ => exact .inl trivial
  · rintro (ht | rfl)
    · exact (get_reused t r x x').2 hok ht
    · rfl

end Reading
end StanDfs
