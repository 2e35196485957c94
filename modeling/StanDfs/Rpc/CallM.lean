import StanDfs.Marshall.Reused

/-!
# `call_m`

What a caller makes of a reply, and what that leaves in the variable it passed.
-/

namespace StanDfs

/-- `call_m`, with what `call1` returns and leaves in `u`: what it returns, and what it leaves in `r`. -/
def callM (R : Ty) (intret : Int32) (u : Unmarshall) (r : R.Val) : Int32 × R.Val :=
  if intret < 0 then (intret, r)
  else
    let (r, u) := Reading.get R ⟨u, []⟩ r
    if u.u.okdone != true then (RpcConst.unmarshalReplyFailure, r) else (intret, r)

open Reading (Took Whole)

/-- A caller of a good reply gets the value that was marshalled, if `operator>>` replaces what its variable
held or that was what a fresh one holds. -/
theorem callM_of_rest {R : Ty} {intret : Int32} {u : Unmarshall} {y : R.Val} (old : R.Val)
    (hret : ¬ intret < 0) (hw : Whole ⟨u, []⟩) (hok : u.ok = true)
    (h : u.buf.drop u.ind = R.bytes y) :
    callM R intret u old = (intret, y) ↔ R.Replaces ∨ old = R.default := by
  have hr : Reading.rest ⟨u, []⟩ = R.bytes y ++ [] := by
    rw [List.append_nil]
    exact h
  obtain ⟨hv, ty⟩ := Reading.get_of_rest R hw hok hr
  have hread := (Reading.get_reused R ⟨u, []⟩ R.default old).1
  have hdone : (Reading.get R ⟨u, []⟩ old).2.u.okdone = true := by
    have hnil := ty.rest_eq hr
    have hend : (Reading.get R ⟨u, []⟩ R.default).2.u.ind = (Reading.get R ⟨u, []⟩ R.default).2.u.sz := by
      have hle := ty.ind_le hw (R.bytes_ne_nil y)
      have hsz := (ty.whole hw).sz
      rw [Reading.rest, List.drop_eq_nil_iff] at hnil
      omega
    rw [← hread, Unmarshall.okdone, ty.ok, hend]
    simp
  have hval : callM R intret u old = (intret, (Reading.get R ⟨u, []⟩ old).1) := by
    simp [callM, hret, hdone]
  rw [hval, Prod.mk.injEq, ← hv, eq_comm (a := (Reading.get R ⟨u, []⟩ old).1),
    Reading.get_reused_iff R _ _ ty.ok, eq_comm (a := R.default)]
  exact and_iff_right rfl

/-- A good read into two variables that hold different values gives the same value and takes the same bytes,
unless it is one of a vector; the caller of a method gets its result, unless that is a vector and its variable
was not empty. -/
theorem reused_iff (t : Ty) (x x' : t.Val) :
    (∀ r : Reading, (Reading.get t r x).2.u.ok = true →
      ((Reading.get t r x).1 = (Reading.get t r x').1 ∧ (Reading.get t r x).2 = (Reading.get t r x').2 ↔
        t.Replaces ∨ x = x')) ∧
    (∀ (intret : Int32) (u : Unmarshall) (y : t.Val), ¬ intret < 0 → Whole ⟨u, []⟩ → u.ok = true →
      u.buf.drop u.ind = t.bytes y →
      (callM t intret u x = (intret, y) ↔ t.Replaces ∨ x = t.default)) := by
  constructor
  · intro r hok
    rw [Reading.get_reused_iff t x x' hok]
    exact and_iff_left_of_imp fun _ => (Reading.get_reused t r x x').1
  · intro intret u y hret hw hok h
    exact callM_of_rest x hret hw hok h

/-- A `std::string` that is used again. -/
theorem reused_iff_string :
    callM .string 0 (.ofBuf [0, 0, 0, 1, 97]) ([98, 99] : Bytes) = ((0 : Int32), ([97] : Bytes)) := by
  have h := (reused_iff .string ([98, 99] : Bytes) ([] : Bytes)).2 0 (.ofBuf [0, 0, 0, 1, 97])
    ([97] : Bytes) (by decide) ⟨rfl, by decide⟩ rfl (by decide)
  exact h.mpr (.inl trivial)

/-- A `std::vector<int>` that is used again keeps the 7 of an earlier call. -/
theorem vec_keeps : ¬ ∀ (t : Ty) (r : Reading) (x x' : t.Val), (Reading.get t r x).2.u.ok = true →
    (Reading.get t r x).1 = (Reading.get t r x').1 ∧ (Reading.get t r x).2 = (Reading.get t r x').2 := by
  intro h
  have hv := (h (.vec .int) (.ofBuf [0, 0, 0, 1, 0, 0, 0, 5]) ([] : List Int32) ([7] : List Int32)
    (by decide +kernel)).1
  revert hv
  decide +kernel

end StanDfs
