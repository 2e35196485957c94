import StanDfs.Marshall.Read

/-!
# The bounds of the buffer

A read stays inside the buffer unless the sum in `rawbytes` wraps.
-/

namespace StanDfs

namespace Access

/-- The access stays inside a buffer of `sz` bytes, and a string is taken just if it is all there. -/
def Inside (sz : Nat) : Access → Prop
  | .byte i => i < sz
  | .short => True
  | .str i n taken => taken = true ↔ i + n.toNat ≤ sz

def failed : Access → Bool
  | .byte _ => false
  | .short => true
  | .str _ _ taken => !taken

/-- The announced length reaches beyond what `unsigned int` holds. -/
def Wraps : Access → Prop
  | .str i n _ => 2 ^ 32 ≤ i + n.toNat
  | _ => False

instance (sz : Nat) (a : Access) : Decidable (a.Inside sz) := by
  cases a <;> simp only [Inside] <;> infer_instance

end Access

instance (a : Access) : Decidable a.Wraps := by
  cases a <;> simp only [Access.Wraps] <;> infer_instance

namespace Reading

/-- What is done with an `unmarshall`. -/
inductive Op
  | reqHeader
  | replyHeader
  | read (t : Ty) (x : t.Val)

def step (r : Reading) : Op → Reading
  | .reqHeader => r.unpackReqHeader.2
  | .replyHeader => r.unpackReplyHeader.2
  | .read t x => (get t r x).2

def run (b : Bytes) (ops : List Op) : Reading := ops.foldl step (ofBuf b)

/-- All accesses were inside the buffer, and a read that failed has left its mark. -/
structure Safe (r : Reading) : Prop where
  inside : ∀ a ∈ r.log, a.Inside r.u.sz
  failed : ∀ a ∈ r.log, a.failed = true → r.u.ok = false

/-- What every read keeps, also where a sum wraps. -/
structure Logged (r : Reading) : Prop where
  lt : r.u.sz < 2 ^ 31
  byte : ∀ i, .byte i ∈ r.log → i < r.u.sz
  failed : ∀ a ∈ r.log, a.failed = true → r.u.ok = false
  str : ∀ i n taken, .str i n taken ∈ r.log →
    i ≤ r.u.sz ∧ (taken = true ↔ (i + n.toNat) % 2 ^ 32 ≤ r.u.sz)

variable {P : Reading → Prop} {r : Reading}

/-- A property that bytes, strings and the moves to and from the header keep is kept by every step. -/
theorem step_preserves (hb : ∀ r, P r → P r.rawbyte.2) (hs : ∀ r s, P r → P (r.getString s).2)
    (hi : ∀ r i, P r → P (r.seek i)) (o : Op) (h : P r) : P (r.step o) := by
  have hint : ∀ r, P r → P r.getInt.2 := fun r h => getUint_preserves hb h
  cases o with
  | reqHeader =>
      exact hi _ _ (hint _ (hint _ (hint _ (hint _ (hint _ (hi _ _ h))))))
  | replyHeader => exact hi _ _ (hint _ (hint _ (hi _ _ h)))
  | read t x => exact get_preserves hb hs t x h

theorem foldl_preserves (hstep : ∀ r o, P r → P (step r o)) (ops : List Op) (h : P r) :
    P (ops.foldl step r) := by
  induction ops generalizing r with
  | nil => exact h
  | cons o ops ih => exact ih (hstep r o h)

/-! ## One read -/

theorem ind_le_of_rawbyte (h : r.rawbyte.2.u.ok = true) : r.rawbyte.2.u.ind ≤ r.rawbyte.2.u.sz := by
  rw [ok_rawbyte] at h
  rw [ind_rawbyte, sz_rawbyte]
  split at h
  · cases h
  · rename_i hi
    rw [if_neg hi]
    omega

theorem ind_le_of_getUint (h : r.getUint.2.u.ok = true) : r.getUint.2.u.ind ≤ r.getUint.2.u.sz :=
  ind_le_of_rawbyte h

theorem Logged.rawbyte (h : Logged r) : Logged r.rawbyte.2 := by
  refine ⟨by rw [sz_rawbyte]; exact h.lt, fun i hm => ?_, fun a hm hf => ?_, fun i n taken hm => ?_⟩
  · rw [log_rawbyte] at hm
    rw [sz_rawbyte]
    rcases List.mem_append.mp hm with hm | hm
    · exact h.byte i hm
    · have hm := List.mem_singleton.mp hm
      split at hm
      · cases hm
      · cases hm
        omega
  · rw [log_rawbyte] at hm
    rw [ok_rawbyte]
    rcases List.mem_append.mp hm with hm | hm
    · rw [h.failed a hm hf]
      split <;> rfl
    · rw [List.mem_singleton.mp hm] at hf
      split at hf
      · rename_i hi
        rw [if_pos hi]
      · cases hf
  · rw [log_rawbyte] at hm
    rw [sz_rawbyte]
    rcases List.mem_append.mp hm with hm | hm
    · exact h.str i n taken hm
    · have hm := List.mem_singleton.mp hm
      split at hm <;> cases hm

theorem Logged.rawbytes (h : Logged r) (s : Bytes) (n : UInt32) (hok : r.u.ok = true)
    (hi : r.u.ind ≤ r.u.sz) : Logged (r.rawbytes s n).2 := by
  have hlt := lt_sum_iff n hi h.lt
  have hnew : ∀ {taken : Bool} {u : Unmarshall}, u.sz = r.u.sz →
      (taken = false → u.ok = false) → (taken = true ↔ (r.u.ind + n.toNat) % 2 ^ 32 ≤ r.u.sz) →
      Logged ⟨u, r.log ++ [.str r.u.ind n taken]⟩ := by
    intro taken u hsz hf ht
    refine ⟨by rw [hsz]; exact h.lt, fun i hm => ?_, fun a hm ha => ?_, fun i n' taken' hm => ?_⟩
    · rcases List.mem_append.mp hm with hm | hm
      · rw [hsz]
        exact h.byte i hm
      · cases List.mem_singleton.mp hm
    · rcases List.mem_append.mp hm with hm | hm
      · have hbad := h.failed a hm ha
        rw [hok] at hbad
        cases hbad
      · rw [List.mem_singleton.mp hm] at ha
        exact hf (by simpa [Access.failed] using ha)
    · rw [hsz]
      rcases List.mem_append.mp hm with hm | hm
      · exact h.str i n' taken' hm
      · cases List.mem_singleton.mp hm
        exact ⟨hi, ht⟩
  rw [Reading.rawbytes]
  simp only
  split
  · rename_i hgt
    exact hnew rfl (fun _ => rfl) ⟨fun hf => (by cases hf), fun hle => absurd (hlt.mp hgt) (Nat.not_lt.mpr hle)⟩
  · rename_i hle
    have hle : (r.u.ind + n.toNat) % 2 ^ 32 ≤ r.u.sz := Nat.not_lt.mp fun hgt => hle (hlt.mpr hgt)
    split
    · exact hnew rfl (fun hf => by cases hf) ⟨fun _ => hle, fun _ => rfl⟩
    · exact hnew rfl (fun hf => by cases hf) ⟨fun _ => hle, fun _ => rfl⟩

theorem Logged.getString (h : Logged r) (s : Bytes) : Logged (r.getString s).2 := by
  have h' : Logged r.getUint.2 := getUint_preserves (P := Logged) (fun _ h => h.rawbyte) h
  simp only [Reading.getString]
  split
  · rename_i hok
    exact h'.rawbytes s _ hok (ind_le_of_getUint hok)
  · exact h'

theorem Logged.step (h : Logged r) (o : Op) : Logged (r.step o) :=
  step_preserves (P := Logged) (fun _ h => h.rawbyte) (fun _ s h => h.getString s) (fun _ _ h => { h with }) o h

theorem Logged.run {b : Bytes} (hb : b.length < 2 ^ 31) (ops : List Op) : Logged (run b ops) := by
  refine foldl_preserves (P := Logged) (fun _ o h => h.step o) ops ?_
  refine ⟨hb, ?_, ?_, ?_⟩
  · intro i hm
    cases hm
  · intro a hm
    cases hm
  · intro i n taken hm
    cases hm

/-- Nothing makes an `unmarshall` that has failed good again. -/
theorem failed_stays (ops : List Op) (h : r.u.ok = false) : (ops.foldl step r).u.ok = false := by
  have hbyte : ∀ r : Reading, r.u.ok = false → r.rawbyte.2.u.ok = false := by
    intro r h
    rw [ok_rawbyte, h]
    split <;> rfl
  have hstring : ∀ (r : Reading) s, r.u.ok = false → (r.getString s).2.u.ok = false := by
    intro r s h
    have h' := getUint_preserves (P := fun r => r.u.ok = false) hbyte h
    simp only [Reading.getString, h']
    exact h'
  exact foldl_preserves (P := fun r => r.u.ok = false)
    (fun r o => step_preserves (P := fun r => r.u.ok = false) hbyte hstring (fun _ _ h => h) o) ops h

theorem log_mono (ops : List Op) (r : Reading) : r.log ⊆ (ops.foldl step r).log := by
  have hbyte : ∀ r' : Reading, r.log ⊆ r'.log → r.log ⊆ r'.rawbyte.2.log := by
    intro r' h
    rw [log_rawbyte]
    exact List.subset_append_of_subset_left _ h
  refine foldl_preserves (P := fun r' => r.log ⊆ r'.log) (fun r' o => step_preserves hbyte ?_ ?_ o) ops
    (List.Subset.refl _)
  · intro r' s h
    have h' := getUint_preserves (P := fun r' => r.log ⊆ r'.log) hbyte h
    simp only [Reading.getString]
    split
    · simp only [Reading.rawbytes]
      split
      · exact List.subset_append_of_subset_left _ h'
      · split
        · exact List.subset_append_of_subset_left _ h'
        · exact List.subset_append_of_subset_left _ h'
    · exact h'
  · intro r' i h
    exact h

/-- Reads are safe just if no sum wraps. -/
theorem Logged.safe_iff (h : Logged r) : Safe r ↔ ∀ a ∈ r.log, ¬ a.Wraps := by
  constructor
  · intro hs a ha hw
    cases a with
    | byte i => exact hw
    | short => exact hw
    | str i n taken =>
        have hw : 2 ^ 32 ≤ i + n.toNat := hw
        have hin : taken = true ↔ i + n.toNat ≤ r.u.sz := hs.inside _ ha
        obtain ⟨hi, ht⟩ := h.str i n taken ha
        have hn := n.toNat_lt
        have hlt := h.lt
        -- The wrapped sum is below the index, so the string is taken.
        have hle : (i + n.toNat) % 2 ^ 32 ≤ r.u.sz := by omega
        have hsum := hin.mp (ht.mpr hle)
        omega
  · intro hw
    refine ⟨fun a ha => ?_, h.failed⟩
    cases a with
    | byte i => exact h.byte i ha
    | short => trivial
    | str i n taken =>
        have hn : ¬ 2 ^ 32 ≤ i + n.toNat := hw _ ha
        have ht := (h.str i n taken ha).2
        rw [Nat.mod_eq_of_lt (Nat.not_le.mp hn)] at ht
        exact ht

/-- For any buffer and any reads, all accesses are inside the buffer, and failures are noticed and last,
just if no string of the reads announces a length that wraps the sum with its position. -/
theorem reads_inside_iff {b : Bytes} (hb : b.length < 2 ^ 31) (ops : List Op) :
    (∀ ops₁ ops₂, ops = ops₁ ++ ops₂ →
      Safe (run b ops₁) ∧ ((run b ops₁).u.ok = false → (run b ops).u.ok = false)) ↔
    ∀ a ∈ (run b ops).log, ¬ a.Wraps := by
  constructor
  · intro h
    exact (Logged.run hb ops).safe_iff.mp (h ops [] (List.append_nil _).symm).1
  · rintro h ops₁ ops₂ rfl
    have hsplit : run b (ops₁ ++ ops₂) = ops₂.foldl step (run b ops₁) := List.foldl_append
    rw [hsplit] at h ⊢
    refine ⟨(Logged.run hb ops₁).safe_iff.mpr fun a ha => h a (log_mono ops₂ _ ha), failed_stays ops₂⟩

/-- A string of length 3 that is not all there. -/
theorem reads_inside_iff_short_string :
    Safe (run (List.replicate 24 0 ++ [0, 0, 0, 3, 97]) [.reqHeader, .read .string ([] : Bytes)]) := by
  have h := reads_inside_iff (b := List.replicate 24 0 ++ [0, 0, 0, 3, 97]) (by decide)
    [.reqHeader, .read .string ([] : Bytes)]
  refine (h.mpr ?_ _ [] (List.append_nil _).symm).1
  decide +kernel

/-- A string that announces ffffffff bytes after the header is taken to be there. -/
theorem string_leaves_buffer : ¬ Safe (run (List.replicate 24 0 ++ [0xff, 0xff, 0xff, 0xff])
    [.reqHeader, .read .string ([] : Bytes)]) := by
  intro h
  have hin := h.inside (.str 28 0xffffffff true) (by decide +kernel)
  revert hin
  decide +kernel

end Reading
end StanDfs
