import Mathlib.Data.List.Iterate
import StanDfs.Marshall.Read

/-!
# The rounds of the loops

How often the loops of `operator>>` go round for a container and for those inside it, and how many bytes there
were for that.
-/

namespace StanDfs

/-- A container that is read: the bytes that are unread behind its length field, and the rounds of its loop. -/
structure Level where
  unread : Nat
  rounds : Nat
  deriving DecidableEq, Repr

/-- There is at most one round more than there were bytes. -/
def Level.Bounded (l : Level) : Prop := l.rounds ≤ l.unread + 1

/-- A length field of the input, and how many bytes are behind it. -/
structure LengthField where
  announced : UInt32
  behind : Nat
  deriving DecidableEq, Repr

namespace LengthField

/-- It announces at most one element more than there are bytes. -/
def Fits (l : LengthField) : Prop := l.announced.toNat ≤ l.behind + 1

def level (l : LengthField) : Level := ⟨l.behind, l.announced.toNat⟩

end LengthField

namespace Reading

def unread (r : Reading) : Nat := r.u.sz - r.u.ind

/-- `loop` with its rounds counted, and with the containers that are read in them. -/
def loopCounted {α : Type} (f : α → Reading → α × Reading × List Level) :
    Nat → α → Reading → (α × Reading × List Level) × Nat
  | 0, x, r => ((x, r, []), 0)
  | n + 1, x, r =>
    let (x, r, ls) := f x r
    let ((x, r, ls'), k) := loopCounted f n x r
    ((x, r, ls ++ ls'), k + 1)

/-- `u >> x` for a fresh `x`, with the containers that are read. -/
def getCounted : (t : Ty) → Reading → t.Val × Reading × List Level
  | .vec t => fun r =>
    let (n, r) := r.getUint
    let ((v, r', ls), k) := loopCounted (fun (v : List t.Val) r =>
      let (z, r, ls) := getCounted t r
      (v ++ [z], r, ls)) n.toNat [] r
    (v, r', ⟨r.unread, k⟩ :: ls)
  | .map a b => fun r =>
    let (n, r) := r.getUint
    let ((d, r', ls), k) := loopCounted (fun (d : SortedMap a.Val b.Val) r =>
      let (x, r, ls) := getCounted a r
      let (y, r, ls') := getCounted b r
      (d.assign x y, r, ls ++ ls')) n.toNat .empty r
    (d, r', ⟨r.unread, k⟩ :: ls)
  | t => fun r =>
    let (x, r) := get t r t.default
    (x, r, [])

def levels (t : Ty) (r : Reading) : List Level := (getCounted t r).2.2

/-- The length fields of the input, in the order of the type. A byte that is not there counts as 0. -/
def lengths : (t : Ty) → Reading → List LengthField
  | .vec t => fun r =>
    let (n, r) := r.getUint
    ⟨n, r.unread⟩ :: (List.iterate (fun r => (get t r t.default).2) r n.toNat).flatMap (lengths t)
  | .map a b => fun r =>
    let (n, r) := r.getUint
    ⟨n, r.unread⟩ ::
      (List.iterate (fun r => (get b (get a r a.default).2 b.default).2) r n.toNat).flatMap fun r =>
        lengths a r ++ lengths b (get a r a.default).2
  | _ => fun _ => []

/-! ## What is announced is done -/

/-- A loop makes all its rounds. -/
theorem loopCounted_eq {α : Type} {f : α → Reading → α × Reading × List Level} {g : α → Reading → α}
    {next : Reading → Reading} {ls : Reading → List Level} (hf : ∀ x r, f x r = (g x r, next r, ls r)) (n : Nat)
    (x : α) (r : Reading) :
    loopCounted f n x r = (((loop (fun x r => (g x r, next r)) n x r).1,
      (loop (fun x r => (g x r, next r)) n x r).2, (List.iterate next r n).flatMap ls), n) := by
  induction n generalizing x r with
  | zero => rfl
  | succ n ih =>
      simp only [loopCounted, hf, ih]
      rfl

/-- The count does not change what is read, and each container has as many rounds as it announces. -/
theorem getCounted_eq (t : Ty) (r : Reading) : getCounted t r =
    ((get t r t.default).1, (get t r t.default).2, (lengths t r).map LengthField.level) := by
  induction t generalizing r with
  | vec t ih =>
      have hc : ∀ L, loopCounted (fun (v : List t.Val) r =>
          (v ++ [(getCounted t r).1], (getCounted t r).2)) r.getUint.1.toNat [] r.getUint.2 = L →
          getCounted (.vec t) r = (L.1.1, L.1.2.1, ⟨r.getUint.2.unread, L.2⟩ :: L.1.2.2) := by
        rintro L rfl
        rfl
      refine (hc _ (loopCounted_eq (fun v r => by rw [ih]) _ _ _)).trans ?_
      rw [lengths, List.map_cons, List.map_flatMap]
      rfl
  | map a b iha ihb =>
      have hc : ∀ L, loopCounted (fun (d : SortedMap a.Val b.Val) r =>
          (d.assign (getCounted a r).1 (getCounted b (getCounted a r).2.1).1,
            (getCounted b (getCounted a r).2.1).2.1,
            (getCounted a r).2.2 ++ (getCounted b (getCounted a r).2.1).2.2))
          r.getUint.1.toNat .empty r.getUint.2 = L →
          getCounted (.map a b) r = (L.1.1, L.1.2.1, ⟨r.getUint.2.unread, L.2⟩ :: L.1.2.2) := by
        rintro L rfl
        rfl
      refine (hc _ (loopCounted_eq (fun d r => by rw [iha, ihb, ← List.map_append]) _ _ _)).trans ?_
      rw [lengths, List.map_cons, List.map_flatMap]
      rfl
  | _ => rfl

/-! ## Good reads -/

/-- A read that does not fail did not fail before, and takes a byte at least. -/
def Takes (r r' : Reading) : Prop := r'.u.ok = true → r.u.ok = true ∧ r'.unread < r.unread

theorem Takes.trans {r r' r'' : Reading} (h : Takes r r') (h' : Takes r' r'') : Takes r r'' := by
  intro hok
  obtain ⟨hok', hlt'⟩ := h' hok
  obtain ⟨hok, hlt⟩ := h hok'
  exact ⟨hok, hlt'.trans hlt⟩

theorem takes_rawbyte (r : Reading) : Takes r r.rawbyte.2 := by
  intro hok
  rw [ok_rawbyte] at hok
  split at hok
  · cases hok
  · rename_i hi
    refine ⟨hok, ?_⟩
    rw [unread, unread, sz_rawbyte, ind_rawbyte, if_neg hi]
    omega

theorem takes_getUshort (r : Reading) : Takes r r.getUshort.2 := (takes_rawbyte _).trans (takes_rawbyte _)

theorem takes_getUint (r : Reading) : Takes r r.getUint.2 :=
  ((takes_rawbyte _).trans (takes_rawbyte _)).trans ((takes_rawbyte _).trans (takes_rawbyte _))

theorem takes_getString (r : Reading) (s : Bytes) : Takes r (r.getString s).2 := by
  intro hok
  simp only [getString] at hok ⊢
  split at hok
  · rename_i hn
    obtain ⟨hr, hlt⟩ := takes_getUint r hn
    refine ⟨hr, ?_⟩
    simp only [hn, ↓reduceIte, rawbytes] at hok ⊢
    split at hok
    · cases hok
    · rename_i hgt
      rw [if_neg hgt]
      split at hok
      · rename_i hle
        rw [if_pos hle]
        simp only [unread] at hlt ⊢
        omega
      · cases hok
  · rename_i hn
    exact absurd hok hn

/-- Each round of a good loop takes a byte at least. -/
theorem loop_takes {α : Type} {f : α → Reading → α × Reading} (hf : ∀ x r, Takes r (f x r).2) {n : Nat} {x : α}
    {r : Reading} (hok : (loop f n x r).2.u.ok = true) :
    r.u.ok = true ∧ (loop f n x r).2.unread + n ≤ r.unread := by
  induction n generalizing x r with
  | zero => exact ⟨hok, Nat.le_refl _⟩
  | succ n ih =>
      obtain ⟨hok', hle⟩ := ih (x := (f x r).1) (r := (f x r).2) hok
      obtain ⟨hr, hlt⟩ := hf x r hok'
      refine ⟨hr, ?_⟩
      have : (loop f (n + 1) x r).2.unread = (loop f n (f x r).1 (f x r).2).2.unread := rfl
      omega

/-- A round of the loop for a vector. -/
def vecRound (t : Ty) (v : List t.Val) (r : Reading) : List t.Val × Reading :=
  (v ++ [(get t r t.default).1], (get t r t.default).2)

/-- A round of the loop for a map. -/
def mapRound (a b : Ty) (d : SortedMap a.Val b.Val) (r : Reading) : SortedMap a.Val b.Val × Reading :=
  (d.assign (get a r a.default).1 (get b (get a r a.default).2 b.default).1,
    (get b (get a r a.default).2 b.default).2)

theorem takes_get (t : Ty) (r : Reading) (x : t.Val) : Takes r (get t r x).2 := by
  induction t generalizing r with
  | bool => exact takes_rawbyte r
  | char => exact takes_rawbyte r
  | uchar => exact takes_rawbyte r
  | short => exact takes_getUshort r
  | ushort => exact takes_getUshort r
  | int => exact takes_getUint r
  | uint => exact takes_getUint r
  | ulonglong => exact (takes_getUint r).trans (takes_getUint _)
  | string => exact takes_getString r x
  | vec t ih =>
      intro hok
      obtain ⟨hn, hle⟩ := loop_takes (f := vecRound t) (fun v r => ih r t.default) hok
      obtain ⟨hr, hlt⟩ := takes_getUint r hn
      exact ⟨hr, (Nat.le_of_add_right_le hle).trans_lt hlt⟩
  | map a b iha ihb =>
      intro hok
      obtain ⟨hn, hle⟩ := loop_takes (f := mapRound a b)
        (fun d r => (iha r a.default).trans (ihb _ b.default)) hok
      obtain ⟨hr, hlt⟩ := takes_getUint r hn
      exact ⟨hr, (Nat.le_of_add_right_le hle).trans_lt hlt⟩

/-- In a good loop every round is good. -/
theorem iterate_ok {α : Type} {f : α → Reading → α × Reading} {next : Reading → Reading}
    (hf : ∀ x r, (f x r).2 = next r) (ht : ∀ r, Takes r (next r)) {n : Nat} {x : α} {r : Reading}
    (hok : (loop f n x r).2.u.ok = true) : ∀ r' ∈ List.iterate next r n, (next r').u.ok = true := by
  induction n generalizing x r with
  | zero =>
      intro r' hr
      cases hr
  | succ n ih =>
      have hrest : (loop f n (f x r).1 (next r)).2.u.ok = true := by
        rw [← hf x r]
        exact hok
      intro r' hr
      rcases List.mem_cons.mp hr with rfl | hr
      · exact (loop_takes (fun x r => hf x r ▸ ht r) hrest).1
      · exact ih hrest r' hr

/-- A good read finds every element that is announced, and each has a byte at least. -/
theorem lengths_le (t : Ty) {r : Reading} (x : t.Val) (hok : (get t r x).2.u.ok = true) :
    ∀ l ∈ lengths t r, l.announced.toNat ≤ l.behind := by
  induction t generalizing r with
  | vec t ih =>
      have ht : ∀ r, Takes r (get t r t.default).2 := fun r => takes_get t r t.default
      intro l hl
      rcases List.mem_cons.mp hl with rfl | hl
      · exact Nat.le_of_add_left_le (loop_takes (f := vecRound t) (fun _ r => ht r) hok).2
      · obtain ⟨r', hr', hl⟩ := List.mem_flatMap.mp hl
        exact ih t.default (iterate_ok (f := vecRound t) (fun _ _ => rfl) ht hok r' hr') l hl
  | map a b iha ihb =>
      have ht : ∀ r, Takes r (get b (get a r a.default).2 b.default).2 := fun r =>
        (takes_get a r a.default).trans (takes_get b _ b.default)
      intro l hl
      rcases List.mem_cons.mp hl with rfl | hl
      · exact Nat.le_of_add_left_le (loop_takes (f := mapRound a b) (fun _ r => ht r) hok).2
      · obtain ⟨r', hr', hl⟩ := List.mem_flatMap.mp hl
        have hb := iterate_ok (f := mapRound a b) (fun _ _ => rfl) ht hok r' hr'
        rcases List.mem_append.mp hl with hl | hl
        · exact iha a.default (takes_get b _ b.default hb).1 l hl
        · exact ihb b.default hb l hl
  | _ => exact fun l hl => nomatch hl

theorem levels_eq (t : Ty) (r : Reading) : levels t r = (lengths t r).map LengthField.level := by
  rw [levels, getCounted_eq]

/-- The rounds stay within the bytes at every level just if every length field does, and they do where the
read does not fail. -/
theorem rounds_iff (t : Ty) (r : Reading) :
    ((∀ l ∈ levels t r, l.Bounded) ↔ ∀ l ∈ lengths t r, l.Fits) ∧
    ((get t r t.default).2.u.ok = true → ∀ l ∈ levels t r, l.rounds ≤ l.unread) := by
  rw [levels_eq]
  constructor
  · exact List.forall_mem_map
  · intro hok
    rw [List.forall_mem_map]
    exact lengths_le t t.default hok

/-- A `std::vector<std::vector<char>>` that is all there. -/
theorem rounds_iff_nested :
    ∀ l ∈ levels (.vec (.vec .char)) (.ofBuf [0, 0, 0, 2, 0, 0, 0, 1, 97, 0, 0, 0, 0]), l.rounds ≤ l.unread :=
  (rounds_iff (.vec (.vec .char)) (.ofBuf [0, 0, 0, 2, 0, 0, 0, 1, 97, 0, 0, 0, 0])).2 (by decide +kernel)

/-- Four bytes make nine rounds, and a vector of nine elements. -/
theorem rounds_exceed : ¬ ∀ (t : Ty) (r : Reading), ∀ l ∈ levels t r, l.Bounded := by
  intro h
  have hl : (⟨0, 9⟩ : Level) ∈ levels (.vec .char) (.ofBuf [0, 0, 0, 9]) := by decide +kernel
  exact absurd (h _ _ _ hl) (show ¬ 9 ≤ 0 + 1 by decide)

end Reading
end StanDfs
