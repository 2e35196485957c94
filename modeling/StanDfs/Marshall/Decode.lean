import StanDfs.Marshall.Read

/-!
# Reading and encoding

A read of an encoding takes just that and gives its value. A good read of a type whose values have one
encoding each takes the encoding of the value it gives.
-/

namespace StanDfs

namespace Ty

/-- Every value has one encoding: not so for `bool`, where every byte but 0 is true, and for maps, where the
entries may come in any order. -/
def Exact : Ty → Prop
  | .bool | .map _ _ => False
  | .vec t => t.Exact
  | _ => True

theorem bytes_ne_nil (t : Ty) (x : t.Val) : t.bytes x ≠ [] := by
  intro h
  have hl := congrArg List.length h
  cases t <;> simp [bytes, BigEndian.bytes, BigEndian.bytes16] at hl

theorem length_le_flatMap {β : Type} {g : β → Bytes} (hg : ∀ y, g y ≠ []) (ys : List β) :
    ys.length ≤ (ys.flatMap g).length := by
  induction ys with
  | nil => exact Nat.le_refl _
  | cons y ys ih =>
      have hy := List.length_pos_iff.mpr (hg y)
      rw [List.flatMap_cons, List.length_append, List.length_cons]
      omega

end Ty

namespace Reading

variable {r : Reading} {l : Bytes}

/-! ## Integers -/

theorem toUInt8_widen (c : UInt8) : (Unmarshall.widen c).toUInt8 = c := by
  apply UInt8.toBitVec_inj.mp
  apply BitVec.eq_of_getLsbD_eq
  intro i hi
  simp [Unmarshall.widen]
  interval_cases i <;> simp [BitVec.getElem_signExtend]

theorem bool_widen (b : Bool) : (Unmarshall.widen b.toUInt8 != 0) = b := by
  cases b <;> decide

theorem word16_widen (a b : UInt8) :
    ((Unmarshall.widen a &&& 0xff) <<< 8).toUInt16 ||| (Unmarshall.widen b &&& 0xff).toUInt16
      = BigEndian.word16 a b := by
  rw [Unmarshall.widen_mask, Unmarshall.widen_mask]
  apply UInt16.toBitVec_inj.mp
  apply BitVec.eq_of_getLsbD_eq
  intro i hi
  rw [BigEndian.getLsbD_word16 a b hi]
  simp only [UInt16.toBitVec_or, BitVec.getLsbD_or, UInt32.toBitVec_toUInt16, UInt32.toBitVec_shiftLeft,
    BitVec.getLsbD_setWidth, UInt32.toBitVec_ofNat, BitVec.shiftLeft_eq', BitVec.toNat_umod,
    BitVec.toNat_ofNat, BitVec.getLsbD_shiftLeft, UInt8.toBitVec_toUInt32, Nat.reducePow, Nat.reduceMod]
  by_cases h8 : i < 8 <;> grind

theorem word_widen (a b c d : UInt8) : (Unmarshall.widen a &&& 0xff) <<< 24 |||
    (Unmarshall.widen b &&& 0xff) <<< 16 ||| (Unmarshall.widen c &&& 0xff) <<< 8 |||
      (Unmarshall.widen d &&& 0xff) = BigEndian.word a b c d := by
  simp only [Unmarshall.widen_mask]
  rfl

theorem getUshort_of_ok (hw : r.Whole) (hok : r.getUshort.2.u.ok = true) :
    Took r (BigEndian.bytes16 r.getUshort.1) r.getUshort.2 := by
  obtain ⟨b, hb, tb⟩ := rawbyte_of_ok hw.rawbyte hok
  obtain ⟨a, ha, ta⟩ := rawbyte_of_ok hw tb.before
  have hval : r.getUshort.1 = BigEndian.word16 a b := by
    rw [← word16_widen, ← ha, ← hb]
    rfl
  rw [hval, BigEndian.bytes16_word]
  exact ta.trans tb

theorem getUshort_of_rest {n : UInt16} (hw : r.Whole) (hok : r.u.ok = true)
    (h : r.rest = BigEndian.bytes16 n ++ l) :
    r.getUshort.1 = n ∧ Took r (BigEndian.bytes16 n) r.getUshort.2 := by
  obtain ⟨ha, ta⟩ := rawbyte_of_drop hw hok h
  obtain ⟨hb, tb⟩ := rawbyte_of_drop (ta.whole hw) ta.ok (ta.rest_eq h)
  refine ⟨?_, ta.trans tb⟩
  rw [← BigEndian.word16_bytes n, ← word16_widen, ← ha, ← hb]
  rfl

theorem getUint_of_ok (hw : r.Whole) (hok : r.getUint.2.u.ok = true) :
    Took r (BigEndian.bytes r.getUint.1) r.getUint.2 := by
  obtain ⟨d, hd, td⟩ := rawbyte_of_ok hw.rawbyte.rawbyte.rawbyte hok
  obtain ⟨c, hc, tc⟩ := rawbyte_of_ok hw.rawbyte.rawbyte td.before
  obtain ⟨b, hb, tb⟩ := rawbyte_of_ok hw.rawbyte tc.before
  obtain ⟨a, ha, ta⟩ := rawbyte_of_ok hw tb.before
  have hval : r.getUint.1 = BigEndian.word a b c d := by
    rw [← word_widen, ← ha, ← hb, ← hc, ← hd]
    rfl
  rw [hval, BigEndian.bytes_word]
  exact ((ta.trans tb).trans tc).trans td

theorem getUint_of_rest {n : UInt32} (hw : r.Whole) (hok : r.u.ok = true)
    (h : r.rest = BigEndian.bytes n ++ l) :
    r.getUint.1 = n ∧ Took r (BigEndian.bytes n) r.getUint.2 := by
  obtain ⟨ha, ta⟩ := rawbyte_of_drop hw hok h
  have h₁ := ta.rest_eq h
  obtain ⟨hb, tb⟩ := rawbyte_of_drop (ta.whole hw) ta.ok h₁
  have h₂ := tb.rest_eq h₁
  have hw₂ := tb.whole (ta.whole hw)
  obtain ⟨hc, tc⟩ := rawbyte_of_drop hw₂ tb.ok h₂
  obtain ⟨hd, td⟩ := rawbyte_of_drop (tc.whole hw₂) tc.ok (tc.rest_eq h₂)
  refine ⟨?_, ((ta.trans tb).trans tc).trans td⟩
  rw [← BigEndian.word_bytes n, ← word_widen, ← ha, ← hb, ← hc, ← hd]
  rfl

theorem getUlonglong_of_ok (hw : r.Whole) (hok : r.getUlonglong.2.u.ok = true) :
    Took r (Ty.bytes .ulonglong r.getUlonglong.1) r.getUlonglong.2 := by
  have hw' : r.getUint.2.Whole := getUint_preserves (P := Whole) (fun _ h => h.rawbyte) hw
  have tl := getUint_of_ok hw' hok
  have th := getUint_of_ok hw tl.before
  obtain ⟨hh, hl⟩ := BigEndian.halves_or r.getUint.1 r.getUint.2.getUint.1
  have t := th.trans tl
  rw [← congrArg BigEndian.bytes hh, ← congrArg BigEndian.bytes hl] at t
  exact t

theorem getUlonglong_of_rest {n : UInt64} (hw : r.Whole) (hok : r.u.ok = true)
    (h : r.rest = Ty.bytes .ulonglong n ++ l) :
    r.getUlonglong.1 = n ∧ Took r (Ty.bytes .ulonglong n) r.getUlonglong.2 := by
  have h : r.rest = BigEndian.bytes (n >>> 32).toUInt32 ++ (BigEndian.bytes n.toUInt32 ++ l) := by
    rw [h, Ty.bytes, List.append_assoc]
  obtain ⟨hh, th⟩ := getUint_of_rest hw hok h
  obtain ⟨hl, tl⟩ := getUint_of_rest (th.whole hw) th.ok (th.rest_eq h)
  refine ⟨?_, th.trans tl⟩
  show r.getUint.2.getUint.1.toUInt64 ||| r.getUint.1.toUInt64 <<< 32 = n
  rw [hh, hl, BigEndian.halves_eq]

/-! ## Strings -/

theorem Took.ind_le {p : Bytes} {r' : Reading} (h : Took r p r') (hw : r.Whole) (hp : p ≠ []) :
    r'.u.ind ≤ r'.u.sz := by
  have hl := congrArg List.length h.rest
  have hpos := List.length_pos_iff.mpr hp
  simp only [Reading.rest, List.length_drop, List.length_append] at hl
  have := hw.sz
  have := h.ind
  have := h.sz
  omega

/-- What `rawbytes` takes when it does not fail. -/
theorem rawbytes_of_ok {s : Bytes} {n : UInt32} (hw : r.Whole) (hok : (r.rawbytes s n).2.u.ok = true)
    (hr : r.u.ok = true) : (r.rawbytes s n).1.length = n.toNat ∧
      Took r (r.rawbytes s n).1 (r.rawbytes s n).2 := by
  rw [rawbytes] at hok ⊢
  simp only at hok ⊢
  split at hok
  · cases hok
  · rename_i hgt
    rw [if_neg hgt]
    split at hok
    · rename_i hle
      have hsz := hw.sz
      have hlen : ((r.u.buf.drop r.u.ind).take n.toNat).length = n.toNat := by
        rw [List.length_take, List.length_drop]
        omega
      simp only [hle, ↓reduceIte]
      refine ⟨hlen, hr, hr, rfl, rfl, by rw [hlen], ?_⟩
      simp only [Reading.rest]
      rw [← List.drop_drop, List.take_append_drop]
    · cases hok

theorem rawbytes_of_rest {s p : Bytes} (hw : r.Whole) (hok : r.u.ok = true) (hi : r.u.ind ≤ r.u.sz)
    (h : r.rest = p ++ l) : (r.rawbytes s (UInt32.ofNat p.length)).1 = p ∧
      Took r p (r.rawbytes s (UInt32.ofNat p.length)).2 := by
  have hsz := hw.sz
  have hlt := hw.lt
  have hl := congrArg List.length h
  simp only [Reading.rest, List.length_drop, List.length_append] at hl
  have hn : (UInt32.ofNat p.length).toNat = p.length := by
    simp
    omega
  have hle : r.u.ind + p.length ≤ r.u.sz := by omega
  have hcheck : ¬ UInt32.ofNat r.u.ind + UInt32.ofNat p.length > UInt32.ofNat r.u.sz := by
    rw [lt_sum_iff _ hi hlt, hn]
    omega
  have htake : (r.u.buf.drop r.u.ind).take p.length = p := by
    rw [show r.u.buf.drop r.u.ind = p ++ l from h]
    exact List.take_left
  simp only [rawbytes, hcheck, ↓reduceIte, hn, hle, htake]
  refine ⟨trivial, hok, hok, rfl, rfl, rfl, ?_⟩
  simp only [Reading.rest]
  rw [← List.drop_drop, ← htake, List.length_take_of_le (by rw [List.length_drop]; omega),
    List.take_append_drop]

theorem getString_of_ok {s : Bytes} (hw : r.Whole) (hok : (r.getString s).2.u.ok = true) :
    Took r (Ty.bytes .string (r.getString s).1) (r.getString s).2 := by
  simp only [getString] at hok ⊢
  split at hok
  · rename_i hn
    have tn := getUint_of_ok hw hn
    obtain ⟨hlen, ts⟩ := rawbytes_of_ok (tn.whole hw) hok hn
    simp only [hn, ↓reduceIte, Ty.bytes, hlen, UInt32.ofNat_toNat]
    exact tn.trans ts
  · rename_i hn
    exact absurd hok hn

theorem getString_of_rest {s p : Bytes} (hw : r.Whole) (hok : r.u.ok = true)
    (h : r.rest = Ty.bytes .string p ++ l) :
    (r.getString s).1 = p ∧ Took r (Ty.bytes .string p) (r.getString s).2 := by
  have h : r.rest = BigEndian.bytes (UInt32.ofNat p.length) ++ (p ++ l) := by
    rw [h, Ty.bytes, List.append_assoc]
  obtain ⟨hn, tn⟩ := getUint_of_rest hw hok h
  obtain ⟨hp, tp⟩ := rawbytes_of_rest (s := s) (tn.whole hw) tn.ok (tn.ind_le hw (by simp [BigEndian.bytes]))
    (tn.rest_eq h)
  simp only [getString, tn.ok, ↓reduceIte, hn]
  exact ⟨hp, tn.trans tp⟩

/-! ## Containers -/

/-- A loop over the encodings of `ys` folds in their values. -/
theorem loop_of_rest {α β : Type} {f : α → Reading → α × Reading} {g : β → Bytes} {h : α → β → α}
    (hf : ∀ x y (r : Reading) l, r.Whole → r.u.ok = true → r.rest = g y ++ l →
      (f x r).1 = h x y ∧ Took r (g y) (f x r).2)
    {ys : List β} {x : α} (hw : r.Whole) (hok : r.u.ok = true) (hr : r.rest = ys.flatMap g ++ l) :
    (loop f ys.length x r).1 = ys.foldl h x ∧ Took r (ys.flatMap g) (loop f ys.length x r).2 := by
  induction ys generalizing x r with
  | nil => exact ⟨rfl, .refl hok⟩
  | cons y ys ih =>
      rw [List.flatMap_cons, List.append_assoc] at hr
      obtain ⟨hx, ty⟩ := hf x y r _ hw hok hr
      obtain ⟨hv, tys⟩ := ih (x := (f x r).1) (ty.whole hw) ty.ok (ty.rest_eq hr)
      exact ⟨hv.trans (by rw [hx]; rfl), ty.trans tys⟩

/-- A loop that does not fail takes the encodings of what it appends. -/
theorem loop_of_ok {β : Type} {f : Reading → β × Reading} {g : β → Bytes}
    (hf : ∀ r : Reading, r.Whole → (f r).2.u.ok = true → Took r (g (f r).1) (f r).2)
    (hp : ∀ r : Reading, r.Whole → (f r).2.Whole) (n : Nat) (v : List β) (hw : r.Whole)
    (hok : (loop (fun v r => (v ++ [(f r).1], (f r).2)) n v r).2.u.ok = true) :
    ∃ w : List β, w.length = n ∧ (loop (fun v r => (v ++ [(f r).1], (f r).2)) n v r).1 = v ++ w ∧
      Took r (w.flatMap g) (loop (fun v r => (v ++ [(f r).1], (f r).2)) n v r).2 := by
  induction n generalizing v r with
  | zero => exact ⟨[], rfl, (List.append_nil v).symm, .refl hok⟩
  | succ n ih =>
      obtain ⟨w, hlen, hv, tw⟩ := ih (v ++ [(f r).1]) (hp r hw) hok
      have tz := hf r hw tw.before
      refine ⟨(f r).1 :: w, by rw [List.length_cons, hlen], ?_, tz.trans tw⟩
      rw [List.append_assoc] at hv
      exact hv

theorem get_whole (t : Ty) (x : t.Val) (hw : r.Whole) : (get t r x).2.Whole := by
  refine get_preserves (P := Whole) (fun _ h => h.rawbyte) (fun r s h => ?_) t x hw
  have h' : r.getUint.2.Whole := getUint_preserves (P := Whole) (fun _ h => h.rawbyte) h
  simp only [getString, rawbytes]
  split
  · split
    · exact ⟨h'.sz, h'.lt⟩
    · split <;> exact ⟨h'.sz, h'.lt⟩
  · exact h'

/-- The values in a container of which the encoding is there are fewer than 2³¹. -/
theorem toNat_length_of_rest {β : Type} {g : β → Bytes} (hg : ∀ y, g y ≠ []) (ys : List β) (hw : r.Whole)
    (h : r.rest = ys.flatMap g ++ l) : (UInt32.ofNat ys.length).toNat = ys.length := by
  have hl := congrArg List.length h
  simp only [Reading.rest, List.length_drop, List.length_append] at hl
  have := Ty.length_le_flatMap hg ys
  have := hw.sz
  have := hw.lt
  simp
  omega

/-- The encodings of the type read as its values. -/
def Reads (t : Ty) : Prop := ∀ (r : Reading) (x : t.Val) (l : Bytes), r.Whole → r.u.ok = true →
  r.rest = t.bytes x ++ l → (get t r t.default).1 = x ∧ Took r (t.bytes x) (get t r t.default).2

theorem vec_of_rest {t : Ty} (ht : Reads t) {ys : List t.Val} (hw : r.Whole) (hok : r.u.ok = true)
    (h : r.rest = Ty.bytes (.vec t) ys ++ l) : (get (.vec t) r (Ty.default (.vec t))).1 = ys ∧
      Took r (Ty.bytes (.vec t) ys) (get (.vec t) r (Ty.default (.vec t))).2 := by
  have h : r.rest = BigEndian.bytes (UInt32.ofNat ys.length) ++ (ys.flatMap t.bytes ++ l) := by
    rw [h, Ty.bytes, List.append_assoc]
  obtain ⟨hn, tn⟩ := getUint_of_rest hw hok h
  have hr := tn.rest_eq h
  obtain ⟨hv, tv⟩ := loop_of_rest (f := fun (v : List t.Val) r => (v ++ [(get t r t.default).1],
    (get t r t.default).2)) (h := fun v z => v ++ [z]) (x := []) (fun v z r l hw hok h => by
      obtain ⟨hz, tz⟩ := ht r z l hw hok h
      exact ⟨by rw [hz], tz⟩) (tn.whole hw) tn.ok hr
  have hlen := toNat_length_of_rest t.bytes_ne_nil _ (tn.whole hw) hr
  rw [← hn] at hlen
  rw [← hlen] at hv tv
  refine ⟨hv.trans ?_, tn.trans tv⟩
  rw [List.foldl_append_eq_append, List.nil_append, ← List.flatMap_def, List.flatMap_singleton']

theorem map_of_rest {a b : Ty} (ha : Reads a) (hb : Reads b) {d : SortedMap a.Val b.Val} (hw : r.Whole)
    (hok : r.u.ok = true) (h : r.rest = Ty.bytes (.map a b) d ++ l) :
    (get (.map a b) r (Ty.default (.map a b))).1 = d ∧
      Took r (Ty.bytes (.map a b) d) (get (.map a b) r (Ty.default (.map a b))).2 := by
  have h : r.rest = BigEndian.bytes (UInt32.ofNat d.entries.length) ++
      (d.entries.flatMap (fun y => a.bytes y.1 ++ b.bytes y.2) ++ l) := by
    rw [h, Ty.bytes, List.append_assoc]
  obtain ⟨hn, tn⟩ := getUint_of_rest hw hok h
  have hr := tn.rest_eq h
  obtain ⟨hv, tv⟩ := loop_of_rest (f := fun (d : SortedMap a.Val b.Val) r =>
    (d.assign (get a r a.default).1 (get b (get a r a.default).2 b.default).1,
      (get b (get a r a.default).2 b.default).2)) (h := fun d y => d.assign y.1 y.2) (x := .empty)
    (fun d y r l hw hok h => by
      rw [List.append_assoc] at h
      obtain ⟨hx, tx⟩ := ha r y.1 _ hw hok h
      obtain ⟨hy, ty⟩ := hb _ y.2 _ (tx.whole hw) tx.ok (tx.rest_eq h)
      exact ⟨by rw [hx, hy], tx.trans ty⟩) (tn.whole hw) tn.ok hr
  have hlen := toNat_length_of_rest (fun y => by simp [a.bytes_ne_nil]) _ (tn.whole hw) hr
  rw [← hn] at hlen
  rw [← hlen] at hv tv
  exact ⟨hv.trans (SortedMap.foldl_assign d), tn.trans tv⟩

theorem get_of_rest (t : Ty) {x : t.Val} (hw : r.Whole) (hok : r.u.ok = true)
    (h : r.rest = t.bytes x ++ l) :
    (get t r t.default).1 = x ∧ Took r (t.bytes x) (get t r t.default).2 := by
  induction t generalizing r l with
  | bool =>
      obtain ⟨hv, t⟩ := rawbyte_of_drop hw hok h
      exact ⟨(congrArg (· != 0) hv).trans (bool_widen x), t⟩
  | char =>
      obtain ⟨hv, t⟩ := rawbyte_of_drop hw hok h
      refine ⟨(congrArg (fun a => a.toUInt8.toInt8) hv).trans ?_, t⟩
      rw [toUInt8_widen]
      exact Int8.toInt8_toUInt8 x
  | uchar =>
      obtain ⟨hv, t⟩ := rawbyte_of_drop hw hok h
      exact ⟨(congrArg UInt32.toUInt8 hv).trans (toUInt8_widen x), t⟩
  | short =>
      obtain ⟨hv, t⟩ := getUshort_of_rest hw hok h
      exact ⟨(congrArg UInt16.toInt16 hv).trans (Int16.toInt16_toUInt16 x), t⟩
  | ushort => exact getUshort_of_rest hw hok h
  | int =>
      obtain ⟨hv, t⟩ := getUint_of_rest hw hok h
      exact ⟨(congrArg UInt32.toInt32 hv).trans (Int32.toInt32_toUInt32 x), t⟩
  | uint => exact getUint_of_rest hw hok h
  | ulonglong => exact getUlonglong_of_rest hw hok h
  | string => exact getString_of_rest hw hok h
  | vec t ih => exact vec_of_rest (fun _ _ _ hw hok h => ih hw hok h) hw hok h
  | map a b iha ihb =>
      exact map_of_rest (fun _ _ _ hw hok h => iha hw hok h) (fun _ _ _ hw hok h => ihb hw hok h) hw hok h

/-- A good read takes the encoding of the value it gives. -/
theorem get_of_ok (t : Ty) (ht : t.Exact) (hw : r.Whole) (hok : (get t r t.default).2.u.ok = true) :
    Took r (t.bytes (get t r t.default).1) (get t r t.default).2 := by
  induction t generalizing r with
  | bool => exact ht.elim
  | char =>
      obtain ⟨c, hv, t⟩ := rawbyte_of_ok hw hok
      have hc : r.getChar.1.toUInt8 = c := by
        rw [← toUInt8_widen c, ← hv]
        exact UInt8.toUInt8_toInt8 _
      rw [← hc] at t
      exact t
  | uchar =>
      obtain ⟨c, hv, t⟩ := rawbyte_of_ok hw hok
      have hc : r.getUchar.1 = c := by
        rw [← toUInt8_widen c, ← hv]
        rfl
      rw [← hc] at t
      exact t
  | short =>
      have t := getUshort_of_ok hw hok
      rw [← UInt16.toUInt16_toInt16 r.getUshort.1] at t
      exact t
  | ushort => exact getUshort_of_ok hw hok
  | int =>
      have t := getUint_of_ok hw hok
      rw [← UInt32.toUInt32_toInt32 r.getUint.1] at t
      exact t
  | uint => exact getUint_of_ok hw hok
  | ulonglong => exact getUlonglong_of_ok hw hok
  | string => exact getString_of_ok hw hok
  | vec t ih =>
      have hw' : r.getUint.2.Whole := getUint_preserves (P := Whole) (fun _ h => h.rawbyte) hw
      obtain ⟨w, hlen, hv, tw⟩ := loop_of_ok (f := fun r => get t r t.default) (fun r hw hok => ih ht hw hok)
        (fun r hw => get_whole t _ hw) r.getUint.1.toNat [] hw' hok
      have tn := getUint_of_ok hw tw.before
      have hval : (get (.vec t) r (Ty.default (.vec t))).1 = w := hv
      rw [hval]
      have hn : UInt32.ofNat w.length = r.getUint.1 := by rw [hlen, UInt32.ofNat_toNat]
      rw [← hn] at tn
      exact tn.trans tw
  | map a b => exact ht.elim

end Reading
end StanDfs
