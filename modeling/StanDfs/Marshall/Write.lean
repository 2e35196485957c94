import StanDfs.Marshall.Types

/-!
# `operator<<`

What `marshall` appends for a value, and the room it makes for it.
-/

namespace StanDfs

namespace Marshall

def putBool (m : Marshall) (x : Bool) : Marshall := m.rawbyte x.toUInt8

def putUchar (m : Marshall) (x : UInt8) : Marshall := m.rawbyte x

def putChar (m : Marshall) (x : Int8) : Marshall := m.putUchar x.toUInt8

def putUshort (m : Marshall) (x : UInt16) : Marshall :=
  let m := m.rawbyte ((x >>> 8) &&& 0xff).toUInt8
  m.rawbyte (x &&& 0xff).toUInt8

def putShort (m : Marshall) (x : Int16) : Marshall := m.putUshort x.toUInt16

def putUint (m : Marshall) (x : UInt32) : Marshall :=
  let m := m.rawbyte ((x >>> 24) &&& 0xff).toUInt8
  let m := m.rawbyte ((x >>> 16) &&& 0xff).toUInt8
  let m := m.rawbyte ((x >>> 8) &&& 0xff).toUInt8
  m.rawbyte (x &&& 0xff).toUInt8

def putInt (m : Marshall) (x : Int32) : Marshall := m.putUint x.toUInt32

def putUlonglong (m : Marshall) (x : UInt64) : Marshall :=
  (m.putUint (x >>> 32).toUInt32).putUint x.toUInt32

def putString (m : Marshall) (s : Bytes) : Marshall :=
  (m.putUint (UInt32.ofNat s.length)).rawbytes s

/-- `m << x` -/
def put : (t : Ty) → Marshall → t.Val → Marshall
  | .bool => putBool
  | .char => putChar
  | .uchar => putUchar
  | .short => putShort
  | .ushort => putUshort
  | .int => putInt
  | .uint => putUint
  | .ulonglong => putUlonglong
  | .string => putString
  | .vec t => fun m (v : List t.Val) => v.foldl (put t) (m.putUint (UInt32.ofNat v.length))
  | .map a b => fun m (d : SortedMap a.Val b.Val) =>
    d.entries.foldl (fun m x => put b (put a m x.1) x.2) (m.putUint (UInt32.ofNat d.entries.length))

end Marshall

/-! ## The encoding of a value -/

namespace Ty

/-- What `operator<<` appends for a value. -/
def bytes : (t : Ty) → t.Val → Bytes
  | .bool => fun (x : Bool) => [x.toUInt8]
  | .char => fun (x : Int8) => [x.toUInt8]
  | .uchar => fun (x : UInt8) => [x]
  | .short => fun (x : Int16) => BigEndian.bytes16 x.toUInt16
  | .ushort => fun (x : UInt16) => BigEndian.bytes16 x
  | .int => fun (x : Int32) => BigEndian.bytes x.toUInt32
  | .uint => fun (x : UInt32) => BigEndian.bytes x
  | .ulonglong => fun (x : UInt64) =>
    BigEndian.bytes (x >>> 32).toUInt32 ++ BigEndian.bytes x.toUInt32
  | .string => fun (s : Bytes) => BigEndian.bytes (UInt32.ofNat s.length) ++ s
  | .vec t => fun (v : List t.Val) => BigEndian.bytes (UInt32.ofNat v.length) ++ v.flatMap (bytes t)
  | .map a b => fun (d : SortedMap a.Val b.Val) =>
    BigEndian.bytes (UInt32.ofNat d.entries.length) ++
      d.entries.flatMap fun x => bytes a x.1 ++ bytes b x.2

end Ty

namespace Marshall

/-- The step from `m` to `m'` appends the bytes `p`. The buffer stays within twice what is in it, so that
its capacity, an `int`, does not overflow. -/
structure Wrote (m : Marshall) (p : Bytes) (m' : Marshall) : Prop where
  ok : m'.Ok
  mono : m.capa ≤ m'.capa
  ind : m'.ind = m.ind + p.length
  cstr : m'.cstr = m.cstr ++ p
  room : m'.capa ≤ max m.capa (2 * m'.ind)

variable {m m' m'' : Marshall} {p q : Bytes}

theorem Wrote.refl (h : m.Ok) : Wrote m [] m :=
  ⟨h, Nat.le_refl _, rfl, (List.append_nil _).symm, Nat.le_max_left _ _⟩

theorem Wrote.trans (h : Wrote m p m') (h' : Wrote m' q m'') : Wrote m (p ++ q) m'' where
  ok := h'.ok
  mono := Nat.le_trans h.mono h'.mono
  ind := by rw [h'.ind, h.ind, List.length_append, Nat.add_assoc]
  cstr := by rw [h'.cstr, h.cstr, List.append_assoc]
  room := by
    have := h.room
    have := h'.room
    have := h'.ind
    omega

theorem wrote_rawbyte (x : UInt8) (h : m.Ok) (hc : 0 < m.capa) : Wrote m [x] (m.rawbyte x) := by
  obtain ⟨hcapa, hind⟩ := h
  by_cases hg : m.ind ≥ m.capa
  · have hi : m.ind = m.capa := Nat.le_antisymm hind hg
    have hlen : (m.buf ++ List.replicate (2 * m.capa - m.capa) 0).length = 2 * m.capa := by
      simp
      omega
    simp only [rawbyte, hg, ↓reduceIte, realloc]
    refine ⟨⟨by simpa using hlen, by simp only; omega⟩, by simp only; omega, rfl, ?_, by simp only; omega⟩
    rw [cstr, Memory.set_eq_put x (by omega)]
    exact (Memory.take_put_end (p := [x]) (by omega)).trans
      (by rw [List.take_append_of_le_length (by omega)]; rfl)
  · simp only [rawbyte, hg, ↓reduceIte]
    refine ⟨⟨by simpa using hcapa, by simp only; omega⟩, Nat.le_refl _, rfl, ?_, Nat.le_max_left _ _⟩
    rw [cstr, Memory.set_eq_put x (by omega)]
    exact Memory.take_put_end (p := [x]) (by omega)

theorem wrote_rawbytes (p : Bytes) (h : m.Ok) : Wrote m p (m.rawbytes p) := by
  obtain ⟨hok, hmono, hind, hcstr⟩ := rawbytes_ok p h
  refine ⟨hok, hmono, hind, hcstr, ?_⟩
  have hi := h.ind
  simp only [rawbytes, realloc]
  split
  · simp only
    split <;> omega
  · exact Nat.le_max_left _ _

/-! ## Every `operator<<` appends the encoding -/

theorem low_byte32 (x : UInt32) : (x &&& 0xff).toUInt8 = x.toUInt8 := by
  apply UInt8.toBitVec_inj.mp
  apply BitVec.eq_of_getLsbD_eq
  intro i hi
  simp [hi, byte_mask hi]

theorem masked_bytes (x : UInt32) : [((x >>> 24) &&& 0xff).toUInt8] ++ [((x >>> 16) &&& 0xff).toUInt8] ++
    [((x >>> 8) &&& 0xff).toUInt8] ++ [(x &&& 0xff).toUInt8] = BigEndian.bytes x := by
  simp only [low_byte32]
  rfl

theorem low_byte16 (x : UInt16) : (x &&& 0xff).toUInt8 = x.toUInt8 := by
  apply UInt8.toBitVec_inj.mp
  apply BitVec.eq_of_getLsbD_eq
  intro i hi
  simp [hi, byte_mask hi]

theorem masked_bytes16 (x : UInt16) :
    [((x >>> 8) &&& 0xff).toUInt8] ++ [(x &&& 0xff).toUInt8] = BigEndian.bytes16 x := by
  simp only [low_byte16]
  rfl

theorem wrote_putUshort (x : UInt16) (h : m.Ok) (hc : 0 < m.capa) :
    Wrote m (BigEndian.bytes16 x) (m.putUshort x) := by
  rw [← masked_bytes16]
  have h₁ := wrote_rawbyte ((x >>> 8) &&& 0xff).toUInt8 h hc
  exact h₁.trans (wrote_rawbyte _ h₁.ok (Nat.lt_of_lt_of_le hc h₁.mono))

theorem wrote_putUint (x : UInt32) (h : m.Ok) (hc : 0 < m.capa) :
    Wrote m (BigEndian.bytes x) (m.putUint x) := by
  have h₁ := wrote_rawbyte ((x >>> 24) &&& 0xff).toUInt8 h hc
  have hc₁ := Nat.lt_of_lt_of_le hc h₁.mono
  have h₂ := wrote_rawbyte ((x >>> 16) &&& 0xff).toUInt8 h₁.ok hc₁
  have hc₂ := Nat.lt_of_lt_of_le hc₁ h₂.mono
  have h₃ := wrote_rawbyte ((x >>> 8) &&& 0xff).toUInt8 h₂.ok hc₂
  have hc₃ := Nat.lt_of_lt_of_le hc₂ h₃.mono
  have h₄ := wrote_rawbyte (x &&& 0xff).toUInt8 h₃.ok hc₃
  rw [← masked_bytes]
  exact ((h₁.trans h₂).trans h₃).trans h₄

theorem wrote_putUlonglong (x : UInt64) (h : m.Ok) (hc : 0 < m.capa) :
    Wrote m (BigEndian.bytes (x >>> 32).toUInt32 ++ BigEndian.bytes x.toUInt32) (m.putUlonglong x) := by
  have h₁ := wrote_putUint (x >>> 32).toUInt32 h hc
  exact h₁.trans (wrote_putUint _ h₁.ok (Nat.lt_of_lt_of_le hc h₁.mono))

theorem wrote_putString (s : Bytes) (h : m.Ok) (hc : 0 < m.capa) :
    Wrote m (BigEndian.bytes (UInt32.ofNat s.length) ++ s) (m.putString s) := by
  have h₁ := wrote_putUint (UInt32.ofNat s.length) h hc
  exact h₁.trans (wrote_rawbytes _ h₁.ok)

theorem wrote_foldl {α : Type} {f : Marshall → α → Marshall} {g : α → Bytes}
    (hf : ∀ m x, m.Ok → 0 < m.capa → Wrote m (g x) (f m x)) (l : List α) (h : m.Ok) (hc : 0 < m.capa) :
    Wrote m (l.flatMap g) (l.foldl f m) := by
  induction l generalizing m with
  | nil => exact .refl h
  | cons x l ih =>
      have h₁ := hf m x h hc
      exact h₁.trans (ih h₁.ok (Nat.lt_of_lt_of_le hc h₁.mono))

theorem wrote_put (t : Ty) (x : t.Val) (h : m.Ok) (hc : 0 < m.capa) :
    Wrote m (t.bytes x) (put t m x) := by
  induction t generalizing m with
  | bool => exact wrote_rawbyte _ h hc
  | char => exact wrote_rawbyte _ h hc
  | uchar => exact wrote_rawbyte _ h hc
  | short => exact wrote_putUshort _ h hc
  | ushort => exact wrote_putUshort _ h hc
  | int => exact wrote_putUint _ h hc
  | uint => exact wrote_putUint _ h hc
  | ulonglong => exact wrote_putUlonglong _ h hc
  | string => exact wrote_putString _ h hc
  | vec t ih =>
      have h₁ := wrote_putUint (UInt32.ofNat (show List t.Val from x).length) h hc
      exact h₁.trans (wrote_foldl (fun m x h hc => ih x h hc) x h₁.ok (Nat.lt_of_lt_of_le hc h₁.mono))
  | map a b iha ihb =>
      have h₁ := wrote_putUint (UInt32.ofNat (show SortedMap a.Val b.Val from x).entries.length) h hc
      refine h₁.trans (wrote_foldl (fun m x h hc => ?_) _ h₁.ok (Nat.lt_of_lt_of_le hc h₁.mono))
      have h₂ := iha x.1 h hc
      exact h₂.trans (ihb x.2 h₂.ok (Nat.lt_of_lt_of_le hc h₂.mono))

end Marshall
end StanDfs
