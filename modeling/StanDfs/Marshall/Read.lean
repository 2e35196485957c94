import StanDfs.Marshall.Write

/-!
# `operator>>`

What an `unmarshall` makes of a buffer. Every access to the buffer is recorded.
-/

namespace StanDfs

/-- What a primitive read does with the buffer. -/
inductive Access
  /-- `_buf[i]` is read. -/
  | byte (i : Nat)
  /-- There is no byte left. -/
  | short
  /-- `rawbytes` is asked for the `n` bytes at `_buf + i`, and takes them or not. -/
  | str (i : Nat) (n : UInt32) (taken : Bool)
  deriving DecidableEq, Repr

structure Reading where
  u : Unmarshall
  log : List Access
  deriving DecidableEq, Repr

namespace Reading

/-- `unmarshall(b, sz)` -/
def ofBuf (b : Bytes) : Reading := ⟨.ofBuf b, []⟩

def rawbyte (r : Reading) : UInt32 × Reading :=
  let (c, u) := r.u.rawbyte
  (c, ⟨u, r.log ++ [if r.u.ind ≥ r.u.sz then .short else .byte r.u.ind]⟩)

/-- The sum is one of `unsigned int`s. Where it wraps, the copy leaves the buffer: that is undefined, and
counts as a failed read from there on. -/
def rawbytes (r : Reading) (s : Bytes) (n : UInt32) : Bytes × Reading :=
  let i := r.u.ind
  if UInt32.ofNat i + n > UInt32.ofNat r.u.sz then
    (s, ⟨{ r.u with ok := false }, r.log ++ [.str i n false]⟩)
  else if i + n.toNat ≤ r.u.sz then
    ((r.u.buf.drop i).take n.toNat, ⟨{ r.u with ind := i + n.toNat }, r.log ++ [.str i n true]⟩)
  else (s, ⟨{ r.u with ok := false }, r.log ++ [.str i n true]⟩)

def getBool (r : Reading) : Bool × Reading :=
  let (a, r) := r.rawbyte
  (a != 0, r)

def getUchar (r : Reading) : UInt8 × Reading :=
  let (a, r) := r.rawbyte
  (a.toUInt8, r)

def getChar (r : Reading) : Int8 × Reading :=
  let (a, r) := r.rawbyte
  (a.toUInt8.toInt8, r)

def getUshort (r : Reading) : UInt16 × Reading :=
  let (a, r) := r.rawbyte
  let (b, r) := r.rawbyte
  (((a &&& 0xff) <<< 8).toUInt16 ||| (b &&& 0xff).toUInt16, r)

def getShort (r : Reading) : Int16 × Reading :=
  let (x, r) := r.getUshort
  (x.toInt16, r)

def getUint (r : Reading) : UInt32 × Reading :=
  let (a, r) := r.rawbyte
  let (b, r) := r.rawbyte
  let (c, r) := r.rawbyte
  let (d, r) := r.rawbyte
  ((a &&& 0xff) <<< 24 ||| (b &&& 0xff) <<< 16 ||| (c &&& 0xff) <<< 8 ||| (d &&& 0xff), r)

/-- `unpack` has the same body. -/
def getInt (r : Reading) : Int32 × Reading :=
  let (x, r) := r.getUint
  (x.toInt32, r)

def getUlonglong (r : Reading) : UInt64 × Reading :=
  let (h, r) := r.getUint
  let (l, r) := r.getUint
  (l.toUInt64 ||| h.toUInt64 <<< 32, r)

def getString (r : Reading) (s : Bytes) : Bytes × Reading :=
  let (n, r) := r.getUint
  if r.u.ok then r.rawbytes s n else (s, r)

/-- `n` rounds of a loop. They go on after a read has failed. -/
def loop {α : Type} (f : α → Reading → α × Reading) : Nat → α → Reading → α × Reading
  | 0, x, r => (x, r)
  | n + 1, x, r =>
    let (x, r) := f x r
    loop f n x r

/-- `u >> x`, where `x` holds a value already. -/
def get : (t : Ty) → Reading → t.Val → t.Val × Reading
  | .bool => fun r _ => r.getBool
  | .char => fun r _ => r.getChar
  | .uchar => fun r _ => r.getUchar
  | .short => fun r _ => r.getShort
  | .ushort => fun r _ => r.getUshort
  | .int => fun r _ => r.getInt
  | .uint => fun r _ => r.getUint
  | .ulonglong => fun r _ => r.getUlonglong
  | .string => fun r (s : Bytes) => r.getString s
  | .vec t => fun r (v : List t.Val) =>
    let (n, r) := r.getUint
    loop (fun (v : List t.Val) r => let (z, r) := get t r t.default; (v ++ [z], r)) n.toNat v r
  | .map a b => fun r _ =>
    let (n, r) := r.getUint
    loop (fun (d : SortedMap a.Val b.Val) r =>
      let (x, r) := get a r a.default
      let (y, r) := get b r b.default
      (d.assign x y, r)) n.toNat .empty r

def seek (r : Reading) (i : Nat) : Reading := { r with u := { r.u with ind := i } }

def unpackReqHeader (r : Reading) : ReqHeader × Reading :=
  let r := r.seek rpcSz
  let (xid, r) := r.getInt
  let (proc, r) := r.getInt
  let (cltNonce, r) := r.getInt
  let (srvNonce, r) := r.getInt
  let (xidRep, r) := r.getInt
  (⟨xid, proc, cltNonce.toUInt32, srvNonce.toUInt32, xidRep⟩, r.seek rpcHeaderSz)

def unpackReplyHeader (r : Reading) : ReplyHeader × Reading :=
  let r := r.seek rpcSz
  let (xid, r) := r.getInt
  let (ret, r) := r.getInt
  (⟨xid, ret⟩, r.seek rpcHeaderSz)

/-! ## Bytes -/

/-- Where the next read is made. -/
def rest (r : Reading) : Bytes := r.u.buf.drop r.u.ind

/-- The buffer is all there, and its size is an `int`. -/
structure Whole (r : Reading) : Prop where
  sz : r.u.sz = r.u.buf.length
  lt : r.u.sz < 2 ^ 31

/-- The step from `r` to `r'` takes the bytes `p` and does not fail. -/
structure Took (r : Reading) (p : Bytes) (r' : Reading) : Prop where
  before : r.u.ok = true
  ok : r'.u.ok = true
  buf : r'.u.buf = r.u.buf
  sz : r'.u.sz = r.u.sz
  ind : r'.u.ind = r.u.ind + p.length
  rest : r.rest = p ++ r'.rest

variable {r r' r'' : Reading} {p q : Bytes}

theorem Took.refl (h : r.u.ok = true) : Took r [] r := ⟨h, h, rfl, rfl, rfl, rfl⟩

theorem Took.trans (h : Took r p r') (h' : Took r' q r'') : Took r (p ++ q) r'' where
  before := h.before
  ok := h'.ok
  buf := h'.buf.trans h.buf
  sz := h'.sz.trans h.sz
  ind := by rw [h'.ind, h.ind, List.length_append, Nat.add_assoc]
  rest := by rw [h.rest, h'.rest, List.append_assoc]

theorem Took.whole (h : Took r p r') (hw : r.Whole) : r'.Whole :=
  ⟨by rw [h.sz, h.buf, hw.sz], by rw [h.sz]; exact hw.lt⟩

theorem Took.rest_eq {l : Bytes} (h : Took r p r') (hr : r.rest = p ++ l) : r'.rest = l :=
  List.append_cancel_left (h.rest.symm.trans hr)

theorem rawbyte_of_drop {c : UInt8} {l : Bytes} (hw : r.Whole) (hok : r.u.ok = true)
    (h : r.rest = c :: l) : r.rawbyte.1 = Unmarshall.widen c ∧ Took r [c] r.rawbyte.2 := by
  obtain ⟨he, hd⟩ := Unmarshall.rawbyte_of_drop hw.sz h
  have hr : r.rawbyte = (Unmarshall.widen c, ⟨{ r.u with ind := r.u.ind + 1 }, r.rawbyte.2.log⟩) := by
    simp only [rawbyte, he]
  rw [hr]
  exact ⟨rfl, hok, hok, rfl, rfl, rfl, by rw [h, Reading.rest, hd]; rfl⟩

theorem rawbyte_of_ok (hw : r.Whole) (hok : r.rawbyte.2.u.ok = true) :
    ∃ c, r.rawbyte.1 = Unmarshall.widen c ∧ Took r [c] r.rawbyte.2 := by
  by_cases hi : r.u.ind ≥ r.u.sz
  · simp [rawbyte, Unmarshall.rawbyte, hi] at hok
  · have hlt : r.u.ind < r.u.buf.length := by
      have := hw.sz
      omega
    have hok' : r.u.ok = true := by simpa [rawbyte, Unmarshall.rawbyte, hi] using hok
    exact ⟨_, rawbyte_of_drop hw hok' (List.drop_eq_getElem_cons hlt)⟩

/-- Without the record of the accesses this is how `dispatch` reads a byte. -/
theorem rawbyte_u (r : Reading) : r.u.rawbyte = (r.rawbyte.1, r.rawbyte.2.u) := rfl

theorem log_rawbyte (r : Reading) :
    r.rawbyte.2.log = r.log ++ [if r.u.ind ≥ r.u.sz then .short else .byte r.u.ind] := rfl

theorem sz_rawbyte (r : Reading) : r.rawbyte.2.u.sz = r.u.sz := by
  show r.u.rawbyte.2.sz = r.u.sz
  unfold Unmarshall.rawbyte
  split <;> rfl

theorem buf_rawbyte (r : Reading) : r.rawbyte.2.u.buf = r.u.buf := by
  show r.u.rawbyte.2.buf = r.u.buf
  unfold Unmarshall.rawbyte
  split <;> rfl

theorem ok_rawbyte (r : Reading) : r.rawbyte.2.u.ok = if r.u.ind ≥ r.u.sz then false else r.u.ok := by
  show r.u.rawbyte.2.ok = _
  unfold Unmarshall.rawbyte
  split <;> rfl

theorem ind_rawbyte (r : Reading) :
    r.rawbyte.2.u.ind = if r.u.ind ≥ r.u.sz then r.u.ind else r.u.ind + 1 := by
  show r.u.rawbyte.2.ind = _
  unfold Unmarshall.rawbyte
  split <;> rfl

theorem Whole.rawbyte (h : r.Whole) : r.rawbyte.2.Whole :=
  ⟨by rw [sz_rawbyte, buf_rawbyte]; exact h.sz, by rw [sz_rawbyte]; exact h.lt⟩

-- From here on a byte is read by the lemmas above only.
attribute [irreducible] rawbyte

/-- The comparison of `rawbytes`, in terms of integers. -/
theorem lt_sum_iff {i sz : Nat} (n : UInt32) (hi : i ≤ sz) (hs : sz < 2 ^ 31) :
    UInt32.ofNat i + n > UInt32.ofNat sz ↔ sz < (i + n.toNat) % 2 ^ 32 := by
  have hi' : (UInt32.ofNat i).toNat = i := by
    simp
    omega
  have hs' : (UInt32.ofNat sz).toNat = sz := by
    simp
    omega
  rw [gt_iff_lt, UInt32.lt_iff_toNat_lt, UInt32.toNat_add, hi', hs']

/-- Without the record of the accesses this is what `dispatch` does. -/
theorem getInt_u (r : Reading) : r.u.unpack = (r.getInt.1, r.getInt.2.u) := by
  simp only [Unmarshall.unpack, rawbyte_u]
  rfl

theorem unpackReqHeader_u (r : Reading) :
    r.u.unpackReqHeader = (r.unpackReqHeader.1, r.unpackReqHeader.2.u) := by
  have h := getInt_u (r.seek rpcSz)
  simp only [seek] at h
  simp only [Unmarshall.unpackReqHeader, h, getInt_u]
  rfl

theorem unpackReplyHeader_u (r : Reading) :
    r.u.unpackReplyHeader = (r.unpackReplyHeader.1, r.unpackReplyHeader.2.u) := by
  have h := getInt_u (r.seek rpcSz)
  simp only [seek] at h
  simp only [Unmarshall.unpackReplyHeader, h, getInt_u]
  rfl

/-! ## What all reads keep -/

section Preserves

variable {P : Reading → Prop}

theorem loop_preserves {α : Type} {f : α → Reading → α × Reading} (hf : ∀ x r, P r → P (f x r).2) (n : Nat)
    (x : α) {r : Reading} (h : P r) : P (loop f n x r).2 := by
  induction n generalizing x r with
  | zero => exact h
  | succ n ih => exact ih _ (hf x r h)

theorem getUint_preserves (hb : ∀ r, P r → P r.rawbyte.2) {r : Reading} (h : P r) : P r.getUint.2 :=
  hb _ (hb _ (hb _ (hb _ h)))

theorem get_preserves (hb : ∀ r, P r → P r.rawbyte.2) (hs : ∀ r s, P r → P (r.getString s).2) (t : Ty)
    {r : Reading} (x : t.Val) (h : P r) : P (get t r x).2 := by
  induction t generalizing r with
  | bool => exact hb _ h
  | char => exact hb _ h
  | uchar => exact hb _ h
  | short => exact hb _ (hb _ h)
  | ushort => exact hb _ (hb _ h)
  | int => exact getUint_preserves hb h
  | uint => exact getUint_preserves hb h
  | ulonglong => exact getUint_preserves hb (getUint_preserves hb h)
  | string => exact hs _ _ h
  | vec t ih =>
      refine loop_preserves ?_ _ _ (getUint_preserves hb h)
      intro v r h
      exact ih _ h
  | map a b iha ihb =>
      refine loop_preserves ?_ _ _ (getUint_preserves hb h)
      intro d r h
      exact ihb _ (iha _ h)

end Preserves

end Reading
end StanDfs
