import StanDfs.Marshall.Decode

/-!
# The round trip of a message

What was marshalled around a header is unmarshalled after it.
-/

namespace StanDfs

open Memory (put)

/-- A value of any type. -/
abbrev Item := Sigma Ty.Val

inductive Header
  | req (h : ReqHeader)
  | reply (h : ReplyHeader)
  deriving DecidableEq, Repr

namespace Header

def bytes : Header → Bytes
  | .req h => h.bytes
  | .reply h => h.bytes

def pack (m : Marshall) : Header → Marshall
  | .req h => m.packReqHeader h
  | .reply h => m.packReplyHeader h

/-- The header of the same kind that is unpacked. -/
def unpack (r : Reading) : Header → Header × Reading
  | .req _ => (.req r.unpackReqHeader.1, r.unpackReqHeader.2)
  | .reply _ => (.reply r.unpackReplyHeader.1, r.unpackReplyHeader.2)

theorem length_bytes (h : Header) : rpcSz + h.bytes.length ≤ rpcHeaderSz := by
  cases h with
  | req h => exact Nat.le_refl 24
  | reply h => exact show 4 + 8 ≤ 24 by decide

theorem pack_eq {m : Marshall} (h : Header) (hm : m.Ok) (hc : rpcHeaderSz ≤ m.capa) :
    pack m h = { m with buf := put m.buf rpcSz h.bytes } := by
  cases h with
  | req h => exact Marshall.packReqHeader_eq h hm hc
  | reply h => exact Marshall.packReplyHeader_eq h hm hc

theorem unpack_bytes {pre : Bytes} (rest : Bytes) (h : Header) (hp : pre.length = 4) :
    (unpack (.ofBuf (pre ++ h.bytes ++ rest)) h).1 = h ∧
      (unpack (.ofBuf (pre ++ h.bytes ++ rest)) h).2.u
        = { Unmarshall.ofBuf (pre ++ h.bytes ++ rest) with ind := rpcHeaderSz } := by
  cases h with
  | req h =>
      have he := (Reading.unpackReqHeader_u (.ofBuf (pre ++ h.bytes ++ rest))).symm.trans
        (Unmarshall.unpackReqHeader_bytes h hp)
      exact ⟨congrArg Header.req (congrArg Prod.fst he), congrArg Prod.snd he⟩
  | reply h =>
      have he := (Reading.unpackReplyHeader_u (.ofBuf (pre ++ h.bytes ++ rest))).symm.trans
        (Unmarshall.unpackReplyHeader_bytes h hp)
      exact ⟨congrArg Header.reply (congrArg Prod.fst he), congrArg Prod.snd he⟩

end Header

/-- The encodings of values, one after the other. -/
def encode (xs : List Item) : Bytes := xs.flatMap fun x => x.1.bytes x.2

namespace Marshall

/-- `m << x₁; m << x₂; …` -/
def write (m : Marshall) (xs : List Item) : Marshall := xs.foldl (fun m x => put x.1 m x.2) m

/-- The header is packed after the values `xs` and before the values `ys`. -/
def message (h : Header) (xs ys : List Item) : Marshall := (Header.pack (new.write xs) h).write ys

theorem wrote_write {m : Marshall} (xs : List Item) (h : m.Ok) (hc : 0 < m.capa) :
    Wrote m (encode xs) (m.write xs) :=
  wrote_foldl (fun _ x h hc => wrote_put x.1 x.2 h hc) xs h hc

/-- Packing a header leaves everything but its own bytes alone. -/
theorem pack_frame {m : Marshall} (h : Header) (hm : m.Ok) (hi : rpcHeaderSz ≤ m.ind) :
    (Header.pack m h).Ok ∧ (Header.pack m h).capa = m.capa ∧ (Header.pack m h).ind = m.ind ∧
      (Header.pack m h).cstr = Memory.put m.cstr rpcSz h.bytes := by
  have hl := h.length_bytes
  have hind := hm.ind
  have hlen : rpcSz + h.bytes.length ≤ m.buf.length := by
    rw [hm.capa]
    omega
  rw [Header.pack_eq h hm (Nat.le_trans hi hind)]
  refine ⟨⟨(Memory.length_put hlen).trans hm.capa, hind⟩, rfl, rfl, ?_⟩
  exact Memory.take_put (by simp only; omega) (by rw [hm.capa]; exact hind)

theorem message_spec (h : Header) (xs ys : List Item) :
    (message h xs ys).cstr = Memory.put (new.cstr ++ encode xs) rpcSz h.bytes ++ encode ys ∧
      (message h xs ys).capa ≤ max 1024 (2 * (message h xs ys).cstr.length) := by
  have h₁ := wrote_write xs new_ok (by decide)
  have hi : rpcHeaderSz ≤ (new.write xs).ind := by
    rw [h₁.ind]
    exact Nat.le_add_right _ _
  obtain ⟨hok, hcapa, hind, hcstr⟩ := pack_frame h h₁.ok hi
  have hc : 1024 ≤ (Header.pack (new.write xs) h).capa := hcapa ▸ h₁.mono
  have h₂ := wrote_write ys hok (Nat.lt_of_lt_of_le (by decide) hc)
  have hlen : (message h xs ys).cstr.length = (message h xs ys).ind := by
    exact List.length_take_of_le (Nat.le_trans h₂.ok.ind (Nat.le_of_eq h₂.ok.capa.symm))
  constructor
  · rw [message, h₂.cstr, hcstr, h₁.cstr]
  · have hr₁ : (new.write xs).capa ≤ max 1024 (2 * (new.write xs).ind) := h₁.room
    have hr₂ : (message h xs ys).capa ≤ max _ (2 * (message h xs ys).ind) := h₂.room
    have hle : (message h xs ys).ind = _ := h₂.ind
    rw [hlen]
    omega

end Marshall

namespace Reading

/-- The values that are read one after the other. -/
def items (r : Reading) : List Ty → List Item × Reading
  | [] => ([], r)
  | t :: ts =>
    let (x, r) := get t r t.default
    let (xs, r) := items r ts
    (⟨t, x⟩ :: xs, r)

theorem items_of_rest {r : Reading} {xs : List Item} {l : Bytes} (hw : r.Whole) (hok : r.u.ok = true)
    (h : r.rest = encode xs ++ l) :
    (items r (xs.map Sigma.fst)).1 = xs ∧ Took r (encode xs) (items r (xs.map Sigma.fst)).2 := by
  induction xs generalizing r with
  | nil => exact ⟨rfl, .refl hok⟩
  | cons x xs ih =>
      rw [encode, List.flatMap_cons, List.append_assoc] at h
      obtain ⟨hx, tx⟩ := get_of_rest x.1 hw hok h
      obtain ⟨hxs, txs⟩ := ih (tx.whole hw) tx.ok (tx.rest_eq h)
      refine ⟨?_, tx.trans txs⟩
      show (⟨x.1, _⟩ : Item) :: (items _ (xs.map Sigma.fst)).1 = x :: xs
      rw [hx, hxs]

/-- A message below 2³⁰ bytes is unmarshalled to its header and its values. Its capacity, an `int`, has not
overflowed, and `okdone` holds just when all that is left has an empty encoding. -/
theorem round_trip (h : Header) (xs ys : List Item)
    (hsz : (Marshall.message h xs ys).cstr.length < 2 ^ 30) :
    (Marshall.message h xs ys).capa < 2 ^ 31 ∧
      (h.unpack (ofBuf (Marshall.message h xs ys).cstr)).1 = h ∧
      ∀ as bs, xs ++ ys = as ++ bs →
        let (vs, r) := items (h.unpack (ofBuf (Marshall.message h xs ys).cstr)).2 (as.map Sigma.fst)
        vs = as ∧ r.u.ok = true ∧ (r.u.okdone = true ↔ encode bs = []) := by
  obtain ⟨hcstr, hcapa⟩ := Marshall.message_spec h xs ys
  have hlen : (Marshall.new.cstr ++ encode xs).length = 24 + (encode xs).length := by
    rw [List.length_append]
    rfl
  refine ⟨by omega, ?_⟩
  generalize (Marshall.message h xs ys).cstr = buf at *
  -- The header stands after the four bytes of the size.
  have hsplit : buf = (Marshall.new.cstr ++ encode xs).take rpcSz ++ h.bytes ++
      ((Marshall.new.cstr ++ encode xs).drop (rpcSz + h.bytes.length) ++ encode ys) := by
    rw [hcstr, Memory.put, List.append_assoc]
  have hpre : ((Marshall.new.cstr ++ encode xs).take rpcSz).length = 4 := by
    rw [List.length_take, hlen]
    simp [rpcSz]
    omega
  obtain ⟨hh, hu⟩ := Header.unpack_bytes ((Marshall.new.cstr ++ encode xs).drop
    (rpcSz + h.bytes.length) ++ encode ys) h hpre
  rw [← hsplit] at hh hu
  refine ⟨hh, fun as bs hab => ?_⟩
  -- The values stand after the header.
  have hl := h.length_bytes
  have hlp : (Memory.put (Marshall.new.cstr ++ encode xs) rpcSz h.bytes).length = 24 + (encode xs).length := by
    rw [Memory.length_put (by rw [hlen]; simp only [rpcHeaderSz, rpcSz] at hl ⊢; omega), hlen]
  have hdrop : buf.drop rpcHeaderSz = encode as ++ encode bs := by
    have hd : (Memory.put (Marshall.new.cstr ++ encode xs) rpcSz h.bytes).drop rpcHeaderSz = encode xs := by
      rw [Memory.drop_put hl (by rw [hlen]; simp only [rpcHeaderSz, rpcSz] at hl ⊢; omega)]
      exact List.drop_left' rfl
    rw [hcstr, List.drop_append_of_le_length (by rw [hlp]; simp [rpcHeaderSz, rpcSz]), hd,
      encode, encode, ← List.flatMap_append, hab, List.flatMap_append]
    rfl
  have hsize : buf.length = 24 + (encode as).length + (encode bs).length := by
    have := congrArg List.length hdrop
    rw [List.length_drop, List.length_append] at this
    have hle : 24 ≤ buf.length := by
      rw [hcstr, List.length_append, hlp]
      omega
    simp only [rpcHeaderSz, rpcSz] at this
    omega
  generalize (h.unpack (ofBuf buf)).2 = r at hu
  have hw : r.Whole := by
    constructor
    · rw [hu]
      rfl
    · rw [hu]
      exact Nat.lt_trans hsz (by decide)
  have hrest : r.rest = encode as ++ encode bs := by
    rw [Reading.rest, hu]
    exact hdrop
  obtain ⟨hv, tv⟩ := items_of_rest hw (by rw [hu]; rfl) hrest
  refine ⟨hv, tv.ok, ?_⟩
  have hind : (items r (as.map Sigma.fst)).2.u.ind = 24 + (encode as).length := by
    rw [tv.ind, hu]
    rfl
  have hsz' : (items r (as.map Sigma.fst)).2.u.sz = buf.length := by
    rw [tv.sz, hu]
    rfl
  rw [Unmarshall.okdone, tv.ok, hind, hsz', hsize, Bool.true_and, beq_iff_eq, ← List.length_eq_zero_iff]
  omega

/-- A vector of strings, a header, and a map. -/
theorem round_trip_vector_map :
    let x : Item := ⟨.vec .string, ([[104, 105], []] : List Bytes)⟩
    let d : SortedMap (Ty.Val .char) (Ty.Val .bool) := .empty
    let y : Item := ⟨.map .char .bool, (d.assign (5 : Int8) false).assign (-1 : Int8) true⟩
    let h : Header := .req ⟨1, 2, 3, 4, 5⟩
    (h.unpack (ofBuf (Marshall.message h [x] [y]).cstr)).1 = h ∧
      (items (h.unpack (ofBuf (Marshall.message h [x] [y]).cstr)).2 [x.1, y.1]).1 = [x, y] := by
  intro x d y h
  obtain ⟨-, hh, hv⟩ := round_trip h [x] [y] (by decide +kernel)
  exact ⟨hh, (hv [x, y] [] rfl).1⟩

end Reading
end StanDfs
