import Mathlib.Data.List.Induction
import StanDfs.Marshall.Write

/-!
# The growth of the buffer

The writes of `marshall` once more, with every `int` expression checked for an overflow and every index
for the capacity in force when it is written at.
-/

namespace StanDfs

namespace Marshall

/-- The value of an `int` expression, if it does not overflow. -/
def int (n : Nat) : Option Nat := if n < 2 ^ 31 then some n else none

def rawbyteChecked (m : Marshall) (x : UInt8) : Option Marshall := do
  let m ← if m.ind ≥ m.capa then (int (2 * m.capa)).map m.realloc else some m
  let ind ← int (m.ind + 1)
  if m.ind < m.capa then some { m with buf := m.buf.set m.ind x, ind := ind } else none

def rawbytesChecked (m : Marshall) (p : Bytes) : Option Marshall := do
  let n ← int p.length
  let last ← int (m.ind + n)
  let m ← if last > m.capa then
      (int (if m.capa > n then 2 * m.capa else m.capa + n)).map m.realloc
    else some m
  let ind ← int (m.ind + n)
  if m.ind + n ≤ m.capa then some { m with buf := Memory.put m.buf m.ind p, ind := ind } else none

def packChecked (m : Marshall) (x : Int32) : Option Marshall := do
  let m ← m.rawbyteChecked ((x >>> 24) &&& 0xff).toUInt32.toUInt8
  let m ← m.rawbyteChecked ((x >>> 16) &&& 0xff).toUInt32.toUInt8
  let m ← m.rawbyteChecked ((x >>> 8) &&& 0xff).toUInt32.toUInt8
  m.rawbyteChecked (x &&& 0xff).toUInt32.toUInt8

def packReqHeaderChecked (m : Marshall) (h : ReqHeader) : Option Marshall := do
  let saved := m.ind
  let m ← packChecked { m with ind := rpcSz } h.xid
  let m ← m.packChecked h.proc
  let m ← m.packChecked h.cltNonce.toInt32
  let m ← m.packChecked h.srvNonce.toInt32
  let m ← m.packChecked h.xidRep
  some { m with ind := saved }

def packReplyHeaderChecked (m : Marshall) (h : ReplyHeader) : Option Marshall := do
  let saved := m.ind
  let m ← packChecked { m with ind := rpcSz } h.xid
  let m ← m.packChecked h.ret
  some { m with ind := saved }

/-- What is done with a `marshall` before `take_buf`. -/
inductive Op
  | rawbyte (x : UInt8)
  | rawbytes (p : Bytes)
  | packReqHeader (h : ReqHeader)
  | packReplyHeader (h : ReplyHeader)

namespace Op

/-- The bytes an operation adds to the body. -/
def body : Op → Bytes
  | .rawbyte x => [x]
  | .rawbytes p => p
  | .packReqHeader _ => []
  | .packReplyHeader _ => []

def apply (m : Marshall) : Op → Marshall
  | .rawbyte x => m.rawbyte x
  | .rawbytes p => m.rawbytes p
  | .packReqHeader h => m.packReqHeader h
  | .packReplyHeader h => m.packReplyHeader h

def applyChecked (m : Marshall) : Op → Option Marshall
  | .rawbyte x => m.rawbyteChecked x
  | .rawbytes p => m.rawbytesChecked p
  | .packReqHeader h => m.packReqHeaderChecked h
  | .packReplyHeader h => m.packReplyHeaderChecked h

end Op

/-- A new `marshall` after the operations. -/
def run (ops : List Op) : Marshall := ops.foldl Op.apply new

def runChecked (ops : List Op) : Option Marshall := ops.foldlM Op.applyChecked new

/-- Between two operations: the write head is behind the body and within the capacity, which never gets
smaller than a header. -/
structure Grown (m : Marshall) (body : Bytes) : Prop where
  ok : m.Ok
  capa : rpcHeaderSz ≤ m.capa
  ind : m.ind = rpcHeaderSz + body.length
  content : m.cstr.drop rpcHeaderSz = body

variable {m m' : Marshall} {body p : Bytes} {op : Op}

/-! ## No check fails -/

theorem int_of_lt {n : Nat} (h : n < 2 ^ 31) : int n = some n := if_pos h

/-- The capacity is doubled only when the write head has come up to it. -/
theorem rawbyteChecked_eq (x : UInt8) (h : m.Ok) (hc : 0 < m.capa) (hlt : m.ind + 1 < 2 ^ 30) :
    m.rawbyteChecked x = some (m.rawbyte x) := by
  have hi := h.ind
  unfold rawbyteChecked rawbyte
  by_cases hg : m.ind ≥ m.capa
  · have h₁ : int (2 * m.capa) = some (2 * m.capa) := int_of_lt (by omega)
    have h₂ : int (m.ind + 1) = some (m.ind + 1) := int_of_lt (by omega)
    have hlt : m.ind < 2 * m.capa := by omega
    simp [hg, h₁, h₂, realloc, hlt]
  · have h₂ : int (m.ind + 1) = some (m.ind + 1) := int_of_lt (by omega)
    have hlt : m.ind < m.capa := Nat.not_le.mp hg
    simp [hg, h₂, hlt]

/-- One `realloc` is enough for the whole copy. -/
theorem rawbytesChecked_eq (p : Bytes) (h : m.Ok) (hlt : m.ind + p.length < 2 ^ 30) :
    m.rawbytesChecked p = some (m.rawbytes p) := by
  have hi := h.ind
  have h₁ : int p.length = some p.length := int_of_lt (by omega)
  have h₂ : int (m.ind + p.length) = some (m.ind + p.length) := int_of_lt (by omega)
  unfold rawbytesChecked rawbytes
  by_cases hg : m.ind + p.length > m.capa
  · by_cases hn : m.capa > p.length
    · have h₃ : int (2 * m.capa) = some (2 * m.capa) := int_of_lt (by omega)
      have hle : m.ind + p.length ≤ 2 * m.capa := by omega
      simp [h₁, h₂, h₃, hg, hn, realloc, hle]
    · have h₃ : int (m.capa + p.length) = some (m.capa + p.length) := int_of_lt (by omega)
      have hle : m.ind ≤ m.capa := hi
      simp [h₁, h₂, h₃, hg, hn, realloc, hle]
  · have hle : m.ind + p.length ≤ m.capa := Nat.not_lt.mp hg
    simp [h₁, h₂, hg, hle]

/-- What is left for the next byte. -/
theorem byte_step (x : UInt8) (h : m.Ok) (hc : 0 < m.capa) (hlt : m.ind + 1 < 2 ^ 30) :
    m.rawbyteChecked x = some (m.rawbyte x) ∧ (m.rawbyte x).Ok ∧ 0 < (m.rawbyte x).capa ∧
      (m.rawbyte x).ind = m.ind + 1 := by
  have hw := wrote_rawbyte x h hc
  exact ⟨rawbyteChecked_eq x h hc hlt, hw.ok, Nat.lt_of_lt_of_le hc hw.mono, hw.ind⟩

theorem packChecked_eq (x : Int32) (h : m.Ok) (hc : 0 < m.capa) (hlt : m.ind + 4 < 2 ^ 30) :
    m.packChecked x = some (m.pack x) ∧ (m.pack x).Ok ∧ 0 < (m.pack x).capa ∧
      (m.pack x).ind = m.ind + 4 := by
  obtain ⟨e₁, h₁, c₁, i₁⟩ := byte_step ((x >>> 24) &&& 0xff).toUInt32.toUInt8 h hc (by omega)
  obtain ⟨e₂, h₂, c₂, i₂⟩ := byte_step ((x >>> 16) &&& 0xff).toUInt32.toUInt8 h₁ c₁ (by omega)
  obtain ⟨e₃, h₃, c₃, i₃⟩ := byte_step ((x >>> 8) &&& 0xff).toUInt32.toUInt8 h₂ c₂ (by omega)
  obtain ⟨e₄, h₄, c₄, i₄⟩ := byte_step (x &&& 0xff).toUInt32.toUInt8 h₃ c₃ (by omega)
  unfold packChecked pack
  refine ⟨?_, h₄, c₄, by simp only; omega⟩
  simp only [e₁, e₂, e₃, e₄, Option.bind_eq_bind, Option.bind_some]

theorem headed_ok (h : m.Ok) (hc : rpcHeaderSz ≤ m.capa) :
    ({ m with ind := rpcSz } : Marshall).Ok ∧ 0 < m.capa := by
  unfold rpcHeaderSz rpcSz at hc
  exact ⟨⟨h.capa, by simp [rpcSz]; omega⟩, by omega⟩

theorem packReqHeaderChecked_eq (hd : ReqHeader) (h : m.Ok) (hc : rpcHeaderSz ≤ m.capa) :
    m.packReqHeaderChecked hd = some (m.packReqHeader hd) := by
  obtain ⟨h₀, c₀⟩ := headed_ok h hc
  have i₀ : ({ m with ind := rpcSz } : Marshall).ind = 4 := rfl
  obtain ⟨e₁, h₁, c₁, i₁⟩ := packChecked_eq hd.xid h₀ c₀ (by omega)
  obtain ⟨e₂, h₂, c₂, i₂⟩ := packChecked_eq hd.proc h₁ c₁ (by omega)
  obtain ⟨e₃, h₃, c₃, i₃⟩ := packChecked_eq hd.cltNonce.toInt32 h₂ c₂ (by omega)
  obtain ⟨e₄, h₄, c₄, i₄⟩ := packChecked_eq hd.srvNonce.toInt32 h₃ c₃ (by omega)
  obtain ⟨e₅, _⟩ := packChecked_eq hd.xidRep h₄ c₄ (by omega)
  unfold packReqHeaderChecked packReqHeader
  simp only [e₁, e₂, e₃, e₄, e₅, Option.bind_eq_bind, Option.bind_some]

theorem packReplyHeaderChecked_eq (hd : ReplyHeader) (h : m.Ok) (hc : rpcHeaderSz ≤ m.capa) :
    m.packReplyHeaderChecked hd = some (m.packReplyHeader hd) := by
  obtain ⟨h₀, c₀⟩ := headed_ok h hc
  have i₀ : ({ m with ind := rpcSz } : Marshall).ind = 4 := rfl
  obtain ⟨e₁, h₁, c₁, i₁⟩ := packChecked_eq hd.xid h₀ c₀ (by omega)
  obtain ⟨e₂, _⟩ := packChecked_eq hd.ret h₁ c₁ (by omega)
  unfold packReplyHeaderChecked packReplyHeader
  simp only [e₁, e₂, Option.bind_eq_bind, Option.bind_some]

/-! ## One operation, and any number of them -/

theorem grown_new : Grown new [] := ⟨new_ok, by decide, rfl, rfl⟩

theorem Grown.length_cstr (h : Grown m body) : m.cstr.length = rpcHeaderSz + body.length := by
  have hi := h.ok.ind
  rw [cstr, List.length_take, h.ok.capa, h.ind]
  rw [h.ind] at hi
  exact Nat.min_eq_left hi

theorem Grown.wrote (h : Grown m body) (hw : Wrote m p m') : Grown m' (body ++ p) where
  ok := hw.ok
  capa := Nat.le_trans h.capa hw.mono
  ind := by rw [hw.ind, h.ind, List.length_append, Nat.add_assoc]
  content := by
    rw [hw.cstr, List.drop_append_of_le_length, h.content]
    rw [h.length_cstr]
    exact Nat.le_add_right _ _

/-- A header lies in front of the body. -/
theorem Grown.header {b : Bytes} (h : Grown m body) (hb : rpcSz + b.length ≤ rpcHeaderSz) :
    Grown { m with buf := Memory.put m.buf rpcSz b } body := by
  have hcapa := h.ok.capa
  have hc := h.capa
  have hi := h.ok.ind
  have hind := h.ind
  refine ⟨⟨?_, hi⟩, hc, hind, ?_⟩
  · rw [Memory.length_put (by omega), hcapa]
  · have hlen := h.length_cstr
    have heq : (Memory.put m.buf rpcSz b).take m.ind = Memory.put m.cstr rpcSz b :=
      Memory.take_put (by omega) (by omega)
    rw [cstr, heq, Memory.drop_put hb (by omega), h.content]

theorem Grown.apply (h : Grown m body) (hlt : rpcHeaderSz + (body ++ op.body).length < 2 ^ 30) :
    op.applyChecked m = some (op.apply m) ∧ Grown (op.apply m) (body ++ op.body) := by
  have hc : 0 < m.capa := Nat.lt_of_lt_of_le (by decide) h.capa
  have hlen : m.ind + op.body.length < 2 ^ 30 := by
    rw [h.ind, Nat.add_assoc, ← List.length_append]
    exact hlt
  cases op with
  | rawbyte x => exact ⟨rawbyteChecked_eq x h.ok hc hlen, h.wrote (wrote_rawbyte x h.ok hc)⟩
  | rawbytes p => exact ⟨rawbytesChecked_eq p h.ok hlen, h.wrote (wrote_rawbytes p h.ok)⟩
  | packReqHeader hd =>
      refine ⟨packReqHeaderChecked_eq hd h.ok h.capa, ?_⟩
      simp only [Op.apply, Op.body, List.append_nil]
      rw [packReqHeader_eq hd h.ok h.capa]
      exact h.header (by rw [ReqHeader.length_bytes]; decide)
  | packReplyHeader hd =>
      refine ⟨packReplyHeaderChecked_eq hd h.ok h.capa, ?_⟩
      simp only [Op.apply, Op.body, List.append_nil]
      rw [packReplyHeader_eq hd h.ok h.capa]
      exact h.header (by rw [ReplyHeader.length_bytes]; decide)

theorem grown_run (ops : List Op) (hlt : rpcHeaderSz + (ops.flatMap Op.body).length < 2 ^ 30) :
    runChecked ops = some (run ops) ∧ Grown (run ops) (ops.flatMap Op.body) := by
  induction ops using List.reverseRecOn with
  | nil => exact ⟨rfl, grown_new⟩
  | append_singleton ops op ih =>
      rw [List.flatMap_append, List.flatMap_singleton] at hlt ⊢
      obtain ⟨he, hg⟩ := ih (by rw [List.length_append] at hlt; omega)
      obtain ⟨he', hg'⟩ := hg.apply hlt
      unfold runChecked run at *
      rw [List.foldlM_append, he, List.foldl_append]
      exact ⟨by simp [he'], hg'⟩

end Marshall

open Marshall

/-- As long as the whole content stays below 2^30 bytes, no `int` overflows and no byte is written at or
behind the capacity, and the body is what was written to it. -/
theorem marshall_grows (ops : List Op) (hlt : rpcHeaderSz + (ops.flatMap Op.body).length < 2 ^ 30)
    (pre : List Op) (hpre : pre <+: ops) :
    runChecked pre = some (run pre) ∧ (run pre).ind ≤ (run pre).capa ∧
      (run pre).ind = rpcHeaderSz + (pre.flatMap Op.body).length ∧
      (run pre).cstr.drop rpcHeaderSz = pre.flatMap Op.body := by
  obtain ⟨rest, rfl⟩ := hpre
  rw [List.flatMap_append, List.length_append] at hlt
  obtain ⟨he, hg⟩ := grown_run pre (by omega)
  exact ⟨he, hg.ok.ind, hg.ind, hg.content⟩

/-- The buffer of 1024 bytes is filled, doubled for one more byte, and made larger by what comes next. -/
theorem marshall_grows_doubled :
    let ops : List Op :=
      [.rawbytes (List.replicate 1000 7), .rawbyte 8, .rawbytes (List.replicate 3000 9), .packReplyHeader ⟨5, 0⟩]
    (run (ops.take 1)).ind = 1024 ∧ (run (ops.take 1)).capa = 1024 ∧ (run (ops.take 2)).capa = 2048 ∧
      (run ops).capa = 5048 ∧
      (run ops).cstr.drop rpcHeaderSz = List.replicate 1000 7 ++ 8 :: List.replicate 3000 9 := by
  intro ops
  have hlen : rpcHeaderSz + (ops.flatMap Op.body).length < 2 ^ 30 := by decide +kernel
  obtain ⟨_, _, hind, _⟩ := marshall_grows ops hlen (ops.take 1) (List.take_prefix 1 ops)
  have hbody : ops.flatMap Op.body = List.replicate 1000 7 ++ 8 :: List.replicate 3000 9 := by decide +kernel
  refine ⟨hind.trans (by decide +kernel), by decide +kernel, by decide +kernel, by decide +kernel, ?_⟩
  rw [(marshall_grows ops hlen ops List.prefix_rfl).2.2.2, hbody]

end StanDfs
