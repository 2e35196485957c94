import Mathlib.Data.List.Basic
import Mathlib.Tactic.IntervalCases
import StanDfs.Lib.BigEndian
import StanDfs.Lib.Memory

/-!
# Marshalling: buffers and RPC headers

`marshall` writes into a growing buffer and `unmarshall` reads one back. The first
`sizeof(rpc_sz_t)` bytes belong to the connection, which fills in the size of the PDU; the header
follows, and the marshalled values start at `RPC_HEADER_SZ`.
-/

namespace StanDfs

open Memory (put)

abbrev Bytes := List UInt8

/-! ## Constants -/

namespace RpcConst

def bind : UInt32 := 1
def timeoutFailure : Int32 := -1
def unmarshalArgsFailure : Int32 := -2
def unmarshalReplyFailure : Int32 := -3
def atmostonceFailure : Int32 := -4
def oldsrvFailure : Int32 := -5
def bindFailure : Int32 := -6
def cancelFailure : Int32 := -7

end RpcConst

/-- `sizeof(rpc_sz_t)` -/
def rpcSz : Nat := 4

/-- `max(sizeof(req_header), sizeof(reply_header)) + sizeof(rpc_sz_t)` -/
def rpcHeaderSz : Nat := max 20 8 + rpcSz

def defaultRpcSz : Nat := 1024

/-! ## Headers -/

structure ReqHeader where
  xid : Int32
  proc : Int32
  cltNonce : UInt32
  srvNonce : UInt32
  xidRep : Int32
  deriving DecidableEq, Repr

structure ReplyHeader where
  xid : Int32
  ret : Int32
  deriving DecidableEq, Repr

/-! ## `marshall` -/

/-- `buf` is the whole allocation, `capa` bytes long. Bytes that `malloc` and `realloc` leave
indeterminate read as 0 here. -/
structure Marshall where
  buf : Bytes
  capa : Nat
  ind : Nat

namespace Marshall

def new : Marshall := ⟨List.replicate defaultRpcSz 0, defaultRpcSz, rpcHeaderSz⟩

def realloc (m : Marshall) (capa : Nat) : Marshall :=
  { m with buf := m.buf ++ List.replicate (capa - m.capa) 0, capa := capa }

def rawbyte (m : Marshall) (x : UInt8) : Marshall :=
  let m := if m.ind ≥ m.capa then m.realloc (2 * m.capa) else m
  { m with buf := m.buf.set m.ind x, ind := m.ind + 1 }

def rawbytes (m : Marshall) (p : Bytes) : Marshall :=
  let n := p.length
  let m := if m.ind + n > m.capa then
      m.realloc (if m.capa > n then 2 * m.capa else m.capa + n)
    else m
  { m with buf := Memory.put m.buf m.ind p, ind := m.ind + n }

def pack (m : Marshall) (x : Int32) : Marshall :=
  let m := m.rawbyte ((x >>> 24) &&& 0xff).toUInt32.toUInt8
  let m := m.rawbyte ((x >>> 16) &&& 0xff).toUInt32.toUInt8
  let m := m.rawbyte ((x >>> 8) &&& 0xff).toUInt32.toUInt8
  m.rawbyte (x &&& 0xff).toUInt32.toUInt8

def packReqHeader (m : Marshall) (h : ReqHeader) : Marshall :=
  let saved := m.ind
  let m := { m with ind := rpcSz }
  let m := m.pack h.xid
  let m := m.pack h.proc
  let m := m.pack h.cltNonce.toInt32
  let m := m.pack h.srvNonce.toInt32
  let m := m.pack h.xidRep
  { m with ind := saved }

def packReplyHeader (m : Marshall) (h : ReplyHeader) : Marshall :=
  let saved := m.ind
  let m := { m with ind := rpcSz }
  let m := m.pack h.xid
  let m := m.pack h.ret
  { m with ind := saved }

/-- The `size()` bytes at `cstr()`, which are also the buffer `take_buf` hands out. -/
def cstr (m : Marshall) : Bytes := m.buf.take m.ind

/-- What every operation keeps: the buffer is as long as its capacity. -/
structure Ok (m : Marshall) : Prop where
  capa : m.buf.length = m.capa
  ind : m.ind ≤ m.capa

theorem new_ok : new.Ok := ⟨by simp [new], by decide⟩

theorem byte_mask {i : Nat} (hi : i < 8) : (255#8).getLsbD i = true := by
  interval_cases i <;> rfl

theorem packed_byte (x : Int32) (k : Nat) (hk : k = 24 ∨ k = 16 ∨ k = 8) :
    ((x >>> (Int32.ofNat k)) &&& 0xff).toUInt32.toUInt8
      = (x.toUInt32 >>> (UInt32.ofNat k)).toUInt8 := by
  apply UInt8.toBitVec_inj.mp
  apply BitVec.eq_of_getLsbD_eq
  intro i hi
  have hm := byte_mask hi
  rcases hk with rfl | rfl | rfl <;> simp [BitVec.getLsbD_sshiftRight, hi] <;> grind

theorem packed_low_byte (x : Int32) : (x &&& 0xff).toUInt32.toUInt8 = x.toUInt32.toUInt8 := by
  apply UInt8.toBitVec_inj.mp
  apply BitVec.eq_of_getLsbD_eq
  intro i hi
  simp [hi, byte_mask hi]

/-- Inside the capacity, `rawbyte` extends what was copied to position `i` by one byte. -/
theorem rawbyte_put {b p : Bytes} {i capa n : Nat} (x : UInt8) (hc : b.length = capa)
    (hn : n = i + p.length) (h : n < capa) :
    (⟨put b i p, capa, n⟩ : Marshall).rawbyte x = ⟨put b i (p ++ [x]), capa, n + 1⟩ := by
  subst hn
  have hl : i + p.length < (put b i p).length := by
    rw [Memory.length_put (by omega)]
    omega
  simp only [rawbyte, ge_iff_le, Nat.not_le.mpr h, ↓reduceIte]
  rw [Memory.set_eq_put x hl, Memory.put_put (by omega)]

theorem pack_put {b p : Bytes} {i capa n : Nat} (x : Int32) (hc : b.length = capa)
    (hn : n = i + p.length) (h : n + 4 ≤ capa) :
    (⟨put b i p, capa, n⟩ : Marshall).pack x
      = ⟨put b i (p ++ BigEndian.bytes x.toUInt32), capa, n + 4⟩ := by
  have h24 := packed_byte x 24 (by simp)
  have h16 := packed_byte x 16 (by simp)
  have h8 := packed_byte x 8 (by simp)
  simp only [Int32.reduceOfNat, UInt32.reduceOfNat] at h24 h16 h8
  simp only [pack, h24, h16, h8, packed_low_byte]
  rw [rawbyte_put _ hc hn (by omega), rawbyte_put _ hc (by simp; omega) (by omega),
    rawbyte_put _ hc (by simp; omega) (by omega), rawbyte_put _ hc (by simp; omega) (by omega)]
  simp [BigEndian.bytes]

end Marshall

/-- The bytes `pack_req_header` leaves after the size of the PDU. -/
def ReqHeader.bytes (h : ReqHeader) : Bytes :=
  BigEndian.bytes h.xid.toUInt32 ++ BigEndian.bytes h.proc.toUInt32 ++ BigEndian.bytes h.cltNonce ++
    BigEndian.bytes h.srvNonce ++ BigEndian.bytes h.xidRep.toUInt32

/-- The bytes `pack_reply_header` leaves after the size of the PDU. -/
def ReplyHeader.bytes (h : ReplyHeader) : Bytes :=
  BigEndian.bytes h.xid.toUInt32 ++ BigEndian.bytes h.ret.toUInt32

@[simp] theorem ReqHeader.length_bytes (h : ReqHeader) : h.bytes.length = 20 := rfl

@[simp] theorem ReplyHeader.length_bytes (h : ReplyHeader) : h.bytes.length = 8 := rfl

namespace Marshall

theorem packReqHeader_eq {m : Marshall} (h : ReqHeader) (hm : m.Ok) (hc : rpcHeaderSz ≤ m.capa) :
    m.packReqHeader h = { m with buf := put m.buf rpcSz h.bytes } := by
  have hc' : 24 ≤ m.capa := hc
  have h0 : { m with ind := rpcSz } = (⟨put m.buf rpcSz [], m.capa, rpcSz⟩ : Marshall) := by simp
  simp only [packReqHeader, h0]
  rw [pack_put _ hm.capa (by simp) (by simp [rpcSz]; omega),
    pack_put _ hm.capa (by simp) (by simp [rpcSz]; omega),
    pack_put _ hm.capa (by simp) (by simp [rpcSz]; omega),
    pack_put _ hm.capa (by simp) (by simp [rpcSz]; omega),
    pack_put _ hm.capa (by simp) (by simp [rpcSz]; omega)]
  simp [ReqHeader.bytes]

theorem packReplyHeader_eq {m : Marshall} (h : ReplyHeader) (hm : m.Ok)
    (hc : rpcHeaderSz ≤ m.capa) :
    m.packReplyHeader h = { m with buf := put m.buf rpcSz h.bytes } := by
  have hc' : 24 ≤ m.capa := hc
  have h0 : { m with ind := rpcSz } = (⟨put m.buf rpcSz [], m.capa, rpcSz⟩ : Marshall) := by simp
  simp only [packReplyHeader, h0]
  rw [pack_put _ hm.capa (by simp) (by simp [rpcSz]; omega),
    pack_put _ hm.capa (by simp) (by simp [rpcSz]; omega)]
  simp [ReplyHeader.bytes]

/-- `rawbytes` always has room for its copy after one `realloc`. -/
theorem rawbytes_ok {m : Marshall} (p : Bytes) (hm : m.Ok) :
    (m.rawbytes p).Ok ∧ m.capa ≤ (m.rawbytes p).capa ∧ (m.rawbytes p).ind = m.ind + p.length ∧
      (m.rawbytes p).cstr = m.cstr ++ p := by
  obtain ⟨hc, hi⟩ := hm
  by_cases hg : m.ind + p.length > m.capa
  · simp only [rawbytes, hg, ↓reduceIte, realloc]
    generalize hk : (if m.capa > p.length then 2 * m.capa else m.capa + p.length) = capa
    have hroom : m.ind + p.length ≤ capa := by
      rw [← hk]
      split <;> omega
    have hlen : (m.buf ++ List.replicate (capa - m.capa) 0).length = capa := by
      simp
      omega
    refine ⟨⟨?_, hroom⟩, by omega, trivial, ?_⟩
    · rw [Memory.length_put (by omega), hlen]
    · rw [cstr, Memory.take_put_end (by omega), List.take_append_of_le_length (by omega)]
      rfl
  · simp only [rawbytes, hg, ↓reduceIte]
    refine ⟨⟨?_, by simpa using hg⟩, Nat.le_refl _, trivial, ?_⟩
    · rw [Memory.length_put (by omega), hc]
    · rw [cstr, Memory.take_put_end (by omega)]
      rfl

end Marshall

/-- The request `call1` writes: the marshalled arguments, then the header packed in front. -/
def reqPdu (h : ReqHeader) (args : Bytes) : Bytes :=
  ((Marshall.new.rawbytes args).packReqHeader h).cstr

/-- The reply `dispatch` writes: what the handler marshalled, then the header packed in front. -/
def replyPdu (h : ReplyHeader) (body : Bytes) : Bytes :=
  ((Marshall.new.rawbytes body).packReplyHeader h).cstr

theorem reqPdu_eq (h : ReqHeader) (args : Bytes) :
    reqPdu h args = List.replicate 4 0 ++ h.bytes ++ args := by
  obtain ⟨hok, hcapa, hind, hcstr⟩ := Marshall.rawbytes_ok args Marshall.new_ok
  have hcapa' : 1024 ≤ (Marshall.new.rawbytes args).capa := hcapa
  have hind' : (Marshall.new.rawbytes args).ind = 24 + args.length := hind
  have hle := hok.ind
  rw [reqPdu, Marshall.packReqHeader_eq h hok (by simp only [rpcHeaderSz, rpcSz]; omega),
    Marshall.cstr,
    Memory.take_put (by simp [rpcSz, hind']) (by rw [hok.capa]; exact hle)]
  change put (Marshall.new.rawbytes args).cstr rpcSz h.bytes = _
  rw [hcstr]
  rfl

theorem replyPdu_eq (h : ReplyHeader) (body : Bytes) :
    replyPdu h body = List.replicate 4 0 ++ h.bytes ++ List.replicate 12 0 ++ body := by
  obtain ⟨hok, hcapa, hind, hcstr⟩ := Marshall.rawbytes_ok body Marshall.new_ok
  have hcapa' : 1024 ≤ (Marshall.new.rawbytes body).capa := hcapa
  have hind' : (Marshall.new.rawbytes body).ind = 24 + body.length := hind
  have hle := hok.ind
  rw [replyPdu, Marshall.packReplyHeader_eq h hok (by simp only [rpcHeaderSz, rpcSz]; omega),
    Marshall.cstr, Memory.take_put (by simp [rpcSz, hind']; omega) (by rw [hok.capa]; exact hle)]
  change put (Marshall.new.rawbytes body).cstr rpcSz h.bytes = _
  rw [hcstr]
  rfl

/-! ## `unmarshall` -/

structure Unmarshall where
  buf : Bytes
  sz : Nat
  ind : Nat
  ok : Bool
  deriving DecidableEq, Repr

namespace Unmarshall

/-- The constructor that takes over a buffer. -/
def ofBuf (b : Bytes) : Unmarshall := ⟨b, b.length, 0, true⟩

/-- A `char` widened to `unsigned int`. -/
def widen (c : UInt8) : UInt32 := c.toInt8.toInt32.toUInt32

def rawbyte (u : Unmarshall) : UInt32 × Unmarshall :=
  if u.ind ≥ u.sz then (0, { u with ok := false })
  else (widen (u.buf.getD u.ind 0), { u with ind := u.ind + 1 })

def unpack (u : Unmarshall) : Int32 × Unmarshall :=
  let (a, u) := u.rawbyte
  let (b, u) := u.rawbyte
  let (c, u) := u.rawbyte
  let (d, u) := u.rawbyte
  (((a &&& 0xff) <<< 24 ||| (b &&& 0xff) <<< 16 ||| (c &&& 0xff) <<< 8 ||| (d &&& 0xff)).toInt32, u)

def unpackReqHeader (u : Unmarshall) : ReqHeader × Unmarshall :=
  let u := { u with ind := rpcSz }
  let (xid, u) := u.unpack
  let (proc, u) := u.unpack
  let (cltNonce, u) := u.unpack
  let (srvNonce, u) := u.unpack
  let (xidRep, u) := u.unpack
  (⟨xid, proc, cltNonce.toUInt32, srvNonce.toUInt32, xidRep⟩, { u with ind := rpcHeaderSz })

def unpackReplyHeader (u : Unmarshall) : ReplyHeader × Unmarshall :=
  let u := { u with ind := rpcSz }
  let (xid, u) := u.unpack
  let (ret, u) := u.unpack
  (⟨xid, ret⟩, { u with ind := rpcHeaderSz })

def okdone (u : Unmarshall) : Bool := u.ok && u.ind == u.sz

/-- `take_in`: the buffer of another `unmarshall`, read from after the header. -/
def takeIn (another : Unmarshall) : Unmarshall :=
  ⟨another.buf, another.sz, rpcHeaderSz, decide (another.sz ≥ rpcHeaderSz)⟩

theorem widen_mask (c : UInt8) : widen c &&& 0xff = c.toUInt32 := by
  apply UInt32.toBitVec_inj.mp
  apply BitVec.eq_of_getLsbD_eq
  intro i hi
  simp only [widen, UInt32.toBitVec_and, UInt8.toBitVec_toUInt32, BitVec.getLsbD_and]
  simp
  interval_cases i <;> simp [BitVec.getElem_signExtend]

theorem rawbyte_of_drop {u : Unmarshall} {c : UInt8} {rest : Bytes} (hs : u.sz = u.buf.length)
    (h : u.buf.drop u.ind = c :: rest) :
    u.rawbyte = (widen c, { u with ind := u.ind + 1 }) ∧ u.buf.drop (u.ind + 1) = rest := by
  have hlt : u.ind < u.buf.length := by
    by_contra hge
    rw [List.drop_eq_nil_of_le (by omega)] at h
    cases h
  rw [List.drop_eq_getElem_cons hlt, List.cons.injEq] at h
  refine ⟨?_, h.2⟩
  rw [rawbyte, if_neg (by omega), List.getD_eq_getElem _ _ hlt, h.1]

/-- `unpack` reads back the four bytes `pack` wrote. -/
theorem unpack_bytes {u : Unmarshall} {n : UInt32} {rest : Bytes} (hs : u.sz = u.buf.length)
    (h : u.buf.drop u.ind = BigEndian.bytes n ++ rest) :
    u.unpack = (n.toInt32, { u with ind := u.ind + 4 }) ∧ u.buf.drop (u.ind + 4) = rest := by
  obtain ⟨e₁, h₁⟩ := rawbyte_of_drop hs h
  obtain ⟨e₂, h₂⟩ := rawbyte_of_drop (u := { u with ind := u.ind + 1 }) hs h₁
  obtain ⟨e₃, h₃⟩ := rawbyte_of_drop (u := { u with ind := u.ind + 2 }) hs h₂
  obtain ⟨e₄, h₄⟩ := rawbyte_of_drop (u := { u with ind := u.ind + 3 }) hs h₃
  refine ⟨?_, h₄⟩
  simp only at e₂ e₃ e₄
  simp only [unpack, e₁, e₂, e₃, e₄, widen_mask, Nat.add_assoc, Nat.reduceAdd]
  exact congrArg (fun w => (UInt32.toInt32 w, { u with ind := u.ind + 4 })) (BigEndian.word_bytes n)

theorem unpackReqHeader_bytes {pre rest : Bytes} (h : ReqHeader) (hp : pre.length = 4) :
    (ofBuf (pre ++ h.bytes ++ rest)).unpackReqHeader
      = (h, { ofBuf (pre ++ h.bytes ++ rest) with ind := rpcHeaderSz }) := by
  have h0 : (pre ++ h.bytes ++ rest).drop rpcSz = h.bytes ++ rest := by
    rw [List.append_assoc, List.drop_append_of_le_length (by simp [hp, rpcSz]),
      List.drop_eq_nil_of_le (by simp [hp, rpcSz]), List.nil_append]
  generalize pre ++ h.bytes ++ rest = buf at h0
  rw [ReqHeader.bytes] at h0
  simp only [List.append_assoc] at h0
  obtain ⟨e₁, h₁⟩ := unpack_bytes (u := ⟨buf, buf.length, 4, true⟩) rfl h0
  obtain ⟨e₂, h₂⟩ := unpack_bytes (u := ⟨buf, buf.length, 8, true⟩) rfl h₁
  obtain ⟨e₃, h₃⟩ := unpack_bytes (u := ⟨buf, buf.length, 12, true⟩) rfl h₂
  obtain ⟨e₄, h₄⟩ := unpack_bytes (u := ⟨buf, buf.length, 16, true⟩) rfl h₃
  obtain ⟨e₅, -⟩ := unpack_bytes (u := ⟨buf, buf.length, 20, true⟩) rfl h₄
  simp only [Nat.reduceAdd] at e₁ e₂ e₃ e₄ e₅
  simp [unpackReqHeader, ofBuf, rpcSz, e₁, e₂, e₃, e₄, e₅]

theorem unpackReplyHeader_bytes {pre rest : Bytes} (h : ReplyHeader) (hp : pre.length = 4) :
    (ofBuf (pre ++ h.bytes ++ rest)).unpackReplyHeader
      = (h, { ofBuf (pre ++ h.bytes ++ rest) with ind := rpcHeaderSz }) := by
  have h0 : (pre ++ h.bytes ++ rest).drop rpcSz = h.bytes ++ rest := by
    rw [List.append_assoc, List.drop_append_of_le_length (by simp [hp, rpcSz]),
      List.drop_eq_nil_of_le (by simp [hp, rpcSz]), List.nil_append]
  generalize pre ++ h.bytes ++ rest = buf at h0
  rw [ReplyHeader.bytes, List.append_assoc] at h0
  obtain ⟨e₁, h₁⟩ := unpack_bytes (u := ⟨buf, buf.length, 4, true⟩) rfl h0
  obtain ⟨e₂, -⟩ := unpack_bytes (u := ⟨buf, buf.length, 8, true⟩) rfl h₁
  simp only [Nat.reduceAdd] at e₁ e₂
  simp [unpackReplyHeader, ofBuf, rpcSz, e₁, e₂]

end Unmarshall
end StanDfs
