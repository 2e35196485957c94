import StanDfs.Connection.Basic

/-!
# Requests and replies

What `call1` and `dispatch` hand to a connection, and what `got_pdu` and `dispatch` make of a PDU.
-/

namespace StanDfs

open Memory (put)

/-- A request of `call1`. -/
structure Request where
  hdr : ReqHeader
  args : Bytes
  deriving DecidableEq, Repr

namespace Request

def xid (q : Request) : UInt32 := q.hdr.xid.toUInt32

/-- The PDU as the connection delivers it. -/
def pdu (q : Request) : Bytes := frame (reqPdu q.hdr q.args)

end Request

/-- A reply of `dispatch`, with what the handler marshalled. -/
structure Reply where
  hdr : ReplyHeader
  body : Bytes
  deriving DecidableEq, Repr

namespace Reply

/-- The buffer that `take_buf` hands out. -/
def buf (r : Reply) : Bytes := replyPdu r.hdr r.body

end Reply

/-- The header of a request, and the arguments after it. -/
def decodeReq (b : Bytes) : Option Request :=
  let (h, u) := (Unmarshall.ofBuf b).unpackReqHeader
  if u.ok then some ⟨h, u.buf.drop u.ind⟩ else none

/-- The header of a reply, and the rest as `take_in` leaves it to the caller. -/
def decodeReply (b : Bytes) : Option (ReplyHeader × Unmarshall) :=
  let (h, u) := (Unmarshall.ofBuf b).unpackReplyHeader
  if u.ok then some (h, Unmarshall.takeIn u) else none

/-- The connection only fills in the first four bytes. -/
theorem frame_append {p b : Bytes} (hp : p.length = 4) :
    ∃ size : Bytes, size.length = 4 ∧ frame (p ++ b) = size ++ b := by
  refine ⟨sizeBytes (p ++ b).length, rfl, ?_⟩
  have hl : 0 + (sizeBytes (p ++ b).length).length = p.length := by rw [hp]; rfl
  rw [frame, put, hl, List.take_zero, List.drop_left, List.nil_append]

theorem decodeReq_pdu (q : Request) : decodeReq q.pdu = some q := by
  obtain ⟨size, hs, hf⟩ := frame_append (p := List.replicate 4 0) (b := q.hdr.bytes ++ q.args) rfl
  have hpdu : q.pdu = size ++ q.hdr.bytes ++ q.args := by
    rw [Request.pdu, reqPdu_eq, List.append_assoc, hf, List.append_assoc]
  have hdrop : (size ++ q.hdr.bytes ++ q.args).drop rpcHeaderSz = q.args := by
    rw [List.drop_append_of_le_length (by simp [hs, rpcHeaderSz, rpcSz]),
      List.drop_eq_nil_of_le (by simp [hs, rpcHeaderSz, rpcSz]), List.nil_append]
  rw [hpdu, decodeReq, Unmarshall.unpackReqHeader_bytes q.hdr hs]
  simp only [Unmarshall.ofBuf, ↓reduceIte, hdrop]

/-- The caller of a reply gets its header and reads its body. -/
theorem decodeReply_buf (r : Reply) : ∃ u, decodeReply (frame r.buf) = some (r.hdr, u) ∧
    u.ok = true ∧ u.sz = u.buf.length ∧ u.buf.drop u.ind = r.body := by
  obtain ⟨size, hs, hf⟩ := frame_append (p := List.replicate 4 0)
    (b := r.hdr.bytes ++ (List.replicate 12 0 ++ r.body)) rfl
  have hpdu : frame r.buf = size ++ r.hdr.bytes ++ (List.replicate 12 0 ++ r.body) := by
    rw [Reply.buf, replyPdu_eq]
    simp only [List.append_assoc] at hf ⊢
    exact hf
  have hdrop : (size ++ r.hdr.bytes ++ (List.replicate 12 0 ++ r.body)).drop rpcHeaderSz
      = r.body := by
    have h24 : (size ++ r.hdr.bytes ++ List.replicate 12 0).length = 24 := by simp [hs]
    rw [← List.append_assoc, List.drop_append_of_le_length (by rw [h24]; decide),
      List.drop_eq_nil_of_le (by rw [h24]; decide), List.nil_append]
  rw [hpdu, decodeReply, Unmarshall.unpackReplyHeader_bytes r.hdr hs]
  refine ⟨_, rfl, ?_, rfl, hdrop⟩
  simp [Unmarshall.takeIn, Unmarshall.ofBuf, hs, rpcHeaderSz, rpcSz]
  omega

-- From here on messages are known by the two lemmas above only.
attribute [irreducible] Request.pdu Reply.buf decodeReq decodeReply

end StanDfs
