import StanDfs.Marshall

/-!
# The two halves of a connection

`writepdu` and `readpdu` as they work on the buffers `wpdu_` and `rpdu_`, on the results of the
system calls. What a socket still has to say to `read` is a list of segments and errors, the next one
first; a `read` takes at most what it asks for and leaves the rest of the segment.
-/

namespace StanDfs

open Memory (put)

abbrev Tid := Nat

/-- `MAX_PDU` -/
def maxPdu : Nat := 10 <<< 20

inductive Errno
  | eagain
  | other
  deriving DecidableEq, Repr

/-- What a step can do that the program must not: fail an assertion, leave an allocation, or pass a
negative count to `read`. -/
inductive Fault
  | assertion
  | outOfBounds
  | negativeRead
  deriving DecidableEq, Repr

/-- `charbuf`: `solong` is the amount of bytes written or read so far. -/
structure Charbuf where
  buf : Option Bytes
  sz : Int
  solong : Int
  deriving DecidableEq, Repr

def Charbuf.empty : Charbuf := ⟨none, 0, 0⟩

/-! ## Writing -/

/-- The result of `write`: the bytes the kernel takes (at most what is offered), or `-1`. -/
inductive WriteResult
  | wrote (n : Nat)
  | fail (e : Errno)
  deriving DecidableEq, Repr

/-- `htonl` of an `int`, as bytes in memory. -/
def sizeBytes (sz : Int) : Bytes := BigEndian.bytes sz.toInt32.toUInt32

/-- A buffer once `writepdu` has filled in its size. -/
def frame (b : Bytes) : Bytes := put b 0 (sizeBytes b.length)

/-- `writepdu` on a buffer `b`: whether it succeeded, the new `wpdu_`, and the bytes written. -/
def writepdu (b : Bytes) (sz solong : Int) (r : WriteResult) : Bool × Charbuf × Bytes :=
  if solong = sz then (true, ⟨some b, sz, solong⟩, [])
  else
    let b := if solong = 0 then put b 0 (sizeBytes sz) else b
    match r with
    | .wrote n =>
      let n := min n (sz - solong).toNat
      (true, ⟨some b, sz, solong + n⟩, (b.drop solong.toNat).take n)
    | .fail .eagain => (true, ⟨some b, sz, solong⟩, [])
    | .fail .other => (false, ⟨some b, 0, -1⟩, [])

/-! ## Reading -/

/-- What the socket has for `read`: some bytes, none at all for the end of the stream, or an error. -/
inductive SockItem
  | data (bs : Bytes)
  | fail (e : Errno)
  deriving DecidableEq, Repr

/-- `read(fd, p, count)`. A socket with nothing to say answers `EAGAIN`; a `read` of no bytes returns 0 and
does not look at the socket or at `errno`. -/
def sysRead : Nat → List SockItem → SockItem × List SockItem
  | 0, sock => (.data [], sock)
  | _ + 1, [] => (.fail .eagain, [])
  | _ + 1, .fail e :: sock => (.fail e, sock)
  | count + 1, .data bs :: sock =>
    if bs.length ≤ count + 1 then (.data bs, sock)
    else (.data (bs.take (count + 1)), .data (bs.drop (count + 1)) :: sock)

/-- `malloc`: no allocation is larger than `PTRDIFF_MAX`, and the program gets every other one. -/
def malloc (n : Nat) : Option Bytes :=
  if n < 2 ^ 63 then some (List.replicate n 0) else none

/-- The receiving half: `rpdu_`, the `errno` of the poll thread, and the socket. -/
structure Receiver where
  rpdu : Charbuf
  errno : Errno
  sock : List SockItem
  deriving DecidableEq, Repr

/-- The second half of `readpdu`: `read` into the body of the pending PDU. -/
def readBody (s : Receiver) : Except Fault (Bool × Receiver) :=
  let count := s.rpdu.sz - s.rpdu.solong
  if count < 0 then .error .negativeRead
  else
    match sysRead count.toNat s.sock with
    | (.fail .eagain, sock) => .ok (true, { s with errno := .eagain, sock := sock })
    | (.fail .other, sock) => .ok (false, ⟨.empty, .other, sock⟩)
    | (.data [], sock) =>
      if s.errno = .eagain then .ok (true, { s with sock := sock })
      else .ok (false, ⟨.empty, s.errno, sock⟩)
    | (.data bs, sock) =>
      match s.rpdu.buf with
      | none => .error .outOfBounds
      | some b =>
        if s.rpdu.solong.toNat + bs.length ≤ b.length then
          .ok (true, ⟨⟨some (put b s.rpdu.solong.toNat bs), s.rpdu.sz, s.rpdu.solong + bs.length⟩,
            s.errno, sock⟩)
        else .error .outOfBounds

/-- The first half of `readpdu`, on the four bytes of the size: allocate the PDU. -/
def startPdu (s : Receiver) (a b c d : UInt8) : Except Fault (Bool × Receiver) :=
  let sz := (BigEndian.word a b c d).toInt32.toInt
  if sz > maxPdu then .ok (false, s)
  else if s.rpdu.buf ≠ none then .error .assertion
  else
    match malloc ((sz + 4) % 2 ^ 64).toNat with
    | none => .error .assertion
    | some buf =>
      if buf.length < 4 then .error .outOfBounds
      else readBody { s with rpdu := ⟨some (put buf 0 [a, b, c, d]), sz, 4⟩ }

def readpdu (s : Receiver) : Except Fault (Bool × Receiver) :=
  if s.rpdu.sz = 0 then
    match sysRead 4 s.sock with
    | (.fail .eagain, _) => .error .assertion
    | (.fail .other, sock) => .ok (false, { s with errno := .other, sock := sock })
    | (.data [a, b, c, d], sock) => startPdu { s with sock := sock } a b c d
    | (.data _, sock) => .ok (false, { s with sock := sock })
  else readBody s

/-- The first half of `read_cb`: read unless a whole PDU is pending. -/
def readMore (s : Receiver) : Except Fault (Bool × Receiver) :=
  if s.rpdu.buf = none ∨ s.rpdu.solong < s.rpdu.sz then readpdu s else .ok (true, s)

/-- The second half of `read_cb`: offer a whole PDU to `got_pdu`, which answers `accept`. Returns the
receiving half and the PDU `got_pdu` consumed. -/
def offerPdu (s : Receiver) (accept : Bool) : Receiver × Option Bytes :=
  match s.rpdu.buf with
  | some b =>
    if s.rpdu.sz = s.rpdu.solong ∧ accept then
      ({ s with rpdu := .empty }, some (b.take s.rpdu.sz.toNat))
    else (s, none)
  | none => (s, none)

/-- `read_cb`: the connection's `dead_`, the receiving half, and the PDU `got_pdu` consumed. -/
def readCb (dead : Bool) (s : Receiver) (accept : Bool) :
    Except Fault (Bool × Receiver × Option Bytes) :=
  if dead then .ok (true, s, none)
  else
    match readMore s with
    | .error f => .error f
    | .ok (succ, s) => .ok (!succ, offerPdu s accept)

/-! ## The age of a connection -/

structure Timeval where
  tvSec : Int
  tvUsec : Int
  deriving DecidableEq, Repr

/-- `connection::compare`, on the `create_time_` of the two connections. -/
def compare (a b : Timeval) : Int :=
  if a.tvSec > b.tvSec then 1
  else if a.tvSec < b.tvSec then -1
  else if a.tvUsec > b.tvUsec then 1
  else if a.tvUsec < b.tvUsec then -1
  else 0

theorem compare_nonneg_trans {a b c : Timeval} (h₁ : 0 ≤ compare a b) (h₂ : 0 ≤ compare b c) :
    0 ≤ compare a c := by
  simp only [compare] at h₁ h₂ ⊢
  grind

theorem compare_swap {a b : Timeval} (h : compare a b < 0) : 0 ≤ compare b a := by
  simp only [compare] at h ⊢
  grind

theorem compare_self (a : Timeval) : 0 ≤ compare a a := by simp [compare]

end StanDfs
