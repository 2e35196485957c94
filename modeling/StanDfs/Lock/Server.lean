import Mathlib.Data.List.AList
import StanDfs.Marshall

/-!
# The lock server

`acquire` and `release` of `lock_server`, and the arguments that `lock_client` sends them.
-/

namespace StanDfs

namespace LockProtocol

def ok : Int32 := 0
def acquire : UInt32 := 0x7001
def release : UInt32 := 0x7002
def stat : UInt32 := 0x7004

end LockProtocol

inductive LockState
  | free
  | locked
  deriving DecidableEq, Repr

/-- `lock_t` -/
structure LockT where
  state : LockState
  owner : Int32
  deriving DecidableEq, Repr

/-- `lock_map`, by `lockid_t`. -/
abbrev LockMap := AList fun _ : UInt64 => LockT

namespace LockServer

/-- What `acquire` does with the mutex, at first and after each wait. No result means that it waits. -/
def acquire (m : LockMap) (clt : Int32) (lid : UInt64) : Option LockMap :=
  match m.lookup lid with
  | some ⟨.free, _⟩ => some (m.insert lid ⟨.locked, clt⟩)
  | some ⟨.locked, _⟩ => none
  | none => some (m.insert lid ⟨.locked, clt⟩)

def release (m : LockMap) (clt : Int32) (lid : UInt64) : LockMap :=
  match m.lookup lid with
  | some l => if l.owner = clt then m.insert lid { l with state := .free } else m
  | none => m

/-- The lock is locked by a client. -/
def LockedBy (m : LockMap) (clt : Int32) (lid : UInt64) : Prop := m.lookup lid = some ⟨.locked, clt⟩

theorem lockedBy_acquire {m m' : LockMap} {clt : Int32} {lid : UInt64}
    (h : acquire m clt lid = some m') : LockedBy m' clt lid := by
  unfold acquire at h
  split at h
  · cases h
    exact AList.lookup_insert _
  · cases h
  · cases h
    exact AList.lookup_insert _

theorem not_lockedBy_of_acquire {m m' : LockMap} {clt clt' : Int32} {lid : UInt64}
    (h : acquire m clt lid = some m') : ¬ LockedBy m clt' lid := by
  intro hl
  rw [LockedBy] at hl
  simp [acquire, hl] at h

theorem lookup_acquire_ne {m m' : LockMap} {clt : Int32} {lid lid' : UInt64}
    (h : acquire m clt lid = some m') (hne : lid' ≠ lid) : m'.lookup lid' = m.lookup lid' := by
  unfold acquire at h
  split at h
  · cases h
    exact AList.lookup_insert_ne hne
  · cases h
  · cases h
    exact AList.lookup_insert_ne hne

theorem lookup_release_ne (m : LockMap) (clt : Int32) {lid lid' : UInt64} (hne : lid' ≠ lid) :
    (release m clt lid).lookup lid' = m.lookup lid' := by
  unfold release
  split
  · split
    · exact AList.lookup_insert_ne hne
    · rfl
  · rfl

end LockServer

/-! ## Arguments -/

/-- What `lock_client` marshals: its id and the lock. -/
def lockArgs (id : UInt32) (lid : UInt64) : Bytes :=
  (((Marshall.new.pack id.toInt32).pack (lid >>> 32).toUInt32.toInt32).pack
    lid.toUInt32.toInt32).cstr.drop rpcHeaderSz

/-- What the handler that `reg` makes unmarshals before it calls `lock_server`. -/
def lockArgsOf (args : Bytes) : Option (Int32 × UInt64) :=
  let (clt, u) := (Unmarshall.ofBuf args).unpack
  let (h, u) := u.unpack
  let (l, u) := u.unpack
  if u.okdone then some (clt, l.toUInt32.toUInt64 ||| h.toUInt32.toUInt64 <<< 32) else none

theorem lockArgs_eq (id : UInt32) (lid : UInt64) : lockArgs id lid =
    BigEndian.bytes id ++ BigEndian.bytes (lid >>> 32).toUInt32 ++ BigEndian.bytes lid.toUInt32 := by
  have hnew : Marshall.new = ⟨Memory.put Marshall.new.buf 24 [], 1024, 24⟩ := by
    rw [Memory.put_nil]
    rfl
  have hlen : Marshall.new.buf.length = 1024 := Marshall.new_ok.capa
  rw [lockArgs, hnew]
  generalize Marshall.new.buf = b at hlen
  rw [Marshall.pack_put _ hlen (by simp) (by omega), Marshall.pack_put _ hlen (by simp) (by omega),
    Marshall.pack_put _ hlen (by simp) (by omega)]
  simp only [List.nil_append, Marshall.cstr, UInt32.toUInt32_toInt32]
  generalize hp : BigEndian.bytes id ++ BigEndian.bytes (lid >>> 32).toUInt32 ++
    BigEndian.bytes lid.toUInt32 = p
  have hpl : p.length = 12 := by simp [← hp]
  have hb : (b.take 24).length = 24 := by
    rw [List.length_take]
    omega
  have htake : (Memory.put b 24 p).take (24 + 4 + 4 + 4) = b.take 24 ++ p := by
    have hend := Memory.take_put_end (i := 24) (p := p) (show 24 ≤ b.length by omega)
    rwa [hpl] at hend
  rw [htake]
  exact List.drop_left' hb

/-- The handler gets what the client sent. -/
theorem lockArgsOf_lockArgs (id : UInt32) (lid : UInt64) :
    lockArgsOf (lockArgs id lid) = some (id.toInt32, lid) := by
  have h₀ : (lockArgs id lid).drop 0 = BigEndian.bytes id ++ (BigEndian.bytes (lid >>> 32).toUInt32 ++
      (BigEndian.bytes lid.toUInt32 ++ [])) := by
    simp [lockArgs_eq]
  have hlen : (lockArgs id lid).length = 12 := by simp [lockArgs_eq]
  rw [lockArgsOf, Unmarshall.ofBuf]
  generalize lockArgs id lid = args at h₀ hlen
  obtain ⟨e₁, h₁⟩ := Unmarshall.unpack_bytes (u := ⟨args, args.length, 0, true⟩) rfl h₀
  obtain ⟨e₂, h₂⟩ := Unmarshall.unpack_bytes (u := ⟨args, args.length, 4, true⟩) rfl h₁
  obtain ⟨e₃, -⟩ := Unmarshall.unpack_bytes (u := ⟨args, args.length, 8, true⟩) rfl h₂
  simp only [Nat.reduceAdd, hlen] at e₁ e₂ e₃
  simp only [e₁, e₂, e₃, Unmarshall.okdone, hlen, UInt32.toUInt32_toInt32, BigEndian.halves_eq]
  rfl

-- From here on arguments are known by the lemma above only.
attribute [irreducible] lockArgs lockArgsOf

end StanDfs
