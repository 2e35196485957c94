import StanDfs.Connection.PollMgr
import StanDfs.Connection.Reader

/-!
# The end of the stream

Both ends of a connection together, under the poll manager. A `read` that returns 0 leaves `errno` as an
earlier system call left it, and it is by `errno` that `readpdu` decides when it reads into a body.
-/

namespace StanDfs

/-- The results of the `read`s that `read_cb` makes, in their order, where it comes to no fault. -/
def readResults (s : Receiver) : List SockItem :=
  if s.rpdu.buf = none ∨ s.rpdu.solong < s.rpdu.sz then
    if s.rpdu.sz = 0 then
      match sysRead 4 s.sock with
      | (.data [a, b, c, d], sock) =>
        let sz := (BigEndian.word a b c d).toInt32.toInt
        if 4 ≤ sz ∧ sz ≤ maxPdu then [.data [a, b, c, d], (sysRead (sz - 4).toNat sock).1]
        else [.data [a, b, c, d]]
      | (r, _) => [r]
    else [(sysRead (s.rpdu.sz - s.rpdu.solong).toNat s.sock).1]
  else []

/-- `readpdu` takes note of the 0: it is returned to the read of a size, or `errno` is not `EAGAIN`. -/
def Noticed (s : Receiver) : Prop :=
  s.rpdu.sz = 0 ∧ (sysRead 4 s.sock).1 = .data [] ∨ s.errno ≠ .eagain

/-- A connection with both its ends. -/
structure Connection where
  polled : Polled
  recv : Receiver
  delivered : List Bytes
  fault : Option Fault

namespace Connection

inductive Act
  /-- What its senders and the poll manager do, and `write_cb`. -/
  | polled (a : Polled.Act)
  | arrive (item : SockItem)
  /-- `read_cb`, with `errno` as the poll thread's earlier system calls left it. -/
  | readCb (errno : Errno) (accept : Bool)

def readCb (s : Connection) (errno : Errno) (accept : Bool) : Connection :=
  match StanDfs.readCb s.polled.conn.dead { s.recv with errno := errno } accept with
  | .error f => { s with fault := some f }
  | .ok (dead, recv, out) =>
    { s with
      polled := s.polled.next (.readCb (s.polled.conn.dead || !dead))
      recv := recv
      delivered := s.delivered ++ out.toList }

def next (s : Connection) : Act → Connection
  | .polled a => { s with polled := s.polled.next a }
  | .arrive item => { s with recv := { s.recv with sock := s.recv.sock ++ [item] } }
  | .readCb errno accept => s.readCb errno accept

def guard (s : Connection) (a : Act) : Prop :=
  s.fault = none ∧
  match a with
  | .polled a => s.polled.guard a ∧ ∀ succ, a ≠ .readCb succ
  | .arrive _ => True
  | .readCb _ _ => s.polled.conn.aborted = false ∧ ∃ w, s.polled.poll = .inRead w

structure Init (s : Connection) : Prop where
  polled : s.polled.Init
  rpdu : s.recv.rpdu = .empty
  delivered : s.delivered = []
  fault : s.fault = none

/-- The runs of a connection, over every stream and every history of the poll thread. -/
def lts : Lts Connection Act where
  init := Init
  guard := guard
  next := next

/-- From `s` to `s'` the connection dies and is off the poll manager, its sender on `send_complete_` is
woken, the partial PDU is dropped, and nothing is delivered. -/
structure Killed (s s' : Connection) : Prop where
  fault : s'.fault = none
  dead : s'.polled.conn.dead = true
  deregistered : s'.polled.rfd = false ∧ s'.polled.wfd = false ∧ s'.polled.callback = false
  signalled : ∀ t b w, s.polled.conn.threads t = .completing b w →
    s'.polled.conn.threads t = .completing b true
  dropped : s'.recv.rpdu = .empty
  delivered : s'.delivered = s.delivered

end Connection

variable {r : Receiver} {accept : Bool}

/-! ## A read that returns 0 -/

theorem readBody_zero (hle : r.rpdu.solong ≤ r.rpdu.sz)
    (h : (sysRead (r.rpdu.sz - r.rpdu.solong).toNat r.sock).1 = .data []) :
    ∃ sock, readBody r =
      if r.errno = .eagain then .ok (true, { r with sock := sock }) else .ok (false, ⟨.empty, r.errno, sock⟩) := by
  have hcount : ¬ r.rpdu.sz - r.rpdu.solong < 0 := by omega
  cases hr : sysRead (r.rpdu.sz - r.rpdu.solong).toNat r.sock with
  | mk item sock =>
      rw [hr] at h
      cases h
      refine ⟨sock, ?_⟩
      simp only [readBody, hcount, ↓reduceIte, hr]

/-- Into a body, the 0 is taken for a failure only if `errno` says so. -/
theorem readBody_noticed (hle : r.rpdu.solong ≤ r.rpdu.sz)
    (h : (sysRead (r.rpdu.sz - r.rpdu.solong).toNat r.sock).1 = .data []) :
    ∃ succ r', readBody r = .ok (succ, r') ∧ (succ = false ↔ r.errno ≠ .eagain) ∧
      (succ = false → r'.rpdu = .empty) := by
  obtain ⟨sock, heq⟩ := readBody_zero hle h
  by_cases he : r.errno = .eagain
  · rw [if_pos he] at heq
    exact ⟨true, _, heq, by simp [he], by simp⟩
  · rw [if_neg he] at heq
    exact ⟨false, _, heq, by simp [he], fun _ => rfl⟩

theorem readpdu_zero (hs : r.rpdu = .empty) (h : .data [] ∈ readResults r) :
    ∃ succ r', readpdu r = .ok (succ, r') ∧ (succ = false ↔ Noticed r) ∧
      (succ = false → r'.rpdu = .empty) := by
  have hz : r.rpdu.sz = 0 := by rw [hs]; rfl
  have hn : r.rpdu.buf = none := by rw [hs]; rfl
  unfold readResults at h
  rw [if_pos (.inl hn), if_pos hz] at h
  rw [readpdu, if_pos hz]
  cases hr : sysRead 4 r.sock with
  | mk item sock =>
      rw [hr] at h
      split at h
      · rename_i a b c d sock' heq
        cases heq
        -- The size was there, so it is the read of the body that found nothing.
        have hno : ¬ (r.rpdu.sz = 0 ∧ (sysRead 4 r.sock).1 = .data []) := by simp [hr]
        simp only at h ⊢
        split_ifs at h with hsz
        · obtain ⟨buf, _, hstart⟩ := startPdu_readBody (s := { r with sock := sock }) hs hsz.1 hsz.2
          have hzero : .data [] = (sysRead ((BigEndian.word a b c d).toInt32.toInt - 4).toNat sock).1 := by
            rcases List.mem_cons.mp h with heq | h
            · cases heq
            · exact List.mem_singleton.mp h
          obtain ⟨succ, r', hb, hiff, hd⟩ := readBody_noticed
            (r := { r with sock := sock, rpdu := ⟨some buf, (BigEndian.word a b c d).toInt32.toInt, 4⟩ })
            hsz.1 hzero.symm
          refine ⟨succ, r', hstart.trans hb, ?_, hd⟩
          rw [hiff, Noticed, or_iff_right hno]
        · simp at h
      · rename_i r₀ sock' hne heq
        cases heq
        obtain rfl := List.mem_singleton.mp h
        exact ⟨false, _, rfl, by simp [Noticed, hz, hr], fun _ => hs⟩

/-- The two outcomes of a callback in which some `read` returns 0. -/
theorem readMore_zero (hb : r.rpdu.InBounds) (h : .data [] ∈ readResults r) :
    ∃ succ r', readMore r = .ok (succ, r') ∧ (succ = false ↔ Noticed r) ∧
      (succ = false → r'.rpdu = .empty) := by
  obtain ⟨rpdu, e, sock⟩ := r
  cases hb with
  | none =>
      obtain ⟨succ, r', hr, hrest⟩ := readpdu_zero rfl h
      exact ⟨succ, r', by rw [readMore, if_pos (.inl rfl), hr], hrest⟩
  | @some b sz solong h4 hle hmax hlen =>
      have hz : sz ≠ 0 := by omega
      by_cases hlt : solong < sz
      · simp only [readResults, hlt, or_true, ↓reduceIte, hz, List.mem_singleton] at h
        obtain ⟨succ, r', hr, hiff, hd⟩ := readBody_noticed (r := ⟨⟨some b, sz, solong⟩, e, sock⟩) hle h.symm
        refine ⟨succ, r', ?_, ?_, hd⟩
        · rw [readMore, if_pos (.inr hlt), readpdu, if_neg hz, hr]
        · rw [hiff, Noticed, or_iff_right fun hc => hz hc.1]
      · simp [readResults, hlt] at h

namespace Connection

variable {s : Connection} {a : Act} {errno : Errno}

/-! ## The pending PDU in every run -/

theorem readCb_bounds {dead : Bool} {out : Bool × Receiver × Option Bytes} (hb : r.rpdu.InBounds)
    (h : StanDfs.readCb dead r accept = .ok out) : out.2.1.rpdu.InBounds := by
  unfold StanDfs.readCb at h
  cases dead with
  | true =>
      cases h
      exact hb
  | false =>
      simp only [Bool.false_eq_true, ↓reduceIte] at h
      split at h
      · cases h
      · rename_i succ r' hr
        cases h
        exact Reader.offerPdu_inBounds accept (Reader.inBounds_of_readMore hb hr)

theorem bounds_of_run {tr : List Act} (h : lts.Run tr s) (hf : s.fault = none) : s.recv.rpdu.InBounds := by
  induction h with
  | init h =>
      rw [h.rpdu]
      exact .none
  | @step tr s a _ hg ih =>
      have hb := ih hg.1
      cases a with
      | polled a => exact hb
      | arrive item => exact hb
      | readCb errno accept =>
          simp only [lts, next, readCb] at hf ⊢
          split at hf
          · cases hf
          · rename_i dead recv out hr
            exact readCb_bounds (r := { s.recv with errno := errno }) hb hr

/-! ## The callback -/

/-- A callback on a live connection whose `readpdu` goes through. -/
theorem readCb_live {succ : Bool} {r' : Receiver} (hd : s.polled.conn.dead = false)
    (hr : readMore { s.recv with errno := errno } = .ok (succ, r')) :
    s.readCb errno accept = { s with
      polled := s.polled.next (.readCb succ)
      recv := (offerPdu r' accept).1
      delivered := s.delivered ++ (offerPdu r' accept).2.toList } := by
  unfold readCb StanDfs.readCb
  simp [hd, hr]

theorem killed_of_failed {r' : Receiver} (hd : s.polled.conn.dead = false) (hg : ∃ w, s.polled.poll = .inRead w)
    (hf : s.fault = none) (hr : readMore { s.recv with errno := errno } = .ok (false, r'))
    (he : r'.rpdu = .empty) : Killed s (s.readCb errno accept) := by
  obtain ⟨w, hw⟩ := hg
  have hoffer : offerPdu r' accept = (r', none) := by simp [offerPdu, he, Charbuf.empty]
  rw [readCb_live hd hr, hoffer]
  constructor
  · exact hf
  · simp [Polled.next, hw, hd, Polled.delReadWrite, Sender.next]
  · simp [Polled.next, hw, hd, Polled.delReadWrite]
  · intro t b w' ht
    simp [Polled.next, hw, hd, Polled.delReadWrite, Sender.next, Sender.signalComplete, ht]
  · exact he
  · simp

theorem dead_of_succeeded {r' : Receiver} (hd : s.polled.conn.dead = false)
    (hr : readMore { s.recv with errno := errno } = .ok (true, r')) :
    (s.readCb errno accept).polled.conn.dead = false := by
  rw [readCb_live hd hr]
  simp only [Polled.next, Bool.or_true, ↓reduceIte]
  split <;> exact hd

/-! ## From the top of the poll loop to the callback -/

/-- A new connection. -/
def fresh : Connection := ⟨.fresh, ⟨.empty, .other, []⟩, [], none⟩

theorem init_fresh : lts.init fresh := ⟨Polled.init_fresh, rfl, rfl, rfl⟩

theorem run_to_read {tr : List Act} (h : lts.Run tr s) (hf : s.fault = none)
    (ha : s.polled.conn.aborted = false) (hp : s.polled.poll = .top) (hn : s.polled.pendingChange = false)
    (hr : s.polled.rfd = true) (hc : s.polled.callback = true) :
    ∃ tr', lts.Run tr' { s with polled := { s.polled with poll := .inRead false } } := by
  obtain ⟨⟨conn, rfd, wfd, callback, pending, removals, poll⟩, recv, delivered, fault⟩ := s
  simp only at hf ha hp hn hr hc
  subst hf hp hn hr hc
  have h₁ : lts.Run (.polled .checkPending :: tr) _ := .step h ⟨rfl, ⟨ha, rfl⟩, by simp⟩
  have h₂ : lts.Run (.polled .snapshot :: _) _ := .step h₁ ⟨rfl, ⟨ha, rfl⟩, by simp⟩
  have h₃ : lts.Run (.polled (.select true false) :: _) _ :=
    .step h₂ ⟨rfl, ⟨ha, true, wfd, rfl, by simp⟩, by simp⟩
  have h₄ : lts.Run (.polled .checkRead :: _) _ := .step h₃ ⟨rfl, ⟨ha, true, false, rfl⟩, by simp⟩
  exact ⟨_, h₄⟩

end Connection

open Connection

/-- In every reachable state of a live connection, a `read_cb` in which some `read` returns 0 kills the
connection exactly when it was the read of a size, or `errno` was not `EAGAIN` before. -/
theorem endOfStream_iff {tr : List Connection.Act} {s : Connection} (h : Connection.lts.Run tr s)
    (errno : Errno) (accept : Bool) (hg : s.guard (.readCb errno accept)) (hd : s.polled.conn.dead = false)
    (hz : .data [] ∈ readResults { s.recv with errno := errno }) :
    Killed s (s.next (.readCb errno accept)) ↔ Noticed { s.recv with errno := errno } := by
  obtain ⟨hf, _, hp⟩ := hg
  obtain ⟨succ, r', hr, hiff, he⟩ :=
    readMore_zero (r := { s.recv with errno := errno }) (bounds_of_run h hf) hz
  rw [← hiff]
  constructor
  · intro hk
    cases succ with
    | false => rfl
    | true => exact hk.dead.symm.trans (dead_of_succeeded hd hr)
  · rintro rfl
    exact killed_of_failed hd hp hf hr (he rfl)

theorem endOfStream_iff_between : ∃ tr s, Connection.lts.Run tr s ∧ Killed s (s.next (.readCb .eagain true)) := by
  have h₁ : Connection.lts.Run [.arrive (.data [])] _ := .step (.init init_fresh) ⟨rfl, trivial⟩
  obtain ⟨tr, h₂⟩ := run_to_read h₁ rfl rfl rfl rfl rfl rfl
  exact ⟨_, _, h₂, (endOfStream_iff h₂ .eagain true ⟨rfl, rfl, false, rfl⟩ rfl List.mem_cons_self).mpr
    (.inl ⟨rfl, rfl⟩)⟩

/-- Five bytes of a PDU of eight have arrived when the peer closes; an earlier `read` or `write`, maybe on
another connection, has left `EAGAIN`. -/
theorem endOfStream_unnoticed : ∃ tr s, Connection.lts.Run tr s ∧ s.guard (.readCb .eagain true) ∧
    s.recv.rpdu.solong = 5 ∧ s.recv.rpdu.sz = 8 ∧ readResults { s.recv with errno := .eagain } = [.data []] ∧
    (s.next (.readCb .eagain true)).polled.conn.dead = false ∧
    (s.next (.readCb .eagain true)).polled.rfd = true ∧
    (s.next (.readCb .eagain true)).recv.rpdu = s.recv.rpdu := by
  have h₁ : Connection.lts.Run [.arrive (.data [0, 0, 0, 8, 7])] _ := .step (.init init_fresh) ⟨rfl, trivial⟩
  obtain ⟨_, h₂⟩ := run_to_read h₁ rfl rfl rfl rfl rfl rfl
  have h₃ : Connection.lts.Run (.readCb .other true :: _) _ := .step h₂ ⟨rfl, rfl, false, rfl⟩
  have h₄ : Connection.lts.Run (.polled .checkWrite :: _) _ := .step h₃ ⟨rfl, ⟨rfl, false, rfl⟩, by simp⟩
  have h₅ : Connection.lts.Run (.arrive (.data []) :: _) _ := .step h₄ ⟨rfl, trivial⟩
  obtain ⟨_, h₆⟩ := run_to_read h₅ rfl rfl rfl rfl rfl rfl
  exact ⟨_, _, h₆, ⟨rfl, rfl, false, rfl⟩, rfl, rfl, rfl, rfl, rfl, rfl⟩

end StanDfs
