import Mathlib.Data.Nat.Log
import StanDfs.Lib.Lts
import StanDfs.Rpc.Timespec

/-!
# The retry loop of call1

One call with its deadlines, against a clock that moves at any time. Connections die, other callers
reconnect, and a reply or `cancel` may complete the call between any two of its steps. A wait ends with
`ETIMEDOUT` only once the clock has reached the deadline it was given.
-/

namespace StanDfs

/-- Where the thread is in the loop. -/
inductive RetryPc
  | top
  | send
  | check
  | waiting
  | lost
  | leaving
  | returned (timeout : Bool)
  deriving DecidableEq

/-- `call1` from its first look at the clock on, and what it shares with others: `ca.done`, `chan_` and the
connections, with the number of those made. The last fields are history: the clock at the first look, the
`curr_to.to` of each round that came to the wait, and the connections the request was written on. -/
structure Call1 where
  pc : RetryPc
  clock : Int
  finaldeadline : Timespec
  nextdeadline : Timespec
  currTo : Int
  transmit : Bool
  ch : Option Nat
  done : Bool
  chan : Option Nat
  dead : List Nat
  conns : Nat
  start : Int
  rounds : List Int
  sent : List Nat

namespace Call1

/-- `to.to`, and `retrans_` -/
structure Env where
  timeout : Int
  retrans : Bool

def toMin : Int := 1000

/-- `clock_gettime`, with the clock in nanoseconds. -/
def gettime (clock : Int) : Timespec := ⟨clock / 1000000000, clock % 1000000000⟩

inductive Act
  | tick (d : Nat)
  /-- `got_pdu` or `cancel` sets `ca.done`. -/
  | complete
  | die (c : Nat)
  /-- Another caller's `get_refconn`; the argument says whether a `connect` succeeds. -/
  | reconnect (ok : Bool)
  | getRefconn (ok : Bool)
  | keepConn
  /-- The end of the wait in `send`, or a look at `reachable_` that is not set. -/
  | send (reachable : Bool)
  | deadline
  | spurious
  | found
  | etimedout
  | isdead
  | leave
  deriving DecidableEq

/-- The state at the loop, after the first look at the clock. -/
def enter (e : Env) (clock : Int) (chan : Option Nat) (dead : List Nat) (conns : Nat) : Call1 :=
  ⟨.top, clock, addTimespec (gettime clock) e.timeout, ⟨0, 0⟩, toMin, true, none, false, chan, dead, conns, clock,
    [], []⟩

/-- `get_refconn` as far as it is about `chan_`. -/
def refreshChan (s : Call1) (ok : Bool) : Call1 :=
  if s.chan.any (· ∉ s.dead) then s
  else if ok then { s with chan := some s.conns, conns := s.conns + 1 }
  else { s with chan := none }

def getRefconn (s : Call1) (ok : Bool) : Call1 :=
  let s := s.refreshChan ok
  let ch := s.chan.or s.ch
  { s with ch := ch, pc := if ch.isSome then .send else .check, transmit := ch.isSome }

/-- The request is written once the connection is free and not dead. -/
def send (s : Call1) (reachable : Bool) : Call1 :=
  { s with
    sent := if reachable then (s.ch.filter (· ∉ s.dead)).toList ++ s.sent else s.sent
    transmit := false
    pc := .check }

/-- The look at `finaldeadline.tv_sec`, and the deadline of the next wait. -/
def deadline (s : Call1) : Call1 :=
  if s.finaldeadline.tvSec = 0 then { s with pc := .leaving }
  else
    let next := addTimespec (gettime s.clock) s.currTo
    let s := { s with rounds := s.rounds ++ [s.currTo], pc := .waiting }
    if cmpTimespec next s.finaldeadline > 0 then
      { s with nextdeadline := s.finaldeadline, finaldeadline := { s.finaldeadline with tvSec := 0 } }
    else { s with nextdeadline := next }

/-- The end of a round without a reply. -/
def isdead (e : Env) (s : Call1) : Call1 :=
  { s with
    transmit := s.transmit || (e.retrans && s.ch.all (· ∈ s.dead))
    currTo := s.currTo * 2
    pc := .top }

def next (e : Env) (s : Call1) : Act → Call1
  | .tick d => { s with clock := s.clock + d }
  | .complete => { s with done := true }
  | .die c => { s with dead := c :: s.dead }
  | .reconnect ok => s.refreshChan ok
  | .getRefconn ok => s.getRefconn ok
  | .keepConn => { s with pc := .check }
  | .send reachable => s.send reachable
  | .deadline => s.deadline
  | .spurious => s
  | .found => { s with pc := .leaving }
  | .etimedout => { s with pc := if s.done then .leaving else .lost }
  | .isdead => s.isdead e
  | .leave => { s with pc := .returned !s.done }

def guard (s : Call1) : Act → Prop
  | .tick _ => True
  | .complete => ∀ b, s.pc ≠ .returned b
  | .die c => c < s.conns
  | .reconnect _ => True
  | .getRefconn _ => s.pc = .top ∧ s.transmit = true
  | .keepConn => s.pc = .top ∧ s.transmit = false
  | .send _ => s.pc = .send
  | .deadline => s.pc = .check
  | .spurious => s.pc = .waiting
  | .found => s.pc = .waiting ∧ s.done = true
  | .etimedout => s.pc = .waiting ∧ s.nextdeadline.nanos ≤ s.clock
  | .isdead => s.pc = .lost
  | .leave => s.pc = .leaving

/-- The runs of one call, from any clock and any state of the client's connections. -/
def lts (e : Env) : Lts Call1 Act where
  init s := ∃ clock chan dead conns, (∀ c ∈ chan, c < conns) ∧ (∀ c ∈ dead, c < conns) ∧
    s = enter e clock chan dead conns
  guard := guard
  next := next e

instance (s : Call1) (a : Act) : Decidable (guard s a) := by
  unfold guard
  cases a <;> infer_instance

instance (e : Env) (s : Call1) (a : Act) : Decidable ((lts e).guard s a) :=
  inferInstanceAs (Decidable (guard s a))

/-! ## What is promised of a call -/

/-- The waits stay within their number, no `curr_to.to` that is used overflows, a call that times out has
had its time, and the request goes out once on a connection. -/
structure Kept (e : Env) (s : Call1) : Prop where
  rounds : s.rounds.length ≤ Nat.log 2 (e.timeout.toNat / 1000 + 1) + 1
  noOverflow : ∀ c ∈ s.rounds, 0 < c ∧ c < 2 ^ 31
  timeout : s.pc = .returned true → s.done = false ∧ s.start + e.timeout * 1000000 ≤ s.clock
  once : s.sent.Nodup
  single : e.retrans = false → s.sent.length ≤ 1

/-- `finaldeadline` as it is computed. -/
def final (e : Env) (s : Call1) : Timespec := addTimespec (gettime s.start) e.timeout

/-- The interval of the round with this number. -/
def backoff (k : Nat) : Int := toMin * 2 ^ k

/-- Ahead of a round with the interval `curr`: either the earlier rounds took the sum of their intervals, or
the final deadline has passed. -/
def Ahead (e : Env) (s : Call1) (curr : Int) : Prop :=
  (s.finaldeadline = s.final e ∧ curr = backoff s.rounds.length ∧ curr ≤ e.timeout + 1000 ∧
      s.start + (curr - 1000) * 1000000 ≤ s.clock) ∨
    s.finaldeadline.tvSec = 0 ∧ s.start + e.timeout * 1000000 ≤ s.clock

/-- In a round, its deadline is the end of its interval or the final deadline. -/
def InRound (e : Env) (s : Call1) : Prop :=
  s.currTo * 2 = backoff s.rounds.length ∧
    ((s.finaldeadline = s.final e ∧ s.start + (s.currTo * 2 - 1000) * 1000000 ≤ s.nextdeadline.nanos ∧
        s.nextdeadline.nanos ≤ s.start + e.timeout * 1000000) ∨
      s.finaldeadline.tvSec = 0 ∧ s.nextdeadline.nanos = s.start + e.timeout * 1000000)

/-- What holds of the clock where the thread is. -/
def Timed (e : Env) (s : Call1) : Prop :=
  match s.pc with
  | .top => s.Ahead e s.currTo
  | .send => s.Ahead e s.currTo
  | .check => s.Ahead e s.currTo
  | .waiting => s.InRound e
  | .lost => s.Ahead e (s.currTo * 2)
  | .leaving => s.done = true ∨ s.start + e.timeout * 1000000 ≤ s.clock
  | .returned timeout => timeout = true → s.done = false ∧ s.start + e.timeout * 1000000 ≤ s.clock

/-- The rounds so far. -/
structure Rounds (e : Env) (s : Call1) : Prop where
  eq : s.rounds = (List.range s.rounds.length).map backoff
  le : ∀ k, s.rounds.length = k + 1 → backoff k ≤ e.timeout + 1000

/-- Before the request goes out again, every connection it was written on is dead. -/
structure Written (e : Env) (s : Call1) : Prop where
  nodup : s.sent.Nodup
  dead : ∀ c ∈ s.sent, c ∈ s.dead ∨ s.transmit = false ∧ s.ch = some c
  send : s.pc = .send → s.transmit = true
  single : e.retrans = false → s.sent.length ≤ 1 ∧ (s.transmit = true → s.sent = [])

variable {e : Env} {s : Call1} {a : Act} {curr : Int}

/-! ## Deadlines as times -/

theorem valid_gettime (clock : Int) : (gettime clock).Valid := by
  unfold Timespec.Valid gettime
  simp only
  omega

theorem nanos_gettime (clock : Int) : (gettime clock).nanos = clock := by
  unfold Timespec.nanos gettime
  simp only
  omega

theorem nanos_deadline (clock : Int) {b : Int} (hb : 0 ≤ b) :
    (addTimespec (gettime clock) b).nanos = clock + b * 1000000 := by
  rw [Timespec.nanos_addTimespec hb, nanos_gettime]

theorem backoff_succ (k : Nat) : backoff (k + 1) = backoff k * 2 := by
  unfold backoff
  rw [Int.pow_succ, Int.mul_assoc]

theorem le_backoff (k : Nat) : 1000 ≤ backoff k := by
  induction k with
  | zero => simp [backoff, toMin]
  | succ k ih =>
      rw [backoff_succ]
      omega

theorem backoff_mono {k n : Nat} (h : k ≤ n) : backoff k ≤ backoff n := by
  unfold backoff toMin
  have := pow_le_pow_right₀ (by simp : (1 : Int) ≤ 2) h
  omega

/-! ## The time that has passed -/

theorem Ahead.later {d : Nat} (h : s.Ahead e curr) : Ahead e { s with clock := s.clock + d } curr := by
  rcases h with ⟨hf, hc, hle, ht⟩ | ⟨hf, ht⟩
  · exact .inl ⟨hf, hc, hle, by simp only; omega⟩
  · exact .inr ⟨hf, by simp only; omega⟩

theorem Timed.ahead (h : s.Timed e) (hpc : s.pc = .top ∨ s.pc = .send ∨ s.pc = .check) :
    s.Ahead e s.currTo := by
  unfold Timed at h
  rcases hpc with hpc | hpc | hpc <;> simpa only [hpc] using h

theorem Timed.tick {d : Nat} (h : s.Timed e) : Timed e { s with clock := s.clock + d } := by
  unfold Timed at h ⊢
  cases hpc : s.pc with
  | top | send | check | lost =>
      simp only [hpc] at h ⊢
      exact h.later
  | waiting =>
      simp only [hpc] at h ⊢
      exact h
  | leaving =>
      simp only [hpc] at h ⊢
      exact h.imp_right fun h => by omega
  | returned timeout =>
      simp only [hpc] at h ⊢
      exact fun hb => ⟨(h hb).1, by have := (h hb).2; omega⟩

theorem Timed.complete (h : s.Timed e) (hg : ∀ b, s.pc ≠ .returned b) :
    Timed e { s with done := true } := by
  unfold Timed at h ⊢
  cases hpc : s.pc with
  | top | send | check | lost | waiting =>
      simp only [hpc] at h ⊢
      exact h
  | leaving => simp
  | returned b => exact absurd hpc (hg b)

/-- The break at the top of the loop comes in time, unless the final deadline lies in second 0. -/
theorem Timed.deadline (h0 : 0 ≤ e.timeout) (hok : e.timeout = 0 ∨ (s.final e).tvSec ≠ 0) (h : s.Timed e)
    (hpc : s.pc = .check) : s.deadline.Timed e := by
  have h := h.ahead (.inr (.inr hpc))
  unfold Call1.deadline
  by_cases hz : s.finaldeadline.tvSec = 0
  · rw [if_pos hz]
    rcases h with ⟨hf, hc, _, ht⟩ | ⟨_, ht⟩
    · have hto : e.timeout = 0 := hok.resolve_right fun hne => hne (hf ▸ hz)
      have := le_backoff s.rounds.length
      exact .inr (by simp only; omega)
    · exact .inr ht
  · rw [if_neg hz]
    obtain ⟨hf, hc, hle, ht⟩ := h.resolve_right fun h => hz h.1
    have hk := le_backoff s.rounds.length
    have hn := nanos_deadline s.clock (b := s.currTo) (by omega)
    have hF : s.finaldeadline.nanos = s.start + e.timeout * 1000000 := by
      rw [hf]
      exact nanos_deadline s.start h0
    simp only
    split
    · refine ⟨?_, .inr ⟨rfl, hF⟩⟩
      simp [backoff_succ, hc]
    · rename_i hcmp
      refine ⟨?_, .inl ⟨hf, ?_, ?_⟩⟩
      · simp [backoff_succ, hc]
      · simp only
        omega
      · have := Timespec.nanos_le_of_cmp (Timespec.tvNsec_addTimespec (valid_gettime s.clock) (b := s.currTo)
          (by omega)) (hf ▸ Timespec.tvNsec_addTimespec (valid_gettime s.start) h0) hcmp
        simp only
        omega

/-- A round that ended by its deadline. -/
theorem Timed.etimedout (h : s.Timed e) (hpc : s.pc = .waiting) (hle : s.nextdeadline.nanos ≤ s.clock) :
    Timed e { s with pc := if s.done then .leaving else .lost } := by
  unfold Timed at h
  simp only [hpc] at h
  obtain ⟨hc, hd⟩ := h
  cases hdone : s.done with
  | true => exact .inl rfl
  | false =>
      rcases hd with ⟨hf, h₁, h₂⟩ | ⟨hf, h₁⟩
      · exact .inl ⟨hf, hc, by simp only; omega, by simp only; omega⟩
      · exact .inr ⟨hf, by simp only; omega⟩

theorem Timed.lost (h : s.Timed e) (hpc : s.pc = .lost) : (s.isdead e).Timed e := by
  unfold Timed at h
  simp only [hpc] at h
  exact h

theorem refreshChan_eq (s : Call1) (ok : Bool) :
    ∃ chan conns, s.refreshChan ok = { s with chan := chan, conns := conns } := by
  unfold refreshChan
  split_ifs <;> exact ⟨_, _, rfl⟩

theorem Timed.getRefconn {ok : Bool} (h : s.Timed e) (hpc : s.pc = .top) : (s.getRefconn ok).Timed e := by
  obtain ⟨chan, conns, heq⟩ := refreshChan_eq s ok
  have h := h.ahead (.inl hpc)
  unfold Call1.getRefconn
  rw [heq]
  cases hch : chan.or s.ch with
  | none =>
      simp only [hch]
      exact h
  | some c =>
      simp only [hch]
      exact h

theorem deadline_frame (s : Call1) :
    s.deadline.start = s.start ∧ s.deadline.sent = s.sent ∧ s.deadline.dead = s.dead ∧
      s.deadline.transmit = s.transmit ∧ s.deadline.ch = s.ch ∧ s.deadline.pc ≠ .send := by
  unfold deadline
  simp only
  split_ifs <;> simp

theorem next_start (s : Call1) (a : Act) : (next e s a).start = s.start := by
  cases a with
  | reconnect ok =>
      obtain ⟨chan, conns, heq⟩ := refreshChan_eq s ok
      simp [next, heq]
  | getRefconn ok =>
      obtain ⟨chan, conns, heq⟩ := refreshChan_eq s ok
      simp [next, Call1.getRefconn, heq]
  | deadline => exact (deadline_frame s).1
  | _ => rfl

theorem Timed.next (h0 : 0 ≤ e.timeout) (hok : e.timeout = 0 ∨ (s.final e).tvSec ≠ 0) (h : s.Timed e)
    (hg : s.guard a) : (next e s a).Timed e := by
  cases a with
  | tick d => exact h.tick
  | complete => exact h.complete hg
  | die c => exact h
  | reconnect ok =>
      obtain ⟨chan, conns, heq⟩ := refreshChan_eq s ok
      simp only [Call1.next, heq]
      exact h
  | getRefconn ok => exact h.getRefconn hg.1
  | keepConn => exact h.ahead (.inl hg.1)
  | send reachable => exact h.ahead (.inr (.inl hg))
  | deadline => exact h.deadline h0 hok hg
  | spurious => exact h
  | found => exact .inl hg.2
  | etimedout => exact h.etimedout hg.1 hg.2
  | isdead => exact h.lost hg
  | leave =>
      have hpc : s.pc = .leaving := hg
      unfold Timed at h
      simp only [hpc] at h
      intro hb
      have hnd : s.done = false := by simpa using hb
      exact ⟨hnd, h.resolve_left (by simp [hnd])⟩

/-! ## The rounds -/

theorem deadline_rounds (s : Call1) :
    s.deadline.rounds = if s.finaldeadline.tvSec = 0 then s.rounds else s.rounds ++ [s.currTo] := by
  unfold deadline
  simp only
  split_ifs <;> rfl

theorem Rounds.deadline (h : s.Rounds e) (ht : s.Ahead e s.currTo) : s.deadline.Rounds e := by
  have heq := deadline_rounds s
  split_ifs at heq with hz
  · constructor
    · rw [heq]
      exact h.eq
    · rw [heq]
      exact h.le
  · obtain ⟨_, hc, hle, _⟩ := ht.resolve_right fun h => hz h.1
    constructor
    · rw [heq, List.length_append, List.length_singleton, List.range_succ, List.map_append, ← h.eq, hc]
      rfl
    · intro k hk
      rw [heq, List.length_append, List.length_singleton, Nat.add_right_cancel_iff] at hk
      rw [← hk, ← hc]
      exact hle

theorem Rounds.next (h : s.Rounds e) (ht : s.Timed e) (hg : s.guard a) : (next e s a).Rounds e := by
  cases a with
  | reconnect ok =>
      obtain ⟨chan, conns, heq⟩ := refreshChan_eq s ok
      simp only [Call1.next, heq]
      exact ⟨h.eq, h.le⟩
  | getRefconn ok =>
      obtain ⟨chan, conns, heq⟩ := refreshChan_eq s ok
      simp only [Call1.next, Call1.getRefconn, heq]
      exact ⟨h.eq, h.le⟩
  | deadline => exact h.deadline (ht.ahead (.inr (.inr hg)))
  | tick | complete | die | keepConn | send | spurious | found | etimedout | isdead | leave =>
      exact ⟨h.eq, h.le⟩

theorem Rounds.length_le (h : s.Rounds e) :
    s.rounds.length ≤ Nat.log 2 (e.timeout.toNat / 1000 + 1) + 1 := by
  cases hk : s.rounds.length with
  | zero => exact Nat.zero_le _
  | succ k =>
      have hle := h.le k hk
      unfold backoff toMin at hle
      have hpow : 2 ^ k ≤ e.timeout.toNat / 1000 + 1 := by
        have hcast : ((2 ^ k : Nat) : Int) = 2 ^ k := by simp
        omega
      exact Nat.add_le_add_right (Nat.le_log_of_pow_le (by simp) hpow) 1

theorem Rounds.lt_of_mem (h1 : e.timeout < 2 ^ 31) (h : s.Rounds e) {c : Int} (hc : c ∈ s.rounds) :
    0 < c ∧ c < 2 ^ 31 := by
  rw [h.eq, List.mem_map] at hc
  obtain ⟨k, hk, rfl⟩ := hc
  have hpos := le_backoff k
  constructor
  · omega
  · -- The interval is at most that of the last round, and 22 doublings would exceed the timeout.
    have hlt : k < 22 := by
      by_contra hge
      obtain ⟨n, hn⟩ := Nat.exists_eq_add_of_lt (List.mem_range.mp hk)
      have hle := h.le (k + n) hn
      have hmono : backoff 22 ≤ backoff (k + n) := backoff_mono (by omega)
      have : backoff 22 = 4194304000 := rfl
      omega
    have hmono : backoff k ≤ backoff 21 := backoff_mono (by omega)
    have : backoff 21 = 2097152000 := rfl
    omega

/-! ## The connections -/

theorem Written.refreshChan {ok : Bool} (h : s.Written e) : (s.refreshChan ok).Written e := by
  obtain ⟨chan, conns, heq⟩ := refreshChan_eq s ok
  rw [heq]
  exact ⟨h.nodup, h.dead, h.send, h.single⟩

/-- Whatever `get_refconn` gives, the connections the request was written on are dead. -/
theorem Written.getRefconn {ok : Bool} (h : s.Written e) (ht : s.transmit = true) :
    (s.getRefconn ok).Written e := by
  obtain ⟨chan, conns, heq⟩ := refreshChan_eq s ok
  have hd : ∀ c ∈ s.sent, c ∈ s.dead := fun c hc => (h.dead c hc).resolve_right (by simp [ht])
  unfold Call1.getRefconn
  rw [heq]
  refine ⟨h.nodup, fun c hc => .inl (hd c hc), ?_, fun hr => ⟨(h.single hr).1, fun _ => (h.single hr).2 ht⟩⟩
  simp only
  split_ifs with hch
  · exact fun _ => hch
  · exact fun hpc => by cases hpc

theorem send_sent (s : Call1) (reachable : Bool) :
    (s.send reachable).sent = s.sent ∨
      ∃ c, s.ch = some c ∧ c ∉ s.dead ∧ (s.send reachable).sent = c :: s.sent := by
  unfold Call1.send
  cases reachable with
  | false => exact .inl rfl
  | true =>
      cases hch : s.ch with
      | none => exact .inl rfl
      | some c =>
          by_cases hd : c ∈ s.dead
          · exact .inl (by simp [Option.filter, hd])
          · exact .inr ⟨c, rfl, hd, by simp [Option.filter, hd]⟩

theorem Written.sendStep {reachable : Bool} (h : s.Written e) (hpc : s.pc = .send) :
    (s.send reachable).Written e := by
  have ht := h.send hpc
  have hd : ∀ c ∈ s.sent, c ∈ s.dead := fun c hc => (h.dead c hc).resolve_right (by simp [ht])
  rcases send_sent s reachable with hs | ⟨c, hch, hnd, hs⟩
  · constructor
    · rw [hs]
      exact h.nodup
    · rw [hs]
      exact fun c hc => .inl (hd c hc)
    · simp [Call1.send]
    · rw [hs]
      exact fun hr => ⟨(h.single hr).1, fun _ => (h.single hr).2 ht⟩
  · constructor
    · rw [hs, List.nodup_cons]
      exact ⟨fun hm => hnd (hd c hm), h.nodup⟩
    · rw [hs]
      intro x hx
      rcases List.mem_cons.mp hx with rfl | hx
      · exact .inr ⟨rfl, hch⟩
      · exact .inl (hd x hx)
    · simp [Call1.send]
    · rw [hs]
      intro hr
      simp [(h.single hr).2 ht, Call1.send]

/-- A retransmission is decided on when `ch` is dead. -/
theorem Written.isdead (h : s.Written e) : (s.isdead e).Written e := by
  constructor
  · exact h.nodup
  · intro c hc
    rcases h.dead c hc with hd | ⟨ht, hch⟩
    · exact .inl hd
    · by_cases hm : c ∈ s.dead
      · exact .inl hm
      · exact .inr ⟨by simp [Call1.isdead, ht, hch, hm], hch⟩
  · simp [Call1.isdead]
  · intro hr
    have ht : (s.isdead e).transmit = s.transmit := by simp [Call1.isdead, hr]
    rw [ht]
    exact h.single hr

theorem Written.next (h : s.Written e) (hg : s.guard a) : (next e s a).Written e := by
  cases a with
  | reconnect ok => exact h.refreshChan
  | getRefconn ok => exact h.getRefconn hg.2
  | send reachable => exact h.sendStep hg
  | isdead => exact h.isdead
  | die c =>
      exact ⟨h.nodup, fun x hx => (h.dead x hx).imp_left (List.mem_cons_of_mem c), h.send, h.single⟩
  | deadline =>
      obtain ⟨_, hs, hd, ht, hch, hpc⟩ := deadline_frame s
      constructor
      · exact hs ▸ h.nodup
      · simp only [Call1.next, hs, hd, ht, hch]
        exact h.dead
      · exact fun hp => absurd hp hpc
      · simp only [Call1.next, hs, ht]
        exact h.single
  | keepConn | found | leave => exact ⟨h.nodup, h.dead, by simp [Call1.next], h.single⟩
  | etimedout =>
      refine ⟨h.nodup, h.dead, ?_, h.single⟩
      cases hd : s.done <;> simp [Call1.next, hd]
  | tick | complete | spurious => exact ⟨h.nodup, h.dead, h.send, h.single⟩

/-! ## The whole call -/

/-- What every step keeps, where the final deadline is not in second 0. -/
structure Inv (e : Env) (s : Call1) : Prop where
  timed : s.Timed e
  rounds : s.Rounds e
  written : s.Written e

theorem Inv.kept (h1 : e.timeout < 2 ^ 31) (h : s.Inv e) : s.Kept e where
  rounds := h.rounds.length_le
  noOverflow _ hc := h.rounds.lt_of_mem h1 hc
  timeout hpc := by
    have ht := h.timed
    unfold Timed at ht
    simp only [hpc] at ht
    exact ht trivial
  once := h.written.nodup
  single hr := (h.written.single hr).1

theorem inv_enter (clock : Int) (chan : Option Nat) (dead : List Nat) (conns : Nat) (h0 : 0 ≤ e.timeout) :
    (enter e clock chan dead conns).Inv e where
  timed := .inl ⟨rfl, rfl, by simp [enter, toMin]; omega, by simp [enter, toMin]⟩
  rounds := ⟨rfl, fun k hk => by simp [enter] at hk⟩
  written := ⟨List.nodup_nil, fun c hc => by simp [enter] at hc, fun _ => rfl,
    fun _ => ⟨by simp [enter], fun _ => rfl⟩⟩

theorem Inv.next (h0 : 0 ≤ e.timeout) (hok : e.timeout = 0 ∨ (s.final e).tvSec ≠ 0) (h : s.Inv e)
    (hg : s.guard a) : (next e s a).Inv e where
  timed := h.timed.next h0 hok hg
  rounds := h.rounds.next h.timed hg
  written := h.written.next hg

theorem final_next (s : Call1) (a : Act) : (next e s a).final e = s.final e := by
  unfold final
  rw [next_start]

theorem inv_of_run (h0 : 0 ≤ e.timeout) {tr : List Act} (h : (lts e).Run tr s)
    (hok : e.timeout = 0 ∨ (s.final e).tvSec ≠ 0) : s.Inv e := by
  induction h with
  | init h =>
      obtain ⟨clock, chan, dead, conns, _, _, rfl⟩ := h
      exact inv_enter clock chan dead conns h0
  | @step tr s a _ hg ih =>
      have hok' : e.timeout = 0 ∨ (s.final e).tvSec ≠ 0 := by
        rw [← final_next (e := e) s a]
        exact hok
      exact (ih hok').next h0 hok' hg

/-- With its final deadline in second 0 a call leaves the loop before its first wait. -/
theorem early_timeout (t : Int) (hz : (addTimespec (gettime t) e.timeout).tvSec = 0) :
    ∃ tr s, (lts e).Run tr s ∧ s.start = t ∧ s.clock = t ∧ s.done = false ∧
      s.pc = .returned true := by
  have h₀ : (lts e).Run [] (enter e t none [] 0) :=
    .init ⟨t, none, [], 0, by simp, by simp, rfl⟩
  have h₁ : (lts e).Run [.getRefconn false] ((enter e t none [] 0).getRefconn false) := .step h₀ ⟨rfl, rfl⟩
  have h₂ : (lts e).Run [.deadline, .getRefconn false] _ := .step h₁ rfl
  have heq : (lts e).next ((enter e t none [] 0).getRefconn false) .deadline =
      { (enter e t none [] 0).getRefconn false with pc := .leaving } := if_pos hz
  rw [heq] at h₂
  have h₃ : (lts e).Run (.leave :: [.deadline, .getRefconn false]) _ := .step h₂ rfl
  exact ⟨_, _, h₃, rfl, rfl, rfl, rfl⟩

end Call1

open Call1

/-- The promise is kept in every run of a call that starts at `t` exactly when the final deadline of the
call does not lie in second 0, whose number also marks a deadline that was used. -/
theorem call1_retry_iff (e : Call1.Env) (t : Int) (h0 : 0 ≤ e.timeout) (h1 : e.timeout < 2 ^ 31) :
    (∀ tr s, (lts e).Run tr s → s.start = t → s.Kept e) ↔
      e.timeout = 0 ∨ (addTimespec (gettime t) e.timeout).tvSec ≠ 0 := by
  constructor
  · intro h
    by_contra hno
    obtain ⟨hne, hz⟩ := not_or.mp hno
    obtain ⟨tr, s, hr, hs, hc, _, hpc⟩ := early_timeout t (not_not.mp hz)
    have := ((h tr s hr hs).timeout hpc).2
    omega
  · rintro hok tr s hr rfl
    exact (inv_of_run h0 hr hok).kept h1

/-- A call of two and a half seconds waits for one, finds its connection dead, writes its request on a new one,
and times out when they are over. -/
theorem call1_retry_iff_resent : ∃ tr s, (lts ⟨2500, true⟩).Run tr s ∧ s.start = 1000000000 ∧
    s.sent = [1, 0] ∧ s.rounds = [1000, 2000] ∧ s.pc = .returned true ∧ s.Kept ⟨2500, true⟩ := by
  obtain ⟨s, hr, hs⟩ := Lts.run_of_exec (M := lts ⟨2500, true⟩) (s := enter ⟨2500, true⟩ 1000000000 (some 0) [] 1)
    (l := [.getRefconn true, .send true, .deadline, .die 0, .tick 1000000000, .etimedout, .isdead,
      .getRefconn true, .send true, .deadline, .tick 1500000000, .etimedout, .isdead, .keepConn, .deadline, .leave])
    (f := fun s => decide (s.start = 1000000000 ∧ s.sent = [1, 0] ∧ s.rounds = [1000, 2000] ∧
      s.pc = .returned true))
    ⟨1000000000, some 0, [], 1, by simp, by simp, rfl⟩ (by decide +kernel)
  obtain ⟨hst, hsent, hrd, hpc⟩ := of_decide_eq_true hs
  have hok : (addTimespec (gettime 1000000000) 2500).tvSec ≠ 0 := by decide +kernel
  exact ⟨_, s, hr, hst, hsent, hrd, hpc,
    (call1_retry_iff ⟨2500, true⟩ 1000000000 (by decide) (by decide)).mpr (.inr hok) _ s hr hst⟩

/-- At the beginning of the epoch: half a second is allowed, and the call times out at once. -/
theorem call1_timeout_at_epoch :
    ∃ tr s, (lts ⟨500, true⟩).Run tr s ∧ s.pc = .returned true ∧ s.done = false ∧
      ¬ s.start + 500 * 1000000 ≤ s.clock := by
  have hz : (addTimespec (gettime 0) 500).tvSec = 0 := by
    rw [Timespec.addTimespec_of_nonneg (by simp), Timespec.carry_of_le (by simp [gettime])]
    simp [gettime]
  obtain ⟨tr, s, hr, hs, hc, hd, hpc⟩ := early_timeout (e := ⟨500, true⟩) 0 hz
  exact ⟨tr, s, hr, hpc, hd, by omega⟩

end StanDfs
