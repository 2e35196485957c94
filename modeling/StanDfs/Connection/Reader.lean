import StanDfs.Connection.Basic
import StanDfs.Lib.Lts

/-!
# The receiving end of a connection

The poll thread calls `read_cb` whenever the socket is readable, with whatever `errno` its last failed
system call left. The invariant is that the pending PDU fits its allocation.
-/

namespace StanDfs

open Memory (put)

/-! ## The bounds of the pending PDU -/

/-- No PDU is pending, or `4 ≤ solong ≤ sz ≤ MAX_PDU` and the allocation is what `readpdu` asked
for. -/
inductive Charbuf.InBounds : Charbuf → Prop
  | none : InBounds .empty
  | some {b : Bytes} {sz solong : Int} : 4 ≤ solong → solong ≤ sz → sz ≤ maxPdu → (b.length : Int) = sz + 4 →
      InBounds ⟨some b, sz, solong⟩

/-- What the next `read` of a size finds: not `EAGAIN`, and no size below four. -/
def Receiver.SizeOk (s : Receiver) : Prop :=
  match (sysRead 4 s.sock).1 with
  | .fail e => e ≠ .eagain
  | .data [a, b, c, d] => 4 ≤ (BigEndian.word a b c d).toInt32.toInt
  | .data _ => True

instance (s : Receiver) : Decidable s.SizeOk := by
  unfold Receiver.SizeOk
  split <;> infer_instance

theorem sysRead_data_length {count : Nat} {sock sock' : List SockItem} {bs : Bytes}
    (h : sysRead count sock = (.data bs, sock')) : bs.length ≤ count := by
  unfold sysRead at h
  split at h
  · cases h
    exact Nat.le_refl 0
  · cases h
  · cases h
  · split at h
    · cases h
      assumption
    · cases h
      exact List.length_take_le _ _

theorem readBody_inBounds {b : Bytes} {sz solong : Int} {e : Errno} {sock : List SockItem}
    (h4 : 4 ≤ solong) (hle : solong ≤ sz) (hmax : sz ≤ maxPdu) (hb : (b.length : Int) = sz + 4) :
    ∃ succ s', readBody ⟨⟨some b, sz, solong⟩, e, sock⟩ = .ok (succ, s') ∧ s'.rpdu.InBounds := by
  rw [readBody]
  simp only [show ¬ (sz - solong < 0) by omega, ↓reduceIte]
  cases hr : sysRead (sz - solong).toNat sock with
  | mk item sock' =>
      cases item with
      | fail e' =>
          cases e' with
          | eagain => exact ⟨_, _, rfl, .some h4 hle hmax hb⟩
          | other => exact ⟨_, _, rfl, .none⟩
      | data bs =>
          have hlen := sysRead_data_length hr
          cases bs with
          | nil =>
              by_cases he : e = .eagain
              · simp only [he, ↓reduceIte]
                exact ⟨_, _, rfl, .some h4 hle hmax hb⟩
              · simp only [he, ↓reduceIte]
                exact ⟨_, _, rfl, .none⟩
          | cons x xs =>
              have hfit : solong.toNat + (x :: xs).length ≤ b.length := by omega
              simp only [hfit, ↓reduceIte]
              refine ⟨_, _, rfl, .some (by omega) (by omega) hmax ?_⟩
              rw [Memory.length_put hfit, hb]

theorem startPdu_readBody {a b c d : UInt8} {s : Receiver} (hs : s.rpdu = .empty)
    (h4 : 4 ≤ (BigEndian.word a b c d).toInt32.toInt)
    (hmax : (BigEndian.word a b c d).toInt32.toInt ≤ maxPdu) :
    ∃ buf : Bytes, (buf.length : Int) = (BigEndian.word a b c d).toInt32.toInt + 4 ∧
      startPdu s a b c d
        = readBody { s with rpdu := ⟨some buf, (BigEndian.word a b c d).toInt32.toInt, 4⟩ } := by
  simp only [startPdu]
  generalize (BigEndian.word a b c d).toInt32.toInt = sz at h4 hmax ⊢
  have hm : sz ≤ 10485760 := hmax
  have hbig : ¬ sz > (maxPdu : Int) := by omega
  have hmod : ((sz + 4) % 2 ^ 64).toNat = (sz + 4).toNat := by omega
  have hsmall : (sz + 4).toNat < 2 ^ 63 := by omega
  have hlong : ¬ (List.replicate (sz + 4).toNat (0 : UInt8)).length < 4 := by simp; omega
  simp only [hbig, ↓reduceIte, hs, Charbuf.empty, ne_eq, not_true_eq_false, malloc, hmod, hsmall,
    hlong]
  refine ⟨_, ?_, rfl⟩
  rw [Memory.length_put (by simp; omega)]
  simp
  omega

/-- A size of at least four is either refused or gets an allocation it fits. -/
theorem startPdu_inBounds {a b c d : UInt8} {s : Receiver} (hs : s.rpdu = .empty)
    (h4 : 4 ≤ (BigEndian.word a b c d).toInt32.toInt) :
    ∃ succ s', startPdu s a b c d = .ok (succ, s') ∧ s'.rpdu.InBounds := by
  by_cases hmax : (BigEndian.word a b c d).toInt32.toInt > maxPdu
  · rw [startPdu, if_pos hmax]
    exact ⟨_, _, rfl, hs ▸ .none⟩
  · obtain ⟨buf, hlen, heq⟩ := startPdu_readBody hs h4 (by omega)
    rw [heq]
    exact readBody_inBounds (by omega) h4 (by omega) hlen

/-- Any size below four is announced in vain: `readpdu` cannot go on without a fault. -/
theorem startPdu_fault {a b c d : UInt8} {s : Receiver} (hs : s.rpdu = .empty)
    (h4 : (BigEndian.word a b c d).toInt32.toInt < 4) : ∃ f, startPdu s a b c d = .error f := by
  simp only [startPdu]
  generalize (BigEndian.word a b c d).toInt32.toInt = sz at h4 ⊢
  have hmax : ¬ sz > (maxPdu : Int) := by simp [maxPdu]; omega
  simp only [hmax, ↓reduceIte, hs, Charbuf.empty, ne_eq, not_true_eq_false]
  cases malloc ((sz + 4) % 2 ^ 64).toNat with
  | none => exact ⟨_, rfl⟩
  | some buf =>
      by_cases hlen : buf.length < 4
      · simp only [hlen, ↓reduceIte]
        exact ⟨_, rfl⟩
      · simp only [hlen, ↓reduceIte, readBody, show sz - 4 < 0 by omega]
        exact ⟨_, rfl⟩

theorem readpdu_inBounds {s : Receiver} (hb : s.rpdu.InBounds) (hs : s.rpdu.sz = 0 → s.SizeOk) :
    ∃ succ s', readpdu s = .ok (succ, s') ∧ s'.rpdu.InBounds := by
  obtain ⟨rpdu, e, sock⟩ := s
  cases hb with
  | some h4 hle hmax hlen =>
      rw [readpdu, if_neg (by simp only; omega)]
      exact readBody_inBounds h4 hle hmax hlen
  | none =>
      have hok := hs rfl
      rw [readpdu, if_pos rfl]
      simp only [Receiver.SizeOk] at hok
      split
      · rename_i sock' hr
        rw [hr] at hok
        exact absurd rfl hok
      · exact ⟨_, _, rfl, .none⟩
      · rename_i a b c d sock' hr
        rw [hr] at hok
        exact startPdu_inBounds rfl hok
      · exact ⟨_, _, rfl, .none⟩

theorem readpdu_fault {s : Receiver} (hb : s.rpdu = .empty) (hs : ¬ s.SizeOk) :
    ∃ f, readpdu s = .error f := by
  rw [readpdu, if_pos (by rw [hb]; rfl)]
  simp only [Receiver.SizeOk] at hs
  split
  · exact ⟨_, rfl⟩
  · rename_i sock' hr
    rw [hr] at hs
    exact (hs (by simp)).elim
  · rename_i a b c d sock' hr
    rw [hr] at hs
    exact startPdu_fault hb (by simpa using hs)
  · rename_i bs sock' hne hr
    rw [hr] at hs
    split at hs
    · rename_i heq
      cases heq
    · rename_i heq
      cases heq
      exact absurd rfl (hne _ _ _ _)
    · exact absurd trivial hs

/-! ## Runs of the receiving end -/

/-- A connection as its reader sees it. `fault` is the fault the process ended with, and `delivered`
the PDUs `got_pdu` has consumed. -/
structure Reader where
  dead : Bool
  recv : Receiver
  fault : Option Fault
  delivered : List Bytes
  deriving DecidableEq, Repr

namespace Reader

inductive Act
  /-- More of the stream, its end or an error becomes readable. -/
  | arrive (item : SockItem)
  /-- The poll thread calls `read_cb` with `errno` as it is; `accept` is `got_pdu`'s answer. -/
  | readCb (errno : Errno) (accept : Bool)
  /-- The connection dies on its sending side, or by `closeconn`. -/
  | die
  deriving DecidableEq, Repr

def init : Reader := ⟨false, ⟨.empty, .other, []⟩, none, []⟩

def callback (s : Reader) (errno : Errno) (accept : Bool) : Reader :=
  match StanDfs.readCb s.dead { s.recv with errno := errno } accept with
  | .error f => { s with fault := some f }
  | .ok (dead, recv, out) =>
    { s with dead := dead, recv := recv, delivered := s.delivered ++ out.toList }

def next (s : Reader) : Act → Reader
  | .arrive item => { s with recv := { s.recv with sock := s.recv.sock ++ [item] } }
  | .readCb errno accept => s.callback errno accept
  | .die => { s with dead := true }

/-- The runs of the receiving end, over every stream and every result of `read`. -/
def lts : Lts Reader Act where
  init s := s = init
  guard s _ := s.fault = none
  next := next

/-- The step does not read a size below four, and no `read` of a size fails with `EAGAIN`. -/
def SizesOk (s : Reader) : Act → Prop
  | .arrive _ | .die => True
  | .readCb _ _ => s.dead = false → s.recv.rpdu.sz = 0 → s.recv.SizeOk

/-- No fault happened, and the pending PDU is within its bounds. -/
structure Safe (s : Reader) : Prop where
  fault : s.fault = none
  bounds : s.recv.rpdu.InBounds

theorem readMore_inBounds {s : Receiver} (hb : s.rpdu.InBounds) (hs : s.rpdu.sz = 0 → s.SizeOk) :
    ∃ succ s', readMore s = .ok (succ, s') ∧ s'.rpdu.InBounds := by
  rw [readMore]
  split
  · exact readpdu_inBounds hb hs
  · exact ⟨_, _, rfl, hb⟩

theorem readMore_fault {s : Receiver} (hb : s.rpdu = .empty) (hs : ¬ s.SizeOk) :
    ∃ f, readMore s = .error f := by
  obtain ⟨f, hf⟩ := readpdu_fault hb hs
  exact ⟨f, by rw [readMore, if_pos (by simp [hb, Charbuf.empty]), hf]⟩

/-- A PDU of no size is no PDU. -/
theorem inBounds_empty {c : Charbuf} (hb : c.InBounds) (hz : c.sz = 0) : c = .empty := by
  cases hb with
  | none => rfl
  | some => simp only at hz; omega

theorem inBounds_of_readMore {s : Receiver} {r : Bool × Receiver} (hb : s.rpdu.InBounds)
    (h : readMore s = .ok r) : r.2.rpdu.InBounds := by
  have hs : s.rpdu.sz = 0 → s.SizeOk := by
    intro hz
    by_contra hs
    obtain ⟨f, hf⟩ := readMore_fault (inBounds_empty hb hz) hs
    rw [hf] at h
    cases h
  obtain ⟨succ, s', hr, hb'⟩ := readMore_inBounds hb hs
  rw [hr] at h
  cases h
  exact hb'

theorem offerPdu_inBounds {s : Receiver} (accept : Bool) (hb : s.rpdu.InBounds) :
    (offerPdu s accept).1.rpdu.InBounds := by
  rw [offerPdu]
  split
  · split
    · exact .none
    · exact hb
  · exact hb

theorem readCb_inBounds {dead : Bool} {s : Receiver} (accept : Bool) (hb : s.rpdu.InBounds)
    (hs : dead = false → s.rpdu.sz = 0 → s.SizeOk) :
    ∃ r, readCb dead s accept = .ok r ∧ r.2.1.rpdu.InBounds := by
  cases dead with
  | true => exact ⟨_, rfl, hb⟩
  | false =>
      obtain ⟨succ, s', hr, hb'⟩ := readMore_inBounds hb (hs rfl)
      simp only [readCb, hr]
      exact ⟨_, rfl, offerPdu_inBounds accept hb'⟩

theorem readCb_fault {s : Receiver} (accept : Bool) (hb : s.rpdu = .empty) (hs : ¬ s.SizeOk) :
    ∃ f, readCb false s accept = .error f := by
  obtain ⟨f, hf⟩ := readMore_fault hb hs
  simp only [readCb, hf]
  exact ⟨f, rfl⟩

theorem Safe.step {s : Reader} {a : Act} (h : s.Safe) (hs : s.SizesOk a) : (s.next a).Safe := by
  cases a with
  | arrive item => exact ⟨h.fault, h.bounds⟩
  | die => exact ⟨h.fault, h.bounds⟩
  | readCb errno accept =>
      obtain ⟨r, hr, hb⟩ := readCb_inBounds (s := { s.recv with errno := errno }) accept
        h.bounds hs
      simp only [next, callback, hr]
      exact ⟨h.fault, hb⟩

theorem Safe.step_fault {s : Reader} {a : Act} (h : s.Safe) (hs : ¬ s.SizesOk a) :
    (s.next a).fault ≠ none := by
  cases a with
  | arrive item => exact absurd trivial hs
  | die => exact absurd trivial hs
  | readCb errno accept =>
      simp only [SizesOk, not_forall] at hs
      obtain ⟨hd, hz, hs⟩ := hs
      obtain ⟨f, hf⟩ := readCb_fault (s := { s.recv with errno := errno }) accept
        (inBounds_empty h.bounds hz) hs
      simp only [next, callback, hd, hf]
      simp

/-- In every run the process is either safe or has ended in a fault. -/
theorem safe_of_no_fault {tr : List Act} {s : Reader} (h : lts.Run tr s) (hf : s.fault = none) :
    s.Safe := by
  induction h with
  | init h =>
      cases h
      exact ⟨rfl, .none⟩
  | @step tr s a _ hg ih =>
      by_cases ha : s.SizesOk a
      · exact (ih hg).step ha
      · exact absurd hf ((ih hg).step_fault ha)

/-- Receive-buffer bounds. A run of callbacks has no fault and keeps the pending PDU in its bounds
exactly when no `read` of a size yields a size below four (as a signed number) or `EAGAIN`. -/
theorem safe_iff_sizes_ok {tr : List Act} {s : Reader} (h : lts.Run tr s) :
    s.Safe ↔ (lts.restrict SizesOk).Run tr s := by
  constructor
  · intro hs
    induction h with
    | init h => exact .init h
    | @step tr s a h hg ih =>
        have hsafe : s.Safe := safe_of_no_fault h hg
        by_cases ha : s.SizesOk a
        · exact .step (ih hsafe) ⟨hg, ha⟩
        · exact absurd hs.fault (hsafe.step_fault ha)
  · intro hr
    clear h
    induction hr with
    | @init s h =>
        obtain rfl : s = Reader.init := h
        exact ⟨rfl, .none⟩
    | step _ hg ih => exact ih.step hg.2

instance (s : Reader) (a : Act) : Decidable (lts.guard s a) :=
  inferInstanceAs (Decidable (s.fault = none))

/-- A peer that announces the size `0xffffffff` gets four bytes copied into three. -/
theorem overrun_on_negative_size : ¬ ∀ tr s, lts.Run tr s → s.Safe := by
  intro h
  have hrun : lts.exec init [.arrive (.data [255, 255, 255, 255]), .readCb .other true]
      = some { init with
          recv := { init.recv with sock := [.data [255, 255, 255, 255]] }
          fault := some .outOfBounds } := by
    decide
  have hs := h _ _ (Lts.Run.exec (.init rfl) hrun)
  exact absurd hs.fault (by decide)

/-- A run in which the condition holds: a PDU of five bytes, read in two pieces. -/
theorem safe_iff_sizes_ok_five_bytes :
    lts.Run [.readCb .other true, .arrive (.data [0, 0, 0, 5, 7])]
        { init with delivered := [[0, 0, 0, 5, 7]] } ∧
      ({ init with delivered := [[0, 0, 0, 5, 7]] } : Reader).Safe := by
  have hrun : lts.exec init [.arrive (.data [0, 0, 0, 5, 7]), .readCb .other true]
      = some { init with delivered := [[0, 0, 0, 5, 7]] } := by
    decide
  have hr : lts.Run [.readCb .other true, .arrive (.data [0, 0, 0, 5, 7])] _ :=
    Lts.Run.exec (.init rfl) hrun
  refine ⟨hr, (safe_iff_sizes_ok hr).mpr ?_⟩
  have h₁ : (lts.restrict SizesOk).Run [.arrive (.data [0, 0, 0, 5, 7])]
      (init.next (.arrive (.data [0, 0, 0, 5, 7]))) := .step (.init rfl) ⟨rfl, trivial⟩
  have hs : SizesOk (init.next (.arrive (.data [0, 0, 0, 5, 7]))) (.readCb .other true) :=
    fun _ _ => by decide
  exact .step h₁ ⟨rfl, hs⟩

end Reader
end StanDfs
