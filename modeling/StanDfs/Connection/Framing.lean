import StanDfs.Connection.Reader
import StanDfs.Connection.Sender
import StanDfs.Lib.PrefixCode

/-!
# Framing

What a reader delivers, followed by the pending PDU and by what the socket holds, is the stream that
has arrived, cut at the announced sizes. A connection joins a sender and a reader by one stream. Frames
announce their own size, so the PDUs the reader cuts off are the first ones the sender started.
-/

namespace StanDfs

open Memory (put)

/-! ## Frames as a prefix code -/

/-- The first four bytes hold the length. -/
structure IsFrame (p : Bytes) : Prop where
  long : 4 ≤ p.length
  short : p.length < 2 ^ 31
  size : p.take 4 = sizeBytes p.length

theorem word_sizeBytes {n : Nat} {a b c d : UInt8} (hn : n < 2 ^ 31) (h : sizeBytes n = [a, b, c, d]) :
    (BigEndian.word a b c d).toInt32.toInt = n := by
  simp only [sizeBytes, BigEndian.bytes, List.cons.injEq, and_true] at h
  obtain ⟨rfl, rfl, rfl, rfl⟩ := h
  rw [BigEndian.word_bytes, Int32.toInt32_toUInt32, Int.toInt32,
    Int32.toInt_ofInt_of_le (by omega) (by omega)]

theorem sizeBytes_inj {m n : Nat} (hm : m < 2 ^ 31) (hn : n < 2 ^ 31)
    (h : sizeBytes m = sizeBytes n) : m = n := by
  have hw := word_sizeBytes hm (h.trans rfl)
  rw [word_sizeBytes hn rfl] at hw
  exact_mod_cast hw.symm

/-- The size a reader finds in the first four bytes is the one they were made from. -/
theorem sizeBytes_word (a b c d : UInt8) :
    sizeBytes (BigEndian.word a b c d).toInt32.toInt = [a, b, c, d] := by
  rw [sizeBytes, Int.toInt32, Int32.ofInt_toInt, UInt32.toUInt32_toInt32, BigEndian.bytes_word]

theorem isFrame_code : PrefixCode.Code IsFrame where
  ne_nil p hp := by
    rintro rfl
    exact absurd hp.long (by simp)
  eq_of_prefix p q hp hq h := by
    have h4 : p.take 4 = q.take 4 := by
      obtain ⟨r, rfl⟩ := h
      rw [List.take_append_of_le_length hp.long]
    have hlen : p.length = q.length :=
      sizeBytes_inj hp.short hq.short (by rw [← hp.size, ← hq.size, h4])
    exact h.eq_of_length hlen

theorem isFrame_frame (b : Pdu) : IsFrame (frame b.1) := by
  have hb : 4 ≤ b.1.length := b.2.1
  have hl : (sizeBytes b.1.length).length = 4 := rfl
  refine ⟨by rw [length_frame]; omega, by rw [length_frame]; exact b.2.2, ?_⟩
  rw [length_frame]
  simpa [hl, frame] using Memory.take_put_end (p := sizeBytes b.1.length) (Nat.zero_le b.1.length)

/-! ## What `readpdu` does to the stream -/

/-- The bytes a socket still has to say. -/
def sockBytes : List SockItem → Bytes
  | [] => []
  | .data bs :: sock => bs ++ sockBytes sock
  | .fail _ :: sock => sockBytes sock

theorem sockBytes_append (l l' : List SockItem) :
    sockBytes (l ++ l') = sockBytes l ++ sockBytes l' := by
  induction l with
  | nil => rfl
  | cons item l ih => cases item <;> simp [sockBytes, ih]

theorem sysRead_data {count : Nat} {sock sock' : List SockItem} {bs : Bytes}
    (h : sysRead count sock = (.data bs, sock')) : sockBytes sock = bs ++ sockBytes sock' := by
  unfold sysRead at h
  split at h
  · cases h
    rfl
  · cases h
  · cases h
  · split at h
    · cases h
      rfl
    · cases h
      simp only [sockBytes, ← List.append_assoc, List.take_append_drop]

theorem sysRead_fail {count : Nat} {sock sock' : List SockItem} {e : Errno}
    (h : sysRead count sock = (.fail e, sock')) : sockBytes sock = sockBytes sock' := by
  unfold sysRead at h
  split at h
  · cases h
  · cases h
    rfl
  · cases h
    rfl
  · split at h <;> cases h

/-- The part of the pending PDU that has been read. -/
def Charbuf.pending (c : Charbuf) : Bytes :=
  match c.buf with
  | some b => b.take c.solong.toNat
  | none => []

/-- The pending PDU starts with its size. -/
def Charbuf.Stamped (c : Charbuf) : Prop := ∀ b, c.buf = some b → b.take 4 = sizeBytes c.sz

/-- A read that succeeds moves bytes from the socket to the pending PDU; one that fails leaves no
pending PDU. -/
structure Receiver.Advance (s : Receiver) (r : Bool × Receiver) : Prop where
  stamped : r.2.rpdu.Stamped
  bytes : r.1 = true →
    r.2.rpdu.pending ++ sockBytes r.2.sock = s.rpdu.pending ++ sockBytes s.sock
  gone : r.1 = false → r.2.rpdu = .empty

theorem Charbuf.stamped_empty : Charbuf.empty.Stamped := by
  intro b hb
  cases hb

theorem readBody_advance {s : Receiver} {r : Bool × Receiver} (h4 : 4 ≤ s.rpdu.solong)
    (hst : s.rpdu.Stamped) (h : readBody s = .ok r) : s.Advance r := by
  obtain ⟨⟨buf, sz, solong⟩, e, sock⟩ := s
  simp only at h4
  simp only [readBody] at h
  split at h
  · cases h
  · split at h
    · rename_i sock' hr
      cases h
      exact ⟨hst, fun _ => by rw [sysRead_fail hr], by simp⟩
    · cases h
      exact ⟨Charbuf.stamped_empty, by simp, fun _ => rfl⟩
    · rename_i sock' hr
      split at h
      · cases h
        exact ⟨hst, fun _ => by rw [sysRead_data hr, List.nil_append], by simp⟩
      · cases h
        exact ⟨Charbuf.stamped_empty, by simp, fun _ => rfl⟩
    · rename_i bs sock' _ hr
      split at h
      · cases h
      · rename_i b
        split at h
        · rename_i hfit
          cases h
          refine ⟨?_, fun _ => ?_, by simp⟩
          · intro b' hb'
            cases hb'
            rw [Memory.take_put_of_le (by omega) (by omega)]
            exact hst b rfl
          · have hn : (solong + (bs.length : Int)).toNat = solong.toNat + bs.length := by omega
            simp only [Charbuf.pending, hn]
            rw [Memory.take_put_end (by omega), sysRead_data hr, List.append_assoc]
        · cases h

theorem startPdu_advance {s : Receiver} {a b c d : UInt8} {r : Bool × Receiver}
    (hs : s.rpdu = .empty) (h : startPdu s a b c d = .ok r) :
    r.2.rpdu.Stamped ∧
      (r.1 = true → r.2.rpdu.pending ++ sockBytes r.2.sock = [a, b, c, d] ++ sockBytes s.sock) ∧
      (r.1 = false → r.2.rpdu = .empty) := by
  simp only [startPdu] at h
  split at h
  · cases h
    exact ⟨hs ▸ Charbuf.stamped_empty, by simp, fun _ => hs⟩
  · split at h
    · cases h
    · split at h
      · cases h
      · rename_i buf _
        split at h
        · cases h
        · rename_i hlen
          have hp : (put buf 0 [a, b, c, d]).take 4 = [a, b, c, d] := by
            simpa using Memory.take_put_end (p := [a, b, c, d]) (Nat.zero_le buf.length)
          have hadv := readBody_advance (by simp) (fun b' hb' => by
            simp only [Option.some.injEq] at hb'
            rw [← hb', hp, sizeBytes_word]) h
          refine ⟨hadv.stamped, fun ht => ?_, hadv.gone⟩
          rw [hadv.bytes ht, Charbuf.pending]
          simp [hp]

theorem readMore_advance {s : Receiver} {r : Bool × Receiver} (hb : s.rpdu.InBounds)
    (hst : s.rpdu.Stamped) (h : readMore s = .ok r) : s.Advance r := by
  obtain ⟨rpdu, e, sock⟩ := s
  rw [readMore] at h
  split at h
  · cases hb with
    | some h4 hle _ _ =>
        rw [readpdu, if_neg (by simp only; omega)] at h
        exact readBody_advance h4 hst h
    | none =>
        rw [readpdu, if_pos rfl] at h
        split at h
        · cases h
        · cases h
          exact ⟨Charbuf.stamped_empty, by simp, fun _ => rfl⟩
        · rename_i a b c d sock' hr
          obtain ⟨h₁, h₂, h₃⟩ := startPdu_advance rfl h
          refine ⟨h₁, fun ht => ?_, h₃⟩
          rw [h₂ ht, sysRead_data hr]
          rfl
        · cases h
          exact ⟨Charbuf.stamped_empty, by simp, fun _ => rfl⟩
  · cases h
    exact ⟨hst, fun _ => rfl, by simp⟩

/-- What `got_pdu` consumes is a frame, and it is the whole pending PDU. -/
theorem offerPdu_frame {s : Receiver} (accept : Bool) (hb : s.rpdu.InBounds)
    (hst : s.rpdu.Stamped) :
    (∀ p ∈ (offerPdu s accept).2, IsFrame p) ∧ (offerPdu s accept).1.rpdu.Stamped ∧
      (offerPdu s accept).2.toList.flatten ++ (offerPdu s accept).1.rpdu.pending
        = s.rpdu.pending ∧
      (offerPdu s accept).1.sock = s.sock := by
  obtain ⟨rpdu, e, sock⟩ := s
  cases hb with
  | none => exact ⟨by simp [offerPdu], Charbuf.stamped_empty, by simp [offerPdu, Charbuf.pending], rfl⟩
  | @some b sz solong h4 hle hmax hlen =>
      simp only [offerPdu]
      split
      · rename_i hc
        obtain rfl : sz = solong := hc.1
        have hm : sz ≤ 10485760 := hmax
        have hl : (b.take sz.toNat).length = sz.toNat := by
          rw [List.length_take]
          omega
        refine ⟨?_, Charbuf.stamped_empty, by simp [Charbuf.pending, Charbuf.empty], rfl⟩
        intro p hp
        cases hp
        refine ⟨by omega, by omega, ?_⟩
        rw [hl, Int.toNat_of_nonneg (by omega), List.take_take, Nat.min_eq_left (by omega)]
        exact hst b rfl
      · exact ⟨by simp, hst, by simp, rfl⟩

/-! ## Runs of the receiving end -/

namespace Reader

/-- The bytes that have become readable. -/
def arrived : List Act → Bytes
  | .arrive (.data bs) :: tr => arrived tr ++ bs
  | _ :: tr => arrived tr
  | [] => []

theorem arrived_cons (a : Act) (tr : List Act) : arrived (a :: tr) = arrived tr ++ arrived [a] := by
  cases a with
  | arrive item => cases item <;> simp [arrived]
  | readCb errno accept => simp [arrived]
  | die => simp [arrived]

/-- What is delivered are frames, and they are a prefix of the stream. While the connection lives, the
rest of the stream is the pending PDU and what the socket holds. -/
structure Parsed (s : Reader) (stream : Bytes) : Prop where
  framed : ∀ p ∈ s.delivered, IsFrame p
  isPrefix : s.delivered.flatten <+: stream
  stamped : s.recv.rpdu.Stamped
  live : s.fault = none → s.dead = false →
    s.delivered.flatten ++ s.recv.rpdu.pending ++ sockBytes s.recv.sock = stream

theorem Parsed.callback {s : Reader} {stream : Bytes} (h : s.Parsed stream) (hs : s.Safe)
    (errno : Errno) (accept : Bool) : (s.callback errno accept).Parsed stream := by
  cases hd : s.dead with
  | true =>
      simp only [Reader.callback, readCb, hd, ↓reduceIte, Option.toList_none, List.append_nil]
      exact ⟨h.framed, h.isPrefix, h.stamped, by simp⟩
  | false =>
      have hlive := h.live hs.fault hd
      simp only [Reader.callback, readCb, hd, Bool.false_eq_true, ↓reduceIte]
      split
      · rename_i f hr
        exact ⟨h.framed, h.isPrefix, h.stamped, by simp⟩
      · rename_i dead recv out hr
        split at hr
        · cases hr
        · rename_i succ s' hm
          have hb' : s'.rpdu.InBounds := inBounds_of_readMore (s := { s.recv with errno := errno }) hs.bounds hm
          have hadv := readMore_advance (s := { s.recv with errno := errno }) hs.bounds h.stamped hm
          obtain ⟨hf, hst, hpend, hsock⟩ := offerPdu_frame accept hb' hadv.stamped
          simp only [Except.ok.injEq, Prod.mk.injEq] at hr
          obtain ⟨rfl, hr⟩ := hr
          rw [hr] at hf hst hpend hsock
          have hbytes : succ = true → (s.delivered ++ out.toList).flatten ++ recv.rpdu.pending
              ++ sockBytes recv.sock = stream := by
            intro ht
            rw [List.flatten_append, List.append_assoc s.delivered.flatten, hpend, hsock,
              List.append_assoc, hadv.bytes ht, ← List.append_assoc]
            exact hlive
          refine ⟨?_, ?_, hst, fun _ hdead => hbytes (by simpa using hdead)⟩
          · intro p hp
            rcases List.mem_append.mp hp with hp | hp
            · exact h.framed p hp
            · exact hf p (by simpa using hp)
          · cases succ with
            | true =>
                rw [← hbytes rfl, List.append_assoc]
                exact List.prefix_append _ _
            | false =>
                have hgone : out.toList.flatten = [] := by
                  rw [hadv.gone rfl] at hpend
                  exact (List.append_eq_nil_iff.mp hpend).1
                rw [List.flatten_append, hgone, List.append_nil]
                exact h.isPrefix

/-- In every run the PDUs delivered are the first frames of the stream that arrived. -/
theorem parsed_of_run {tr : List Act} {s : Reader} (h : lts.Run tr s) : s.Parsed (arrived tr) := by
  induction h with
  | init h =>
      cases h
      exact ⟨by simp [init], List.nil_prefix, Charbuf.stamped_empty, fun _ _ => rfl⟩
  | @step tr s a hr hg ih =>
      have hs : s.Safe := safe_of_no_fault hr hg
      cases a with
      | readCb errno accept => exact ih.callback hs errno accept
      | die => exact ⟨ih.framed, ih.isPrefix, ih.stamped, by simp [lts, next]⟩
      | arrive item =>
          have hlive := ih.live
          cases item with
          | fail e =>
              refine ⟨ih.framed, ih.isPrefix, ih.stamped, fun hf hd => ?_⟩
              simp only [lts, next, arrived, sockBytes_append, sockBytes, List.append_nil]
              exact hlive hf hd
          | data bs =>
              refine ⟨ih.framed, ih.isPrefix.trans (List.prefix_append _ _), ih.stamped,
                fun hf hd => ?_⟩
              simp only [lts, next, arrived, sockBytes_append, sockBytes, List.append_nil]
              rw [← hlive hf hd]
              simp only [List.append_assoc]

end Reader

/-! ## Two ends and the stream between them -/

/-- The sender of one end and the reader of the other. `arrived` counts the bytes the reader's socket
has got. -/
structure Link where
  snd : Sender
  rcv : Reader
  arrived : Nat

namespace Link

inductive Act
  | snd (a : Sender.Act)
  | rcv (a : Reader.Act)

/-- What arrives are the next bytes of the stream; its end and errors may come at any time. -/
def guard (s : Link) : Act → Prop
  | .snd a => s.snd.guard a
  | .rcv a => s.rcv.fault = none ∧ Reader.arrived [a] <+: s.snd.out.drop s.arrived

def next (s : Link) : Act → Link
  | .snd a => { s with snd := s.snd.next a }
  | .rcv a =>
    { s with
      rcv := s.rcv.next a
      arrived := s.arrived + (Reader.arrived [a]).length }

def lts : Lts Link Act where
  init s := s = ⟨Sender.init, Reader.init, 0⟩
  guard := guard
  next := next

instance (s : Link) (a : Act) : Decidable (lts.guard s a) :=
  match a with
  | .snd a => inferInstanceAs (Decidable (s.snd.guard a))
  | .rcv _ => inferInstanceAs (Decidable (_ ∧ _))

def sndAct : Act → Option Sender.Act
  | .snd a => some a
  | .rcv _ => none

def rcvAct : Act → Option Reader.Act
  | .snd _ => none
  | .rcv a => some a

theorem sender_component : Lts.Component lts Sender.lts snd sndAct where
  init s h := by cases h; rfl
  moves s a b hg hp := by
    cases a with
    | snd a => cases hp; exact ⟨hg, rfl⟩
    | rcv a => cases hp
  stays s a _ hp := by
    cases a with
    | snd a => cases hp
    | rcv a => rfl

theorem reader_component : Lts.Component lts Reader.lts rcv rcvAct where
  init s h := by cases h; rfl
  moves s a b hg hp := by
    cases a with
    | snd a => cases hp
    | rcv a => cases hp; exact ⟨hg.1, rfl⟩
  stays s a _ hp := by
    cases a with
    | snd a => rfl
    | rcv a => cases hp

/-- What has arrived is what was written, up to the count. -/
theorem arrived_of_run {tr : List Act} {s : Link} (h : lts.Run tr s) :
    s.arrived ≤ s.snd.out.length ∧
      Reader.arrived (tr.filterMap rcvAct) = s.snd.out.take s.arrived := by
  induction h with
  | init h => cases h; exact ⟨Nat.le_refl _, rfl⟩
  | @step tr s a _ hg ih =>
      obtain ⟨hle, harr⟩ := ih
      cases a with
      | snd a =>
          obtain ⟨r, hr⟩ := Sender.next_out s.snd a
          simp only [lts, next, ← hr]
          refine ⟨by simp; omega, ?_⟩
          rw [List.take_append_of_le_length hle]
          exact harr
      | rcv a =>
          have hbs : Reader.arrived [a] <+: s.snd.out.drop s.arrived := hg.2
          have hlen := hbs.length_le
          rw [List.length_drop] at hlen
          simp only [lts, next, List.filterMap_cons_some (show rcvAct (.rcv a) = some a from rfl)]
          refine ⟨by omega, ?_⟩
          rw [Reader.arrived_cons, List.take_add, ← List.prefix_iff_eq_take.mp hbs, harr]

theorem arrived_prefix_frames {tr : List Act} {s : Link} (h : lts.Run tr s) :
    Reader.arrived (tr.filterMap rcvAct) <+: Sender.frames s.snd.started := by
  have hsnd : s.snd.Inv := Sender.inv_of_run (h.component sender_component)
  calc Reader.arrived (tr.filterMap rcvAct) = s.snd.out.take s.arrived := (arrived_of_run h).2
    _ <+: s.snd.out := List.take_prefix _ _
    _ <+: Sender.frames s.snd.started := Sender.out_prefix_frames hsnd

/-- Framing safety. The PDUs `got_pdu` consumed are the first of the buffers for which writing was
started, in that order, each with its size in its first four bytes. -/
theorem delivered_prefix_started {tr : List Act} {s : Link} (h : lts.Run tr s) :
    s.rcv.delivered <+: s.snd.started.map fun b => frame b.1 := by
  have hrcv := Reader.parsed_of_run (h.component reader_component)
  have hstream : s.rcv.delivered.flatten <+: Sender.frames s.snd.started :=
    hrcv.isPrefix.trans (arrived_prefix_frames h)
  refine isFrame_code.prefix_of_flatten hrcv.framed ?_ hstream
  intro p hp
  obtain ⟨b, _, rfl⟩ := List.mem_map.mp hp
  exact isFrame_frame b

/-- A `write` takes ten bytes of a PDU while a second thread waits with another, and the first arrives in two
pieces. Both are delivered. -/
theorem delivered_prefix_started_two : ∃ tr s, lts.Run tr s ∧
    s.rcv.delivered = [frame (List.replicate 24 7), frame (List.replicate 30 9)] ∧
    s.rcv.delivered <+: s.snd.started.map fun b => frame b.1 := by
  let b : Pdu := ⟨List.replicate 24 7, by decide⟩
  let c : Pdu := ⟨List.replicate 30 9, by decide⟩
  obtain ⟨s, hr, hs⟩ := Lts.run_of_exec (M := lts) (s := ⟨Sender.init, Reader.init, 0⟩)
    (l := [.snd (.send 0 b (.wrote 10)), .snd (.send 1 c (.wrote 0)),
      .rcv (.arrive (.data ((frame b.1).take 6))), .rcv (.readCb .other true),
      .snd (.writeCb (.wrote 14)), .snd (.complete 0), .snd (.resume 1 (.wrote 30)),
      .rcv (.arrive (.data ((frame b.1).drop 6))), .rcv (.readCb .eagain true),
      .rcv (.arrive (.data (frame c.1))), .rcv (.readCb .eagain true)])
    (f := fun s => decide (s.rcv.delivered = [frame b.1, frame c.1])) rfl (by decide +kernel)
  exact ⟨_, s, hr, of_decide_eq_true hs, delivered_prefix_started hr⟩

end Link
end StanDfs
