import StanDfs.Connection.Framing
import StanDfs.Lib.Segments

/-!
# When every PDU arrives

Here every `read` of the receiving end finds something, `got_pdu` always accepts, and nothing but a
read ends the connection. The size of a PDU is read by one `read`, which must get all of it, while the
body may come in pieces. The position of the reader in the segments tells whether that `read` does. A PDU
of four bytes has no body, but `readpdu` asks for it, gets no bytes and looks at `errno`.
-/

namespace StanDfs

open Memory (put)
open Segments (advance)

/-- The size that one `read` gets at position `q` of the stream, if it gets four bytes. -/
def sizeAt (segs : List Bytes) (q : Nat) : Option Int :=
  match advance q segs with
  | (a :: b :: c :: d :: _) :: _ => some (BigEndian.word a b c d).toInt32.toInt
  | _ => none

/-- `readpdu` goes on with the PDU at position `q`, if `E` has the positions of the sizes that were read
with `errno` at `EAGAIN`. -/
def Admitted (E : Nat → Prop) (segs : List Bytes) (q : Nat) : Prop :=
  ∃ sz, sizeAt segs q = some sz ∧ sz ≤ maxPdu ∧ (sz = 4 → E q)

/-- A `read` from segments takes from the first one only. -/
theorem sysRead_advance {count : Nat} (hc : 0 < count) {q : Nat} {segs rest : List Bytes} {s : Bytes}
    (h : ∀ t ∈ segs, t ≠ []) (hs : advance q segs = s :: rest) :
    sysRead count ((s :: rest).map .data)
      = (.data (s.take count), (advance (q + min count s.length) segs).map .data) := by
  obtain ⟨count, rfl⟩ := Nat.exists_eq_add_one_of_ne_zero (Nat.pos_iff_ne_zero.mp hc)
  rw [Segments.advance_add h hs (by omega), List.map_cons, sysRead]
  split
  · rename_i hle
    rw [if_neg (by omega), List.take_of_length_le hle]
  · rename_i hlt
    rw [if_pos (by omega), show min (count + 1) s.length = count + 1 by omega, List.map_cons]

/-- Reading into the body takes what there is, up to the rest of the PDU. -/
theorem readBody_advance_segs {segs : List Bytes} {b : Bytes} {sz solong : Int} {e : Errno} {p : Nat}
    (h : ∀ t ∈ segs, t ≠ []) (h4 : 4 ≤ solong) (hlt : solong < sz)
    (hb : (b.length : Int) = sz + 4) :
    ∃ b' e' n, readBody ⟨⟨some b, sz, solong⟩, e, (advance p segs).map .data⟩
        = .ok (true, ⟨⟨some b', sz, solong + (n : Nat)⟩, e', (advance (p + n) segs).map .data⟩) ∧
      solong + n ≤ sz ∧ b'.length = b.length := by
  have hcount : ¬ (sz - solong < 0) := by omega
  simp only [readBody, hcount, ↓reduceIte]
  cases hs : advance p segs with
  | nil =>
      refine ⟨b, .eagain, 0, ?_, by omega, rfl⟩
      obtain ⟨count, hn⟩ := Nat.exists_eq_add_one_of_ne_zero (show (sz - solong).toNat ≠ 0 by omega)
      simp [hn, sysRead, hs]
  | cons s rest =>
      have hne : s ≠ [] := Segments.advance_ne_nil (q := p) h s (by simp [hs])
      have hpos : 0 < s.length := List.length_pos_iff.mpr hne
      have hlen : (s.take (sz - solong).toNat).length = min (sz - solong).toNat s.length := by
        rw [List.length_take]
      rw [sysRead_advance (by omega) h hs]
      cases ht : s.take (sz - solong).toNat with
      | nil =>
          rw [ht, List.length_nil] at hlen
          omega
      | cons x xs =>
          rw [← ht]
          have hfit : solong.toNat + (s.take (sz - solong).toNat).length ≤ b.length := by omega
          simp only [ht] at hfit hlen ⊢
          simp only [hfit, ↓reduceIte]
          refine ⟨_, e, min (sz - solong).toNat s.length, ?_, by omega, Memory.length_put hfit⟩
          rw [hlen]

/-- A `read` of no bytes leaves the PDU as it is after `EAGAIN`, and ends the connection otherwise. -/
theorem readBody_nothing {b : Bytes} {sz : Int} {e : Errno} {sock : List SockItem} :
    readBody ⟨⟨some b, sz, sz⟩, e, sock⟩ =
      .ok (if e = .eagain then (true, ⟨⟨some b, sz, sz⟩, e, sock⟩) else (false, ⟨.empty, e, sock⟩)) := by
  have hz : (sz - sz).toNat = 0 := by omega
  simp only [readBody, hz, sysRead]
  split
  · omega
  · split <;> rfl

theorem readpdu_size {e : Errno} {sock sock' : List SockItem} {a b c d : UInt8}
    (h : sysRead 4 sock = (.data [a, b, c, d], sock')) :
    readpdu ⟨.empty, e, sock⟩ = startPdu ⟨.empty, e, sock'⟩ a b c d := by
  simp only [readpdu, Charbuf.empty, ↓reduceIte, h]

theorem readpdu_short {e : Errno} {sock sock' : List SockItem} {bs : Bytes}
    (h : sysRead 4 sock = (.data bs, sock')) (hl : bs.length ≠ 4) :
    readpdu ⟨.empty, e, sock⟩ = .ok (false, ⟨.empty, e, sock'⟩) := by
  simp only [readpdu, Charbuf.empty, ↓reduceIte, h]
  split
  · rename_i heq
    cases heq
  · rename_i heq
    cases heq
  · rename_i heq
    cases heq
    exact absurd rfl hl
  · rename_i heq
    cases heq
    rfl

namespace Reader

/-- The segments of the stream, oldest first. -/
def segments : List Act → List Bytes
  | .arrive (.data bs) :: tr => segments tr ++ [bs]
  | _ :: tr => segments tr
  | [] => []

theorem flatten_segments (tr : List Act) : (segments tr).flatten = arrived tr := by
  induction tr with
  | nil => rfl
  | cons a tr ih =>
      cases a with
      | arrive item => cases item <;> simp [segments, arrived, ih]
      | readCb errno accept => exact ih
      | die => exact ih

/-- Something arrives, or `read_cb` is called because something is there. -/
def Clean (s : Reader) : Act → Prop
  | .arrive (.data bs) => bs ≠ []
  | .arrive (.fail _) => False
  | .readCb _ accept => accept = true ∧ s.recv.sock ≠ []
  | .die => False

/-- The bytes of the PDUs consumed so far. -/
def consumed (s : Reader) : Nat := s.delivered.flatten.length

/-- The callback reads a size with `errno` at `EAGAIN`, at position `q`. -/
def ReadsAt (s : Reader) (a : Act) (q : Nat) : Prop :=
  s.dead = false ∧ s.recv.rpdu.buf = none ∧ s.consumed = q ∧ ∃ accept, a = .readCb .eagain accept

/-- Where the reader is in the segments. Each PDU it consumed was admitted at its position; it is at the
end of the last one or in a PDU admitted there; or it stopped at one that is not. Sizes were read up to
there. -/
structure Tracks (s : Reader) (E : Nat → Prop) (segs : List Bytes) : Prop where
  done : ∀ l₁ p l₂, s.delivered = l₁ ++ p :: l₂ → Admitted E segs l₁.flatten.length
  live : s.dead = false →
    s.recv.sock = (advance (s.consumed + s.recv.rpdu.pending.length) segs).map .data ∧
    (s.recv.rpdu.buf ≠ none →
      Admitted E segs s.consumed ∧ s.recv.rpdu.solong < s.recv.rpdu.sz)
  stuck : s.dead = true → advance s.consumed segs ≠ [] ∧ ¬ Admitted E segs s.consumed
  upto : ∀ q, E q → q ≤ s.consumed
  fresh : s.dead = false → s.recv.rpdu.buf = none → ¬ E s.consumed

/-! ## Tracking the reader -/

theorem sizeAt_append {segs new : List Bytes} {q : Nat} (h : ∀ t ∈ segs, t ≠ [])
    (hn : ∀ t ∈ new, t ≠ []) (hq : advance q segs ≠ []) : sizeAt (segs ++ new) q = sizeAt segs q := by
  obtain ⟨s, rest, hs⟩ := List.exists_cons_of_ne_nil hq
  have hlt := Segments.lt_of_advance h hs
  rw [sizeAt, sizeAt, Segments.advance_append (by omega) hn, hs, List.cons_append]
  rcases s with _ | ⟨a, _ | ⟨b, _ | ⟨c, _ | ⟨d, s⟩⟩⟩⟩ <;> rfl

theorem advance_of_admitted {E : Nat → Prop} {segs : List Bytes} {q : Nat} (h : Admitted E segs q) :
    advance q segs ≠ [] := by
  obtain ⟨sz, hsz, _⟩ := h
  intro hnil
  simp [sizeAt, hnil] at hsz

theorem admitted_append {E : Nat → Prop} {segs new : List Bytes} {q : Nat} (h : ∀ t ∈ segs, t ≠ [])
    (hn : ∀ t ∈ new, t ≠ []) (hq : advance q segs ≠ []) :
    Admitted E (segs ++ new) q ↔ Admitted E segs q := by
  rw [Admitted, Admitted, sizeAt_append h hn hq]

theorem Admitted.mono {E E' : Nat → Prop} {segs : List Bytes} {q : Nat} (hE : E q → E' q)
    (h : Admitted E segs q) : Admitted E' segs q := by
  obtain ⟨sz, hsz, hle, h4⟩ := h
  exact ⟨sz, hsz, hle, fun hz => hE (h4 hz)⟩

/-- The positions of the sizes read with `EAGAIN`, after the step `a` of `s`. -/
def After (E : Nat → Prop) (s : Reader) (a : Act) (q : Nat) : Prop := E q ∨ s.ReadsAt a q

theorem after_of_not {E : Nat → Prop} {s : Reader} {a : Act} (h : ∀ q, ¬ s.ReadsAt a q) : s.After E a = E := by
  funext q
  exact propext ⟨fun hq => hq.resolve_right (h q), .inl⟩

theorem Tracks.upto_after {s : Reader} {E : Nat → Prop} {segs : List Bytes} (h : s.Tracks E segs) {a : Act} :
    ∀ q, s.After E a q → q ≤ s.consumed := by
  rintro q (hq | ⟨_, _, rfl, _⟩)
  · exact h.upto q hq
  · exact Nat.le_refl _

theorem Tracks.arrive {s : Reader} {E : Nat → Prop} {segs : List Bytes} {bs : Bytes} (h : s.Tracks E segs)
    (hseg : ∀ t ∈ segs, t ≠ []) (hbs : bs ≠ [])
    (hpos : s.dead = false →
      s.consumed + s.recv.rpdu.pending.length ≤ segs.flatten.length) :
    (s.next (.arrive (.data bs))).Tracks E (segs ++ [bs]) := by
  have hnew : ∀ t ∈ [bs], t ≠ [] := by simpa using hbs
  have hmono : ∀ q, Admitted E segs q → Admitted E (segs ++ [bs]) q := fun q hq =>
    (admitted_append hseg hnew (advance_of_admitted hq)).mpr hq
  refine ⟨fun l₁ p l₂ hd => hmono _ (h.done l₁ p l₂ hd), fun hd => ?_, fun hst => ?_, h.upto, h.fresh⟩
  · obtain ⟨hsock, hpend⟩ := h.live hd
    refine ⟨?_, fun hb => ⟨hmono _ (hpend hb).1, (hpend hb).2⟩⟩
    show s.recv.sock ++ [.data bs] = _
    rw [hsock]
    show _ = (advance (s.consumed + s.recv.rpdu.pending.length) (segs ++ [bs])).map SockItem.data
    rw [Segments.advance_append (hpos hd) hnew, List.map_append]
    rfl
  · obtain ⟨hne, hna⟩ := h.stuck hst
    have hlt : s.consumed ≤ segs.flatten.length := by
      obtain ⟨t, rest, ht⟩ := List.exists_cons_of_ne_nil hne
      exact Nat.le_of_lt (Segments.lt_of_advance hseg ht)
    refine ⟨?_, fun ha => hna ((admitted_append hseg hnew hne).mp ha)⟩
    show advance s.consumed (segs ++ [bs]) ≠ []
    rw [Segments.advance_append hlt hnew]
    simp

theorem Tracks.offer {s : Reader} {E : Nat → Prop} {segs : List Bytes} {b : Bytes} {sz solong : Int} {e : Errno}
    (hdone : ∀ l₁ p l₂, s.delivered = l₁ ++ p :: l₂ → Admitted E segs l₁.flatten.length)
    (hupto : ∀ q, E q → q ≤ s.consumed) (ha : Admitted E segs s.consumed) (h4 : 4 ≤ solong) (hle : solong ≤ sz)
    (hb : (b.length : Int) = sz + 4) {recv : Receiver} {out : Option Bytes}
    (ho : offerPdu ⟨⟨some b, sz, solong⟩, e, (advance (s.consumed + solong.toNat) segs).map .data⟩ true
      = (recv, out)) :
    ({ s with dead := false, recv := recv, delivered := s.delivered ++ out.toList }
      : Reader).Tracks E segs := by
  simp only [offerPdu] at ho
  split at ho
  · rename_i hc
    obtain rfl : sz = solong := hc.1
    cases ho
    have hl : (b.take sz.toNat).length = sz.toNat := by
      rw [List.length_take]
      omega
    have hcons : (s.delivered ++ [b.take sz.toNat]).flatten.length = s.consumed + sz.toNat := by
      simp [consumed, hl]
    refine ⟨?_, fun _ => ⟨?_, fun h => absurd rfl h⟩, by simp, fun q hq => ?_, fun _ _ hq => ?_⟩
    · intro l₁ p l₂ hd
      rcases List.append_eq_append_iff.mp hd with ⟨m, rfl, hm⟩ | ⟨m, hm, hl₂⟩
      · cases m with
        | nil =>
            rw [List.append_nil]
            exact ha
        | cons x m => simp at hm
      · cases m with
        | nil =>
            rw [List.append_nil] at hm
            rw [← hm]
            exact ha
        | cons x m =>
            simp only [List.cons_append, List.cons.injEq] at hl₂
            exact hdone l₁ p m (by rw [hm, hl₂.1])
    · simp only [consumed, Charbuf.pending, Charbuf.empty, List.flatten_append, List.length_append,
        Option.toList_some, List.flatten_cons, List.flatten_nil, List.append_nil, hl, List.length_nil,
        Nat.add_zero]
    · have hq := hupto q hq
      show q ≤ (s.delivered ++ [b.take sz.toNat]).flatten.length
      omega
    · have hq := hupto _ hq
      have hq : (s.delivered ++ [b.take sz.toNat]).flatten.length ≤ s.consumed := hq
      omega
  · rename_i hc
    cases ho
    have hne : sz ≠ solong := fun h => hc ⟨h, trivial⟩
    have hp : (Charbuf.mk (some b) sz solong).pending.length = solong.toNat := by
      simp only [Charbuf.pending, List.length_take]
      omega
    refine ⟨?_, fun _ => ⟨?_, fun _ => ⟨?_, ?_⟩⟩, by simp, ?_, fun _ hn => by cases hn⟩
    · simpa using hdone
    · simp only [consumed, Option.toList_none, List.append_nil, hp]
    · simpa [consumed] using ha
    · show solong < sz
      omega
    · simpa [consumed] using hupto

theorem length_pending {b : Bytes} {sz solong : Int} (hle : solong ≤ sz)
    (hb : (b.length : Int) = sz + 4) : (Charbuf.mk (some b) sz solong).pending.length = solong.toNat := by
  simp only [Charbuf.pending, List.length_take]
  omega

theorem Tracks.stop {s s' : Reader} {E E' : Nat → Prop} {segs : List Bytes} (h : s.Tracks E segs)
    (hE : ∀ q, E q → E' q) (hupto : ∀ q, E' q → q ≤ s.consumed) (hd : s'.delivered = s.delivered)
    (hs : s'.dead = true) (hne : advance s.consumed segs ≠ []) (hna : ¬ Admitted E' segs s.consumed) :
    s'.Tracks E' segs := by
  have hcons : s'.consumed = s.consumed := by rw [consumed, consumed, hd]
  refine ⟨fun l₁ p l₂ hl => ?_, fun h' => ?_, fun _ => hcons ▸ ⟨hne, hna⟩, hcons ▸ hupto, fun h' => ?_⟩
  · exact Admitted.mono (hE _) (h.done l₁ p l₂ (hd ▸ hl))
  · rw [hs] at h'
    cases h'
  · rw [hs] at h'
    cases h'

/-! ## One callback -/

theorem callback_ok {s : Reader} {errno : Errno} {accept succ : Bool} {recv : Receiver}
    (hd : s.dead = false) (hm : readMore { s.recv with errno := errno } = .ok (succ, recv)) :
    s.callback errno accept = { s with
      dead := !succ
      recv := (offerPdu recv accept).1
      delivered := s.delivered ++ (offerPdu recv accept).2.toList } := by
  simp only [Reader.callback, readCb, hd, Bool.false_eq_true, ↓reduceIte, hm]

theorem Tracks.body {s : Reader} {E E' : Nat → Prop} {segs : List Bytes} {b : Bytes} {sz solong : Int} {e : Errno}
    (h : s.Tracks E segs) (hE : ∀ q, E q → E' q) (hupto : ∀ q, E' q → q ≤ s.consumed)
    (hseg : ∀ t ∈ segs, t ≠ []) (ha : Admitted E' segs s.consumed) (h4 : 4 ≤ solong) (hlt : solong < sz)
    (hb : (b.length : Int) = sz + 4) (hd : s.dead = false)
    {errno : Errno} (hm : readMore { s.recv with errno := errno } = readBody
      ⟨⟨some b, sz, solong⟩, e, (advance (s.consumed + solong.toNat) segs).map SockItem.data⟩) :
    (s.callback errno true).Tracks E' segs := by
  obtain ⟨b', e', n, hr, hn, hl⟩ := readBody_advance_segs (e := e) (p := s.consumed + solong.toNat)
    hseg h4 hlt hb
  have hpos : s.consumed + solong.toNat + n = s.consumed + (solong + n).toNat := by omega
  rw [hpos] at hr
  rw [callback_ok hd (hm.trans hr)]
  exact Tracks.offer (fun l₁ p l₂ hl => Admitted.mono (hE _) (h.done l₁ p l₂ hl)) hupto ha (by omega) hn
    (by omega) rfl

/-- A PDU of four bytes goes on or stops the reader, as `errno` says. -/
theorem Tracks.bodyless {s : Reader} {E : Nat → Prop} {segs : List Bytes} {b : Bytes} (h : s.Tracks E segs)
    (hsize : sizeAt segs s.consumed = some 4) (hne : advance s.consumed segs ≠ [])
    (hb : (b.length : Int) = 4 + 4) (hd : s.dead = false) (hbuf : s.recv.rpdu.buf = none) {errno : Errno}
    (hm : readMore { s.recv with errno := errno } = readBody
      ⟨⟨some b, 4, 4⟩, errno, (advance (s.consumed + 4) segs).map SockItem.data⟩) :
    (s.callback errno true).Tracks (s.After E (.readCb errno true)) segs := by
  rw [readBody_nothing] at hm
  cases errno with
  | eagain =>
      rw [if_pos rfl] at hm
      rw [callback_ok hd hm]
      have ha : Admitted (s.After E (.readCb .eagain true)) segs s.consumed :=
        ⟨4, hsize, by decide, fun _ => .inr ⟨hd, hbuf, rfl, true, rfl⟩⟩
      exact Tracks.offer (fun l₁ p l₂ hl => Admitted.mono .inl (h.done l₁ p l₂ hl)) h.upto_after ha (Int.le_refl 4)
        (Int.le_refl 4) hb rfl
  | other =>
      rw [if_neg (by decide)] at hm
      rw [callback_ok hd hm]
      apply h.stop (fun _ => .inl) h.upto_after (by simp [offerPdu, Charbuf.empty]) rfl hne
      rintro ⟨sz, hsz, _, h4⟩
      rw [hsize, Option.some.injEq] at hsz
      rcases h4 hsz.symm with hE | ⟨_, _, _, _, he⟩
      · exact h.fresh hd hbuf hE
      · cases he

/-- A size that comes in one piece starts a PDU, or stops the reader. -/
theorem Tracks.size {s : Reader} {E : Nat → Prop} {segs rest : List Bytes} {a b c d : UInt8} {t : Bytes}
    (h : s.Tracks E segs) (hseg : ∀ t ∈ segs, t ≠ [])
    (hbig : ∀ sz, sizeAt segs s.consumed = some sz → 4 ≤ sz)
    (hadv : advance s.consumed segs = (a :: b :: c :: d :: t) :: rest) (hd : s.dead = false)
    (hbuf : s.recv.rpdu.buf = none) {errno : Errno} (hm : readMore { s.recv with errno := errno } = startPdu
      ⟨.empty, errno, (advance (s.consumed + 4) segs).map SockItem.data⟩ a b c d) :
    (s.callback errno true).Tracks (s.After E (.readCb errno true)) segs := by
  have hsize : sizeAt segs s.consumed = some (BigEndian.word a b c d).toInt32.toInt := by
    rw [sizeAt, hadv]
  have hne : advance s.consumed segs ≠ [] := by simp [hadv]
  by_cases hmax : (BigEndian.word a b c d).toInt32.toInt > maxPdu
  · rw [startPdu, if_pos hmax] at hm
    rw [callback_ok hd hm]
    apply h.stop (fun _ => .inl) h.upto_after (by simp [offerPdu, Charbuf.empty]) rfl hne
    rintro ⟨sz, hsz, hle, _⟩
    rw [hsize, Option.some.injEq] at hsz
    omega
  · have hok := hbig _ hsize
    have hle : (BigEndian.word a b c d).toInt32.toInt ≤ maxPdu := by omega
    obtain ⟨buf, hlen, heq⟩ := startPdu_readBody
      (s := ⟨.empty, errno, (advance (s.consumed + 4) segs).map SockItem.data⟩) rfl hok hle
    have hm' := hm.trans heq
    generalize (BigEndian.word a b c d).toInt32.toInt = sz at *
    by_cases h4 : sz = 4
    · subst h4
      exact h.bodyless hsize hne hlen hd hbuf hm'
    · exact h.body (fun _ => .inl) h.upto_after hseg ⟨_, hsize, hle, fun hz => absurd hz h4⟩ (Int.le_refl 4)
        (by omega) hlen hd hm'

theorem Tracks.callback {s : Reader} {E : Nat → Prop} {segs : List Bytes} (h : s.Tracks E segs) (hs : s.Safe)
    (hseg : ∀ t ∈ segs, t ≠ []) (hbig : ∀ sz, sizeAt segs s.consumed = some sz → 4 ≤ sz)
    (errno : Errno) (hsock : s.recv.sock ≠ []) :
    (s.callback errno true).Tracks (s.After E (.readCb errno true)) segs := by
  cases hd : s.dead with
  | true =>
      rw [after_of_not fun q hq => by simp [ReadsAt, hd] at hq]
      simp only [Reader.callback, readCb, hd, ↓reduceIte, Option.toList_none, List.append_nil]
      exact ⟨h.done, by simp, fun _ => h.stuck hd, h.upto, by simp⟩
  | false =>
      obtain ⟨hitems, hpend⟩ := h.live hd
      have hb := hs.bounds
      generalize hr : s.recv = recv at hb hitems hpend hsock
      obtain ⟨rpdu, e, sock⟩ := recv
      simp only at hb hpend hsock
      cases hb with
      | @some b sz solong h4 hle hmax hlen =>
          rw [after_of_not fun q hq => by simp [ReadsAt, hr] at hq]
          obtain ⟨ha, hlt⟩ := hpend (by simp)
          simp only [length_pending hle hlen] at hitems
          apply h.body (fun _ hq => hq) h.upto hseg ha h4 hlt hlen hd (e := errno)
          rw [hr, ← hitems, readMore, if_pos (.inr hlt), readpdu, if_neg (by simp only; omega)]
      | none =>
          have hbuf : s.recv.rpdu.buf = none := by rw [hr]; rfl
          have hm : readMore { s.recv with errno := errno } = readpdu ⟨.empty, errno, sock⟩ := by
            rw [hr, readMore, if_pos (.inl rfl)]
          have hitems : sock = (advance s.consumed segs).map .data := by
            simpa [Charbuf.pending, Charbuf.empty] using hitems
          have hne : advance s.consumed segs ≠ [] := by
            rintro hnil
            exact hsock (by rw [hitems, hnil]; rfl)
          obtain ⟨seg, rest, hadv⟩ := List.exists_cons_of_ne_nil hne
          have hread := sysRead_advance (show 0 < 4 by omega) hseg hadv
          rw [← hadv, ← hitems] at hread
          have hshort : seg.length < 4 →
              (s.callback errno true).Tracks (s.After E (.readCb errno true)) segs := by
            intro hl
            have hm' := hm.trans (readpdu_short hread (by simp; omega))
            rw [callback_ok hd hm']
            apply h.stop (fun _ => .inl) h.upto_after (by simp [offerPdu, Charbuf.empty]) rfl hne
            rintro ⟨sz, hsz, _⟩
            simp only [sizeAt, hadv] at hsz
            split at hsz
            · rename_i heq
              cases heq
              simp at hl
              omega
            · cases hsz
          rcases seg with _ | ⟨a, _ | ⟨b, _ | ⟨c, _ | ⟨d, t⟩⟩⟩⟩
          · exact hshort (by simp)
          · exact hshort (by simp)
          · exact hshort (by simp)
          · exact hshort (by simp)
          · exact h.size hseg hbig hadv hd hbuf (hm.trans (readpdu_size (by simpa using hread)))

/-- With something to read and no PDU of less than four bytes, a clean step reads no bad size. -/
theorem Tracks.sizesOk {s : Reader} {E : Nat → Prop} {segs : List Bytes} {a : Act} (h : s.Tracks E segs) (hs : s.Safe)
    (hseg : ∀ t ∈ segs, t ≠ []) (hbig : ∀ sz, sizeAt segs s.consumed = some sz → 4 ≤ sz)
    (hc : s.Clean a) : s.SizesOk a := by
  cases a with
  | arrive item => trivial
  | die => trivial
  | readCb errno accept =>
      intro hd hz
      have hempty := inBounds_empty hs.bounds hz
      have hitems := (h.live hd).1
      rw [hempty] at hitems
      have hitems : s.recv.sock = (advance s.consumed segs).map .data := by
        simpa [Charbuf.pending, Charbuf.empty] using hitems
      have hne : advance s.consumed segs ≠ [] := by
        rintro hnil
        exact hc.2 (by rw [hitems, hnil]; rfl)
      obtain ⟨seg, rest, hadv⟩ := List.exists_cons_of_ne_nil hne
      have hread := sysRead_advance (show 0 < 4 by omega) hseg hadv
      rw [← hadv, ← hitems] at hread
      rw [Receiver.SizeOk, hread]
      rcases seg with _ | ⟨a, _ | ⟨b, _ | ⟨c, _ | ⟨d, t⟩⟩⟩⟩
      · trivial
      · trivial
      · trivial
      · trivial
      · have h4 := hbig (BigEndian.word a b c d).toInt32.toInt (by rw [sizeAt, hadv])
        show 4 ≤ (BigEndian.word a b c d).toInt32.toInt
        omega

end Reader

/-! ## Runs of a link -/

namespace Link

/-- The sender moves as it likes; the reader's steps are clean. -/
def Clean (s : Link) : Act → Prop
  | .snd _ => True
  | .rcv a => s.rcv.Clean a

/-- The segments in which the stream arrived, oldest first. -/
def segments (tr : List Act) : List Bytes := Reader.segments (tr.filterMap rcvAct)

/-- `errno` was `EAGAIN` when `read_cb` read the size at position `q`. -/
def EagainAt (tr : List Act) (q : Nat) : Prop :=
  ∃ late a early s, tr = late ++ .rcv a :: early ∧ lts.Run early s ∧ s.rcv.ReadsAt a q

/-- Some `read` can get the four bytes from position `q` on at once. -/
def SizeWhole (segs : List Bytes) (q : Nat) : Prop :=
  ∃ s rest, advance q segs = s :: rest ∧ 4 ≤ s.length

theorem segments_ne_nil {tr : List Act} {s : Link} (h : (lts.restrict Clean).Run tr s) :
    ∀ t ∈ segments tr, t ≠ [] := by
  induction h with
  | init h => simp [segments, Reader.segments]
  | @step tr s a _ hg ih =>
      cases a with
      | snd a => exact ih
      | rcv a =>
          have hc : s.rcv.Clean a := hg.2
          cases a with
          | readCb errno accept => exact ih
          | die => exact ih
          | arrive item =>
              cases item with
              | fail e => exact ih
              | data bs =>
                  intro t ht
                  have ht : t ∈ segments tr ++ [bs] := ht
                  rcases List.mem_append.mp ht with ht | ht
                  · exact ih t ht
                  · rw [List.mem_singleton.mp ht]
                    exact hc

theorem sizeAt_bytes {segs : List Bytes} {q : Nat} {sz : Int} (h : sizeAt segs q = some sz) :
    ∃ a b c d t, segs.flatten.drop q = a :: b :: c :: d :: t ∧
      sz = (BigEndian.word a b c d).toInt32.toInt := by
  unfold sizeAt at h
  split at h
  · rename_i a b c d t rest hadv
    refine ⟨a, b, c, d, t ++ rest.flatten, ?_, (Option.some.inj h).symm⟩
    rw [← Segments.flatten_advance, hadv]
    rfl
  · cases h

theorem sizeWhole_of_sizeAt {segs : List Bytes} {q : Nat} {sz : Int} (h : sizeAt segs q = some sz) :
    SizeWhole segs q := by
  unfold sizeAt at h
  split at h
  · rename_i hadv
    exact ⟨_, _, hadv, by simp⟩
  · cases h

theorem sizeAt_of_sizeWhole {segs : List Bytes} {q : Nat} (h : SizeWhole segs q) :
    ∃ sz, sizeAt segs q = some sz := by
  obtain ⟨s, rest, hadv, hl⟩ := h
  rw [sizeAt, hadv]
  rcases s with _ | ⟨a, _ | ⟨b, _ | ⟨c, _ | ⟨d, t⟩⟩⟩⟩
  · simp at hl
  · simp at hl
  · simp at hl
  · simp at hl
  · exact ⟨_, rfl⟩

theorem consumed_frames {tr : List Act} {s : Link} (h : lts.Run tr s) :
    ∃ l₁ l₂, s.snd.started = l₁ ++ l₂ ∧ (s.rcv.delivered = l₁.map fun b => frame b.1) ∧
      s.rcv.consumed = (Sender.frames l₁).length := by
  obtain ⟨l₁, ⟨l₂, hl⟩, hmap⟩ := List.prefix_map_iff.mp (delivered_prefix_started h)
  refine ⟨l₁, l₂, hl.symm, hmap, ?_⟩
  rw [Reader.consumed, hmap]
  rfl

/-- A size that can be read where a PDU starts is the length of that PDU. -/
theorem size_of_next {tr : List Act} {s : Link} (h : lts.Run tr s) {l₁ l₂ : List Pdu} {sz : Int}
    (hl : s.snd.started = l₁ ++ l₂)
    (hsz : sizeAt (segments tr) (Sender.frames l₁).length = some sz) :
    ∃ b l₃, l₂ = b :: l₃ ∧ sz = b.1.length := by
  obtain ⟨a, b, c, d, t, hdrop, rfl⟩ := sizeAt_bytes hsz
  obtain ⟨r, hr⟩ := arrived_prefix_frames h
  rw [segments, Reader.flatten_segments] at hdrop
  rw [hl, Sender.frames_append] at hr
  have hnext : a :: b :: c :: d :: (t ++ r) = Sender.frames l₂ := by
    have hd := congrArg (List.drop (Sender.frames l₁).length) hr
    have hle : (Sender.frames l₁).length ≤ (Reader.arrived (tr.filterMap rcvAct)).length := by
      by_contra hlt
      rw [List.drop_eq_nil_of_le (by omega)] at hdrop
      cases hdrop
    rw [List.drop_append_of_le_length hle, hdrop, List.drop_left] at hd
    exact hd
  cases l₂ with
  | nil => cases hnext
  | cons b₀ l₃ =>
      refine ⟨b₀, l₃, rfl, ?_⟩
      have hf := isFrame_frame b₀
      have h4 : sizeBytes b₀.1.length = [a, b, c, d] := by
        have ht := congrArg (List.take 4) hnext
        rw [show b₀ :: l₃ = [b₀] ++ l₃ from rfl, Sender.frames_append, Sender.frames_singleton,
          List.take_append_of_le_length hf.long, hf.size, length_frame] at ht
        exact ht.symm
      exact word_sizeBytes b₀.2.2 h4

theorem four_le_size {tr : List Act} {s : Link} (h : lts.Run tr s) {sz : Int}
    (hsz : sizeAt (segments tr) s.rcv.consumed = some sz) : 4 ≤ sz := by
  obtain ⟨l₁, l₂, hl, _, hq⟩ := consumed_frames h
  obtain ⟨b, _, _, rfl⟩ := size_of_next h hl (hq ▸ hsz)
  have hb : 4 ≤ b.1.length := b.2.1
  omega

theorem eagainAt_rcv {tr : List Act} {s : Link} (h : lts.Run tr s) (a : Reader.Act) :
    EagainAt (.rcv a :: tr) = s.rcv.After (EagainAt tr) a := by
  funext q
  refine propext ⟨?_, ?_⟩
  · rintro ⟨late, a', early, s', heq, hr, hq⟩
    cases late with
    | nil =>
        cases heq
        obtain rfl := h.unique (by rintro _ _ rfl rfl; rfl) hr
        exact .inr hq
    | cons b late =>
        cases heq
        exact .inl ⟨late, a', early, s', rfl, hr, hq⟩
  · rintro (⟨late, a', early, s', rfl, hr, hq⟩ | hq)
    · exact ⟨.rcv a :: late, a', early, s', rfl, hr, hq⟩
    · exact ⟨[], a, tr, s, rfl, h, hq⟩

theorem eagainAt_snd (tr : List Act) (a : Sender.Act) : EagainAt (.snd a :: tr) = EagainAt tr := by
  funext q
  refine propext ⟨?_, ?_⟩
  · rintro ⟨late, a', early, s', heq, hr, hq⟩
    cases late with
    | nil => cases heq
    | cons b late =>
        cases heq
        exact ⟨late, a', early, s', rfl, hr, hq⟩
  · rintro ⟨late, a', early, s', rfl, hr, hq⟩
    exact ⟨.snd a :: late, a', early, s', rfl, hr, hq⟩

/-- A clean run has no fault, and the reader is where its segments say. -/
theorem tracks_of_run {tr : List Act} {s : Link} (h : (lts.restrict Clean).Run tr s) :
    s.rcv.Safe ∧ s.rcv.Tracks (EagainAt tr) (segments tr) := by
  induction h with
  | init h =>
      cases h
      have hno : ∀ q, ¬ EagainAt [] q := by
        rintro q ⟨late, a, early, s, heq, _⟩
        simp at heq
      exact ⟨⟨rfl, .none⟩, ⟨by simp [Reader.init], fun _ => ⟨rfl, fun h => absurd rfl h⟩,
        fun hd => absurd hd Bool.false_ne_true, fun q hq => absurd hq (hno q), fun _ _ => hno _⟩⟩
  | @step tr s a hr hg ih =>
      obtain ⟨hs, ht⟩ := ih
      have hrun := hr.of_restrict
      have hseg := segments_ne_nil hr
      cases a with
      | snd a =>
          rw [eagainAt_snd]
          exact ⟨hs, ht⟩
      | rcv a =>
          rw [eagainAt_rcv hrun]
          have hc : s.rcv.Clean a := hg.2
          refine ⟨hs.step (ht.sizesOk hs hseg (fun _ => four_le_size hrun) hc), ?_⟩
          cases a with
          | die => exact absurd hc id
          | readCb errno accept =>
              obtain ⟨rfl, hsock⟩ := hc
              exact ht.callback hs hseg (fun _ => four_le_size hrun) errno hsock
          | arrive item =>
              cases item with
              | fail e => exact absurd hc id
              | data bs =>
                  rw [Reader.after_of_not fun q hq => by simp [Reader.ReadsAt] at hq]
                  refine ht.arrive hseg hc fun hd => ?_
                  have hlive := (Reader.parsed_of_run (hrun.component reader_component)).live hs.fault hd
                  have hlen := congrArg List.length hlive
                  rw [segments, Reader.flatten_segments, ← hlen, Reader.consumed]
                  simp only [List.length_append]
                  omega

/-- A PDU is admitted where it starts if it is not too long, its size came in one piece, and `errno` was
`EAGAIN` if it has no body. -/
theorem admitted_iff {tr : List Act} {s : Link} (h : lts.Run tr s) {E : Nat → Prop} {l₁ l₂ : List Pdu} {b : Pdu}
    (hl : s.snd.started = l₁ ++ b :: l₂) : Admitted E (segments tr) (Sender.frames l₁).length ↔
      b.1.length ≤ maxPdu ∧ SizeWhole (segments tr) (Sender.frames l₁).length ∧
        (b.1.length = 4 → E (Sender.frames l₁).length) := by
  constructor
  · rintro ⟨sz, hsz, hmax, h4⟩
    obtain ⟨b', l₃, heq, rfl⟩ := size_of_next h hl hsz
    cases heq
    exact ⟨by exact_mod_cast hmax, sizeWhole_of_sizeAt hsz, fun hz => h4 (by exact_mod_cast hz)⟩
  · rintro ⟨hmax, hw, h4⟩
    obtain ⟨sz, hsz⟩ := sizeAt_of_sizeWhole hw
    obtain ⟨b', l₃, heq, rfl⟩ := size_of_next h hl hsz
    cases heq
    exact ⟨_, hsz, by exact_mod_cast hmax, fun hz => h4 (by exact_mod_cast hz)⟩

theorem pending_short {s : Reader} {E : Nat → Prop} {segs : List Bytes} (hs : s.Safe) (ht : s.Tracks E segs)
    (hst : s.recv.rpdu.Stamped) (hd : s.dead = false) {b : Pdu} {l : List Pdu}
    (hp : s.recv.rpdu.pending = Sender.frames (b :: l)) : False := by
  have hf := isFrame_frame b
  have hcons : Sender.frames (b :: l) = frame b.1 ++ Sender.frames l := by
    rw [show b :: l = [b] ++ l from rfl, Sender.frames_append, Sender.frames_singleton]
  have hlong := congrArg List.length hp
  rw [hcons, List.length_append, length_frame] at hlong
  have hb4 : 4 ≤ b.1.length := b.2.1
  have hb := hs.bounds
  have hpend := (ht.live hd).2
  generalize s.recv.rpdu = c at hb hpend hp hst hlong
  cases hb with
  | none =>
      simp only [Charbuf.pending, Charbuf.empty, List.length_nil] at hlong
      omega
  | @some buf sz solong h4 hle hmax hlen =>
      have hlt : solong < sz := (hpend (by simp)).2
      have hsize : sizeBytes sz.toNat = sizeBytes b.1.length := by
        have h4' : min 4 solong.toNat = 4 := by omega
        have htake := congrArg (List.take 4) hp
        rw [hcons, List.take_append_of_le_length hf.long, hf.size, length_frame] at htake
        simp only [Charbuf.pending, List.take_take, h4'] at htake
        rw [Int.toNat_of_nonneg (by omega), ← htake]
        exact (hst buf rfl).symm
      have hm : sz ≤ 10485760 := hmax
      have hsz := sizeBytes_inj (by omega) b.2.2 hsize
      rw [Reader.length_pending hle hlen] at hlong
      omega

end Link
end StanDfs
