import StanDfs.Lib.Holders
import StanDfs.Rpc.Lemmas.Calls

/-!
# The connections of a client

What `get_refconn`, `call1` and `~rpcc` do to `chan_` and to the references of its connections. `decref`
deletes a connection only if it is dead when its last reference goes; a client gives back the reference of
`chan_` only after `isdead` or `closeconn`, so that none is left behind.
-/

namespace StanDfs

open Holders (one count)

/-- The `ch` of a thread in `call1`. -/
def Thread.held {χ : Type*} : Thread χ → Option χ
  | .transmit f | .send f _ | .waiting f | .lost f | .leaving f | .returning f => f.ch
  | .idle | .binding _ => none

/-- An `rpcc` with its connections. `known` has those that `connect_to_dst` made. -/
structure Chans (χ : Type*) where
  clt : Rpcc χ
  refno : χ → Int
  deleted : List χ
  known : List χ

namespace Chans

open Rpcc (Act Env)

variable {χ : Type*} [DecidableEq χ]

def init : Chans χ := ⟨Rpcc.init, fun _ => 0, [], []⟩

def incref (s : Chans χ) (c : χ) : Chans χ :=
  { s with refno := Function.update s.refno c (s.refno c + 1) }

def decref (s : Chans χ) (c : χ) : Chans χ :=
  let n := s.refno c - 1
  { s with
    refno := Function.update s.refno c n
    deleted := if n = 0 ∧ c ∈ s.clt.dead then c :: s.deleted else s.deleted }

/-- `if(ch) ch->decref()` -/
def drop (s : Chans χ) : Option χ → Chans χ
  | some c => s.decref c
  | none => s

/-- A new connection has the reference of its constructor. -/
def adopt (s : Chans χ) : Option χ → Chans χ
  | some c => { s with refno := Function.update s.refno c 1, known := c :: s.known }
  | none => s

/-- `get_refconn` of a thread whose `ch` is `ch`; `conn` is what `connect_to_dst` gives, if it is called. -/
def getRefconn (s : Chans χ) (ch conn : Option χ) : Chans χ :=
  let chan := if s.clt.chanAlive then s.clt.chan else conn
  let s := if s.clt.chanAlive then s else (s.drop s.clt.chan).adopt conn
  match chan with
  | some c => (s.drop ch).incref c
  | none => s

/-- What a step of the client does to references. -/
def refs (s : Chans χ) : Act χ → Chans χ
  | .getRefconn _ f conn => s.getRefconn f.ch conn
  | .ret _ f _ => s.drop f.ch
  | _ => s

def next (e : Env) (s : Chans χ) (a : Act χ) : Chans χ := { s.refs a with clt := s.clt.next e a }

/-- The connections that a step uses. -/
def uses (s : Chans χ) : Act χ → List χ
  | .getRefconn _ f _ => s.clt.chan.toList ++ f.ch.toList
  | .tx _ _ c _ => [c]
  | .isdead _ f | .ret _ f _ => f.ch.toList
  | _ => []

def guard (s : Chans χ) (a : Act χ) : Prop :=
  s.clt.guard a ∧
  match a with
  | .getRefconn _ _ conn => ∀ c ∈ conn, c ∉ s.known
  | .die c => c ∈ s.known
  | _ => True

/-- The runs of a client with its connections. -/
def lts (e : Env) : Lts (Chans χ) (Act χ) where
  init s := s = init
  guard := guard
  next := next e

instance (s : Chans χ) (a : Act χ) : Decidable (guard s a) := by
  unfold guard
  apply @Act.casesOn _ _ a <;> intros <;> infer_instance

instance (e : Env) (s : Chans χ) (a : Act χ) : Decidable ((lts e).guard s a) :=
  inferInstanceAs (Decidable (guard s a))

/-- `~rpcc`: `closeconn` and `decref`. -/
def destroy (s : Chans χ) : Chans χ :=
  { s with clt := { s.clt with dead := s.clt.chan.toList ++ s.clt.dead } }.drop s.clt.chan

/-! ## What is deleted -/

/-- The connections that were deleted are those without a reference, each once. -/
def Books (s : Chans χ) : Prop := ∀ c, s.deleted.count c = if c ∈ s.known ∧ s.refno c = 0 then 1 else 0

variable {s : Chans χ}

theorem refno_drop (o : Option χ) (c : χ) : (s.drop o).refno c = s.refno c - one o c := by
  cases o with
  | none => simp [drop]
  | some c' =>
      by_cases h : c' = c
      · subst h
        simp [drop, decref]
      · simp [drop, decref, Function.update_of_ne (Ne.symm h), Holders.one_some, h]

theorem refno_incref (c c' : χ) : (s.incref c).refno c' = s.refno c' + one (some c) c' := by
  by_cases h : c = c'
  · subst h
    simp [incref]
  · simp [incref, Function.update_of_ne (Ne.symm h), Holders.one_some, h]

theorem refno_adopt {o : Option χ} (ho : ∀ c ∈ o, s.refno c = 0) (c : χ) :
    (s.adopt o).refno c = s.refno c + one o c := by
  cases o with
  | none => simp [adopt]
  | some c' =>
      by_cases h : c' = c
      · subst h
        simp [adopt, ho c' rfl]
      · simp [adopt, Function.update_of_ne (Ne.symm h), Holders.one_some, h]

@[simp] theorem known_drop (o : Option χ) : (s.drop o).known = s.known := by
  cases o <;> rfl

@[simp] theorem clt_drop (o : Option χ) : (s.drop o).clt = s.clt := by
  cases o <;> rfl

@[simp] theorem clt_adopt (o : Option χ) : (s.adopt o).clt = s.clt := by
  cases o <;> rfl

theorem mem_known_adopt (o : Option χ) (c : χ) : c ∈ (s.adopt o).known ↔ c ∈ o ∨ c ∈ s.known := by
  cases o with
  | none => simp [adopt]
  | some c' => simp [adopt, eq_comm]

theorem count_deleted_drop (c c' : χ) : (s.drop (some c)).deleted.count c' =
    s.deleted.count c' + if s.refno c = 1 ∧ c ∈ s.clt.dead then one (some c) c' else 0 := by
  have hz : s.refno c - 1 = 0 ↔ s.refno c = 1 := by omega
  simp only [drop, decref, hz]
  split
  · exact Holders.count_cons c c' s.deleted
  · rfl

theorem Books.drop {o : Option χ} (h : Books s)
    (ho : ∀ c ∈ o, c ∈ s.known ∧ 0 < s.refno c ∧ (s.refno c = 1 → c ∈ s.clt.dead)) : Books (s.drop o) := by
  cases o with
  | none => exact h
  | some c =>
      obtain ⟨hk, hpos, hd⟩ := ho c rfl
      intro c'
      have hc := h c'
      rw [count_deleted_drop, refno_drop, known_drop, Holders.one_some, hc]
      by_cases hcc : c = c'
      · subst hcc
        by_cases hone : s.refno c = 1
        · rw [if_neg (by omega), if_pos ⟨hone, hd hone⟩, if_pos rfl, if_pos ⟨hk, by simp [hone]⟩]
        · rw [if_neg (by omega), if_neg (by omega), if_pos rfl, if_neg (by omega)]
      · simp [hcc]

theorem Books.incref {c : χ} (h : Books s) (hpos : 0 < s.refno c) : Books (s.incref c) := by
  intro c'
  rw [refno_incref]
  have hc := h c'
  by_cases hcc : c = c'
  · subst hcc
    rw [if_neg (by omega)] at hc
    rw [Holders.one_self, if_neg (by omega)]
    exact hc
  · rw [Holders.one_some, if_neg hcc, Nat.cast_zero, add_zero]
    exact hc

theorem Books.adopt {o : Option χ} (h : Books s) (ho : ∀ c ∈ o, c ∉ s.known ∧ s.refno c = 0) :
    Books (s.adopt o) := by
  intro c
  have hc := h c
  have hdel : (s.adopt o).deleted = s.deleted := by cases o <;> rfl
  simp only [hdel, hc, refno_adopt fun c hc => (ho c hc).2, mem_known_adopt]
  cases o with
  | none => simp
  | some c' =>
      obtain ⟨hk, hz⟩ := ho c' rfl
      by_cases hcc : c' = c
      · subst hcc
        rw [if_neg (by simp [hk]), if_neg (by simp [hz])]
      · simp [Holders.one_some, hcc]

/-! ## Who has a reference -/

/-- `chan_` and the threads in `call1` have the references. A connection that is not dead is `chan_`. -/
structure Kept (s : Chans χ) (H : Finset Tid) : Prop where
  idle : ∀ t ∉ H, s.clt.threads t = .idle
  refno : ∀ c, s.refno c = one s.clt.chan c + count H (fun t => (s.clt.threads t).held) c
  unknown : ∀ c ∉ s.known, s.refno c = 0
  live : ∀ c ∈ s.known, c ∉ s.clt.dead → s.clt.chan = some c
  dead : ∀ c ∈ s.clt.dead, c ∈ s.known
  books : Books s

variable {H : Finset Tid} {e : Env}

theorem Kept.pos_of_held (h : s.Kept H) {t : Tid} {c : χ} (ht : (s.clt.threads t).held = some c) :
    0 < count H (fun t => (s.clt.threads t).held) c := by
  have hin : t ∈ H := by
    by_contra hn
    rw [h.idle t hn] at ht
    cases ht
  have hle := Holders.one_le_count (f := fun t => (s.clt.threads t).held) c hin
  simp only [ht, Holders.one_self] at hle
  omega

theorem Kept.known_of_pos (h : s.Kept H) {c : χ} (hc : 0 < s.refno c) : c ∈ s.known := by
  by_contra hn
  have := h.unknown c hn
  omega

/-- One more thread may be looked at. -/
theorem Kept.more (h : s.Kept H) (t : Tid) : s.Kept (insert t H) := by
  by_cases ht : t ∈ H
  · rwa [Finset.insert_eq_of_mem ht]
  · refine { h with idle := fun t' ht' => h.idle t' fun hin => ht' (Finset.mem_insert_of_mem hin), refno := ?_ }
    intro c
    rw [Holders.count_insert c (by rw [h.idle t ht]; rfl)]
    exact h.refno c

/-- A thread goes on, and what it has changes. -/
theorem count_held {u : Rpcc χ} {t : Tid} {p : Thread χ} (ht : t ∈ H)
    (hp : u.threads = Function.update s.clt.threads t p) (c : χ) :
    count H (fun t => (u.threads t).held) c + one (s.clt.threads t).held c =
      count H (fun t => (s.clt.threads t).held) c + one p.held c := by
  have hf : (fun t' => (u.threads t').held) = Function.update (fun t' => (s.clt.threads t').held) t p.held := by
    funext t'
    by_cases h : t' = t
    · subst h
      simp [hp]
    · simp [hp, Function.update_of_ne h]
  rw [hf]
  exact Holders.count_update _ _ _ ht

/-- A step that takes and gives back no reference. -/
theorem Kept.quiet {u : Rpcc χ} {t : Tid} {p : Thread χ} (h : s.Kept H) (hchan : u.chan = s.clt.chan)
    (hdead : u.dead = s.clt.dead) (hp : u.threads = Function.update s.clt.threads t p)
    (hh : p.held = (s.clt.threads t).held) : Kept { s with clt := u } (insert t H) := by
  have hi := h.more t
  refine ⟨fun t' ht' => ?_, fun c => ?_, hi.unknown, ?_, ?_, hi.books⟩
  · rw [hp, Function.update_of_ne (by rintro rfl; exact ht' (Finset.mem_insert_self _ _))]
    exact hi.idle t' ht'
  · have hc := count_held (u := u) (Finset.mem_insert_self t H) hp c
    have := hi.refno c
    rw [hh] at hc
    simp only [hchan]
    omega
  · simp only [hchan, hdead]
    exact hi.live
  · simp only [hdead]
    exact hi.dead

/-- A step in which no thread moves. -/
theorem Kept.frame {u : Rpcc χ} (h : s.Kept H) (hchan : u.chan = s.clt.chan) (hdead : u.dead = s.clt.dead)
    (hp : u.threads = s.clt.threads) : Kept { s with clt := u } H :=
  ⟨by simpa only [hp] using h.idle, by simpa only [hp, hchan] using h.refno, h.unknown,
    by simpa only [hchan, hdead] using h.live, by simpa only [hdead] using h.dead, h.books⟩

/-- A connection dies. -/
theorem Kept.die {c : χ} (h : s.Kept H) (hc : c ∈ s.known) :
    Kept { s with clt := { s.clt with dead := c :: s.clt.dead } } H where
  idle := h.idle
  refno := h.refno
  unknown := h.unknown
  live c' hk hd := h.live c' hk fun hin => hd (List.mem_cons_of_mem _ hin)
  dead c' hd := by
    rcases List.mem_cons.mp hd with rfl | hd
    · exact hc
    · exact h.dead c' hd
  books := h.books

/-- A thread gives back the reference that it has, if any. -/
theorem Kept.drop {u : Rpcc χ} {t : Tid} {p : Thread χ} (h : s.Kept H) (hchan : u.chan = s.clt.chan)
    (hdead : u.dead = s.clt.dead) (hp : u.threads = Function.update s.clt.threads t p)
    (hh : p.held = none) : Kept { s.drop (s.clt.threads t).held with clt := u } (insert t H) := by
  have hi := h.more t
  have hrefs : ∀ c, (s.drop (s.clt.threads t).held).refno c =
      one s.clt.chan c + count (insert t H) (fun t => (u.threads t).held) c := by
    intro c
    have hc := count_held (u := u) (Finset.mem_insert_self t H) hp c
    rw [refno_drop, hi.refno c]
    rw [hh, Holders.one_none] at hc
    omega
  have hbooks : Books (s.drop (s.clt.threads t).held) := by
    refine hi.books.drop fun c hc => ?_
    have hpos := hi.pos_of_held hc
    have hrc := hi.refno c
    refine ⟨hi.known_of_pos (by omega), by omega, fun hone => ?_⟩
    by_contra hlive
    rw [hi.live c (hi.known_of_pos (by omega)) hlive, Holders.one_self] at hrc
    omega
  refine ⟨fun t' ht' => ?_, fun c => ?_, fun c hc => ?_, ?_, ?_, hbooks⟩
  · rw [hp, Function.update_of_ne (by rintro rfl; exact ht' (Finset.mem_insert_self _ _))]
    exact hi.idle t' ht'
  · rw [hchan]
    exact hrefs c
  · have hk : c ∉ s.known := by simpa using hc
    have hz := hi.unknown c hk
    have hr := refno_drop (s := s) (s.clt.threads t).held c
    have hle := hrefs c
    show (s.drop (s.clt.threads t).held).refno c = 0
    omega
  · simp only [known_drop, hchan, hdead]
    exact hi.live
  · simp only [known_drop, hdead]
    exact hi.dead

/-- A thread that has no reference gets one to `chan_`. -/
theorem Kept.take {u : Rpcc χ} {t : Tid} {p : Thread χ} {c : χ} (h : s.Kept H) (hc : s.clt.chan = some c)
    (hchan : u.chan = s.clt.chan) (hdead : u.dead = s.clt.dead)
    (hp : u.threads = Function.update s.clt.threads t p) (hno : (s.clt.threads t).held = none)
    (hh : p.held = some c) : Kept { s.incref c with clt := u } (insert t H) := by
  have hi := h.more t
  have hpos : 0 < s.refno c := by
    rw [hi.refno c, hc, Holders.one_self]
    omega
  refine ⟨fun t' ht' => ?_, fun c' => ?_, fun c' hc' => ?_, ?_, ?_, hi.books.incref hpos⟩
  · rw [hp, Function.update_of_ne (by rintro rfl; exact ht' (Finset.mem_insert_self _ _))]
    exact hi.idle t' ht'
  · have hcount := count_held (u := u) (Finset.mem_insert_self t H) hp c'
    have hr := hi.refno c'
    rw [hno, hh, Holders.one_none] at hcount
    have hinc := refno_incref (s := s) c c'
    show (s.incref c).refno c' = one u.chan c' + count (insert t H) (fun t => (u.threads t).held) c'
    rw [hchan]
    omega
  · have hk : c' ∉ s.known := hc'
    have hne : c ≠ c' := by
      rintro rfl
      exact hk (hi.known_of_pos hpos)
    have hz := hi.unknown c' hk
    have hinc := refno_incref (s := s) c c'
    rw [Holders.one_some, if_neg hne] at hinc
    show (s.incref c).refno c' = 0
    omega
  · rw [hchan, hdead]
    exact hi.live
  · rw [hdead]
    exact hi.dead

/-- A dead `chan_` is given back, and there may be a new one. -/
theorem Kept.renew {conn : Option χ} (h : s.Kept H) (hd : s.clt.chanAlive = false)
    (hconn : ∀ c ∈ conn, c ∉ s.known) :
    Kept { (s.drop s.clt.chan).adopt conn with clt := { s.clt with chan := conn } } H := by
  have hdead : ∀ c, s.clt.chan = some c → c ∈ s.clt.dead := by
    intro c hc
    simpa [Rpcc.chanAlive, hc] using hd
  have hpos : ∀ c, s.clt.chan = some c → 0 < s.refno c := by
    intro c hc
    rw [h.refno c, hc, Holders.one_self]
    omega
  have hnew : ∀ c ∈ conn, (s.drop s.clt.chan).refno c = 0 := by
    intro c hc
    have hz := h.unknown c (hconn c hc)
    have hr := h.refno c
    rw [refno_drop]
    omega
  have hrefs : ∀ c, ((s.drop s.clt.chan).adopt conn).refno c =
      one conn c + count H (fun t => (s.clt.threads t).held) c := by
    intro c
    rw [refno_adopt hnew, refno_drop, h.refno c]
    omega
  refine ⟨h.idle, hrefs, fun c hc => ?_, fun c hk hl => ?_, fun c hin => ?_, ?_⟩
  · have hc' : c ∉ ((s.drop s.clt.chan).adopt conn).known := hc
    rw [mem_known_adopt, known_drop, not_or] at hc'
    have hz := h.unknown c hc'.2
    have hr := h.refno c
    show ((s.drop s.clt.chan).adopt conn).refno c = 0
    rw [hrefs, one, if_neg (show conn ≠ some c from hc'.1)]
    omega
  · have hk' : c ∈ ((s.drop s.clt.chan).adopt conn).known := hk
    rw [mem_known_adopt, known_drop] at hk'
    rcases hk' with hc | hk'
    · exact hc
    · exact absurd (hdead c (h.live c hk' hl)) hl
  · exact (mem_known_adopt _ _).mpr (.inr (by rw [known_drop]; exact h.dead c hin))
  · refine (h.books.drop fun c hc => ⟨h.known_of_pos (hpos c hc), hpos c hc, fun _ => hdead c hc⟩).adopt ?_
    exact fun c hc => ⟨by rw [known_drop]; exact hconn c hc, hnew c hc⟩

/-- What is given back and taken depends on which connections are dead, and on nothing else of the client. -/
theorem drop_of_dead {n u : Rpcc χ} (hd : n.dead = s.clt.dead) {o : Option χ} {c : χ} :
    ({ (({ s with clt := n } : Chans χ).drop o).incref c with clt := u } : Chans χ) =
      { (s.drop o).incref c with clt := u } := by
  cases o with
  | none => rfl
  | some o => simp only [Chans.drop, decref, Chans.incref, hd]

theorem Kept.swap {u : Rpcc χ} {t : Tid} {p : Thread χ} {c : χ} (h : s.Kept H) (hc : s.clt.chan = some c)
    (hchan : u.chan = s.clt.chan) (hdead : u.dead = s.clt.dead)
    (hp : u.threads = Function.update s.clt.threads t p) (hh : p.held = some c) :
    Kept { (s.drop (s.clt.threads t).held).incref c with clt := u } (insert t H) := by
  have hdrop := h.drop (u := s.clt.setThread t .idle) (t := t) (p := .idle) rfl rfl rfl rfl
  have htake := hdrop.take (u := u) (t := t) (p := p) hc hchan hdead
    (by rw [hp, Rpcc.setThread, Function.update_idem]) (by simp [Rpcc.setThread, Thread.held]) hh
  rwa [Finset.insert_idem] at htake

theorem Kept.getRefconn {t : Tid} {f : Call χ} {conn : Option χ} (h : s.Kept H)
    (ht : s.clt.threads t = .transmit f) (hconn : ∀ c ∈ conn, c ∉ s.known) :
    Kept { s.getRefconn f.ch conn with clt := s.clt.getRefconn t f conn } (insert t H) := by
  have hheld : (s.clt.threads t).held = f.ch := by rw [ht, Thread.held]
  cases hal : s.clt.chanAlive with
  | true =>
      obtain ⟨c, hc⟩ : ∃ c, s.clt.chan = some c := by
        cases hc : s.clt.chan with
        | none => simp [Rpcc.chanAlive, hc] at hal
        | some c => exact ⟨c, rfl⟩
      have hs := h.swap (u := s.clt.getRefconn t f conn) (t := t) (p := .send { f with ch := some c } c) hc
        (by simp [Rpcc.getRefconn, hal, hc, Rpcc.setThread]) (by simp [Rpcc.getRefconn, hal, hc, Rpcc.setThread])
        (by simp [Rpcc.getRefconn, hal, hc, Rpcc.setThread]) rfl
      rw [hheld] at hs
      simpa [Chans.getRefconn, hal, hc] using hs
  | false =>
      have hnew := h.renew hal hconn
      cases conn with
      | none =>
          have hs := hnew.quiet (u := s.clt.getRefconn t f none) (t := t)
            (p := match f.ch with
              | some c => .send f c
              | none => .waiting f)
            (by cases hch : f.ch <;> simp [Rpcc.getRefconn, hal, hch, Rpcc.setThread])
            (by cases hch : f.ch <;> simp [Rpcc.getRefconn, hal, hch, Rpcc.setThread])
            (by
              obtain ⟨q, ch⟩ := f
              cases ch <;> simp [Rpcc.getRefconn, hal, Rpcc.setThread])
            (by cases hch : f.ch <;> simp [Thread.held, ht, hch])
          simpa [Chans.getRefconn, hal] using hs
      | some c =>
          have hs := hnew.swap (u := s.clt.getRefconn t f (some c)) (t := t)
            (p := .send { f with ch := some c } c) rfl (by simp [Rpcc.getRefconn, hal, Rpcc.setThread])
            (by simp [Rpcc.getRefconn, hal, Rpcc.setThread]) (by simp [Rpcc.getRefconn, hal, Rpcc.setThread]) rfl
          rw [drop_of_dead (s := (s.drop s.clt.chan).adopt (some c)) (by simp)] at hs
          simp only [Chans.getRefconn, hal, Bool.false_eq_true, ↓reduceIte]
          rw [← hheld]
          exact hs

/-- The other steps leave `chan_` alone, and each thread has what it had. -/
theorem held_next {s : Rpcc χ} {a : Act χ} (hg : s.guard a) (hget : ∀ t f conn, a ≠ .getRefconn t f conn)
    (hret : ∀ t f r, a ≠ .ret t f r) (hdie : ∀ c, a ≠ .die c) :
    (s.next e a).chan = s.chan ∧ (s.next e a).dead = s.dead ∧ ((s.next e a).threads = s.threads ∨
      ∃ t p, (s.next e a).threads = Function.update s.threads t p ∧ p.held = (s.threads t).held ∧
        ∀ f c, p ≠ .send f c) := by
  have hmove : ∀ {t : Tid} {p p₀ : Thread χ}, s.threads t = p₀ → p.held = p₀.held → (∀ f c, p ≠ .send f c) →
      ∀ {s' : Rpcc χ}, s'.threads = Function.update s.threads t p → s'.threads = s.threads ∨
        ∃ t p, s'.threads = Function.update s.threads t p ∧ p.held = (s.threads t).held ∧ ∀ f c, p ≠ .send f c :=
    fun ht hp hno _ hs => .inr ⟨_, _, hs, by rw [ht, hp], hno⟩
  cases a with
  | call1 t proc args =>
      simp only [Rpcc.next, Rpcc.call1]
      split
      · exact ⟨rfl, rfl, .inl rfl⟩
      · exact ⟨rfl, rfl, hmove (p := .transmit ⟨s.request e proc args, none⟩) hg rfl (by simp) rfl⟩
  | getRefconn t f conn => exact absurd rfl (hget t f conn)
  | tx t f c ok => exact ⟨rfl, rfl, hmove (p := .waiting f) hg.1 rfl (by simp) rfl⟩
  | giveup t f => exact ⟨rfl, rfl, hmove (p := .leaving f) hg rfl (by simp) rfl⟩
  | woken t f => exact ⟨rfl, rfl, hmove (p := .leaving f) hg.1 rfl (by simp) rfl⟩
  | timedout t f => exact ⟨rfl, rfl, hmove (p := .lost f) hg.1 rfl (by simp) rfl⟩
  | isdead t f =>
      rcases Rpcc.isdead_cases (e := e) s t f with heq | ⟨_, heq⟩
      · rw [Rpcc.next, heq]
        exact ⟨rfl, rfl, hmove (p := .waiting f) hg rfl (by simp) rfl⟩
      · rw [Rpcc.next, heq]
        exact ⟨rfl, rfl, hmove (p := .transmit f) hg rfl (by simp) rfl⟩
  | leave t f => exact ⟨rfl, rfl, hmove (p := .returning f) hg rfl (by simp) rfl⟩
  | ret t f r => exact absurd rfl (hret t f r)
  | bound t r => exact ⟨rfl, rfl, hmove (p := .idle) hg rfl (by simp) rfl⟩
  | gotPdu c b =>
      simp only [Rpcc.next, Rpcc.gotPdu]
      split
      · exact ⟨rfl, rfl, .inl rfl⟩
      · split
        · exact ⟨rfl, rfl, .inl rfl⟩
        · rw [Rpcc.take]
          split <;> exact ⟨rfl, rfl, .inl rfl⟩
  | cancel => exact ⟨rfl, rfl, .inl rfl⟩
  | die c => exact absurd rfl (hdie c)

omit [DecidableEq χ] in
theorem threads_ret (s : Rpcc χ) (t : Tid) (f : Call χ) (r : Int32) :
    ∃ p : Thread χ, p.held = none ∧ (∀ f c, p ≠ .send f c) ∧ s.ret t f r = s.setThread t p := by
  rw [Rpcc.ret]
  split
  · split
    · exact ⟨_, rfl, by simp, rfl⟩
    · exact ⟨_, rfl, by simp, rfl⟩
  · exact ⟨_, rfl, by simp, rfl⟩

/-- In every step the references are with `chan_` and the threads. -/
theorem Kept.step {a : Act χ} (h : s.Kept H) (hg : guard s a) : ∃ H', (s.next e a).Kept H' := by
  obtain ⟨hg, hc⟩ := hg
  by_cases hget : ∃ t f conn, a = .getRefconn t f conn
  · obtain ⟨t, f, conn, rfl⟩ := hget
    exact ⟨_, h.getRefconn hg.1 hc⟩
  by_cases hret : ∃ t f r, a = .ret t f r
  · obtain ⟨t, f, r, rfl⟩ := hret
    obtain ⟨p, hp, _, heq⟩ := threads_ret s.clt t f r
    have hd := h.drop (u := s.clt.ret t f r) (t := t) (p := p) (by rw [heq]; rfl) (by rw [heq]; rfl)
      (by rw [heq]; rfl) hp
    rw [show (s.clt.threads t).held = f.ch by rw [hg.1]; rfl] at hd
    exact ⟨_, hd⟩
  by_cases hdie : ∃ c, a = .die c
  · obtain ⟨c, rfl⟩ := hdie
    exact ⟨H, h.die hc⟩
  have hget : ∀ t f conn, a ≠ .getRefconn t f conn := fun t f conn ha => hget ⟨t, f, conn, ha⟩
  have hret : ∀ t f r, a ≠ .ret t f r := fun t f r ha => hret ⟨t, f, r, ha⟩
  have hs : s.next e a = { s with clt := s.clt.next e a } := by
    cases a with
    | getRefconn t f conn => exact absurd rfl (hget t f conn)
    | ret t f r => exact absurd rfl (hret t f r)
    | _ => rfl
  rw [hs]
  obtain ⟨hchan, hdead, hthreads | ⟨t, p, hp, hh, _⟩⟩ := held_next (e := e) hg hget hret fun c ha => hdie ⟨c, ha⟩
  · exact ⟨H, h.frame hchan hdead hthreads⟩
  · exact ⟨_, h.quiet hchan hdead hp hh⟩

theorem kept_of_run {tr : List (Act χ)} (h : (lts e).Run tr s) : ∃ H, s.Kept H := by
  refine h.invariant (I := fun _ s => ∃ H, s.Kept H) ?_ fun _ s a _ hi hg => ?_
  · rintro s rfl
    exact ⟨∅, fun _ _ => rfl, fun _ => rfl, fun _ _ => rfl, fun c h => absurd h List.not_mem_nil,
      fun c h => absurd h List.not_mem_nil, fun c => by simp [init]⟩
  · obtain ⟨H, hi⟩ := hi
    exact hi.step hg

theorem clt_component (e : Env) : Lts.Component (lts e : Lts (Chans χ) (Act χ)) (Rpcc.lts e) clt some where
  init s h := by cases h; rfl
  moves s a b hg hp := by
    cases hp
    exact ⟨hg.1, rfl⟩
  stays s a _ hp := by cases hp

/-- A thread sends on its `ch`. -/
theorem ch_of_send {tr : List (Act χ)} {s : Rpcc χ} (h : (Rpcc.lts e).Run tr s) :
    ∀ t f c, s.threads t = .send f c → f.ch = some c := by
  refine h.invariant (I := fun _ s => ∀ t f c, s.threads t = .send f c → f.ch = some c) ?_ ?_
  · rintro s rfl t f c ht
    cases ht
  · intro tr s a _ hi hg
    have hupd : ∀ {t₀ p} {s' : Rpcc χ}, s'.threads = Function.update s.threads t₀ p →
        (∀ f c, p = .send f c → f.ch = some c) → ∀ t f c, s'.threads t = .send f c → f.ch = some c := by
      intro t₀ p s' hs hp t f c ht
      by_cases htt : t = t₀
      · subst htt
        exact hp f c (by rw [← ht, hs, Function.update_self])
      · exact hi t f c (by rw [← ht, hs, Function.update_of_ne htt])
    by_cases hget : ∃ t f conn, a = .getRefconn t f conn
    · obtain ⟨t, f, conn, rfl⟩ := hget
      simp only [Rpcc.lts, Rpcc.next, Rpcc.getRefconn]
      split
      · rename_i c hch
        refine hupd rfl fun f' c' hp => ?_
        cases hp
        exact hch
      · exact hupd rfl fun f' c' hp => by cases hp
    by_cases hret : ∃ t f r, a = .ret t f r
    · obtain ⟨t, f, r, rfl⟩ := hret
      obtain ⟨p, _, hp, heq⟩ := threads_ret s t f r
      exact hupd (congrArg Rpcc.threads heq) fun f' c' h => absurd h (hp f' c')
    by_cases hdie : ∃ c, a = .die c
    · obtain ⟨c, rfl⟩ := hdie
      exact hi
    obtain ⟨_, _, hthreads | ⟨t, p, hp, _, hno⟩⟩ := held_next (e := e) hg (fun t f conn ha => hget ⟨t, f, conn, ha⟩)
      (fun t f r ha => hret ⟨t, f, r, ha⟩) fun c ha => hdie ⟨c, ha⟩
    · intro t f c ht
      exact hi t f c (by rw [← ht, ← hthreads]; rfl)
    · exact hupd hp fun f c h => absurd h (hno f c)

theorem Kept.not_deleted (h : s.Kept H) {c : χ} (hc : 0 < s.refno c) : c ∉ s.deleted := by
  rw [← List.count_eq_zero, h.books c, if_neg (by omega)]

theorem Kept.pos_of_uses (h : s.Kept H) (hs : ∀ t f c, s.clt.threads t = .send f c → f.ch = some c) {a : Act χ}
    (hg : guard s a) {c : χ} (hc : c ∈ s.uses a) : 0 < s.refno c := by
  have hheld : ∀ t, (s.clt.threads t).held = some c → 0 < s.refno c := by
    intro t ht
    have := h.pos_of_held ht
    have := h.refno c
    omega
  obtain ⟨hg, _⟩ := hg
  cases a with
  | getRefconn t f conn =>
      rcases List.mem_append.mp hc with hc | hc
      · rw [h.refno c, Option.mem_toList.mp hc, Holders.one_self]
        omega
      · exact hheld t (by rw [hg.1]; exact Option.mem_toList.mp hc)
  | tx t f c' ok =>
      obtain rfl := List.mem_singleton.mp hc
      exact hheld t (by rw [hg.1]; exact hs t f c hg.1)
  | isdead t f =>
      have ht : s.clt.threads t = .lost f := hg
      exact hheld t (by rw [ht]; exact Option.mem_toList.mp hc)
  | ret t f r => exact hheld t (by rw [hg.1]; exact Option.mem_toList.mp hc)
  | _ => cases hc

theorem Kept.destroy (h : s.Kept H) (hno : ∀ t, (s.clt.threads t).held = none) {c : χ} (hc : c ∈ s.known) :
    s.destroy.deleted.count c = 1 := by
  have hrefs : ∀ c, s.refno c = one s.clt.chan c := by
    intro c
    rw [h.refno c, Holders.count_eq_zero.mpr fun t _ => by rw [hno t]; simp]
    simp
  have hbooks : Books s.destroy := by
    refine Books.drop (s := { s with clt := { s.clt with dead := s.clt.chan.toList ++ s.clt.dead } }) h.books ?_
    intro c hch
    have hpos : 0 < s.refno c := by
      rw [hrefs c, show s.clt.chan = some c from hch, Holders.one_self]
      decide
    exact ⟨h.known_of_pos hpos, hpos, fun _ => List.mem_append_left _ (Option.mem_toList.mpr hch)⟩
  have hz : s.destroy.refno c = 0 := by
    rw [Chans.destroy, refno_drop]
    have := hrefs c
    show s.refno c - one s.clt.chan c = 0
    omega
  rw [hbooks c, if_pos ⟨by rw [Chans.destroy, known_drop]; exact hc, hz⟩]

/-- In every run the references to a connection are those of `chan_` and of the threads in `call1`, it is
deleted once, when it is dead and the last of them goes, and no step uses it after that. Once no thread is in
`call1`, `~rpcc` leaves no connection behind. -/
theorem connections_reclaimed {tr : List (Act χ)} (h : (lts e).Run tr s) :
    (∃ H : Finset Tid, (∀ t ∉ H, s.clt.threads t = .idle) ∧
      ∀ c, s.refno c = one s.clt.chan c + count H (fun t => (s.clt.threads t).held) c) ∧
    (∀ c, s.deleted.count c = if c ∈ s.known ∧ s.refno c = 0 then 1 else 0) ∧
    (∀ c ∈ s.deleted, c ∈ s.clt.dead) ∧
    (∀ a, guard s a → ∀ c ∈ s.uses a, c ∉ s.deleted) ∧
    ((∀ t, (s.clt.threads t).held = none) → ∀ c ∈ s.known, s.destroy.deleted.count c = 1) := by
  obtain ⟨H, hk⟩ := kept_of_run h
  have hsend := ch_of_send (h.component (clt_component e))
  refine ⟨⟨H, hk.idle, hk.refno⟩, hk.books, fun c hc => ?_, fun a hg c hc => ?_, fun hno c hc => hk.destroy hno hc⟩
  · by_contra hlive
    have hpos := List.count_pos_iff.mpr hc
    rw [hk.books c] at hpos
    split at hpos
    · rename_i hz
      have hr := hk.refno c
      rw [hk.live c hz.1 hlive, Holders.one_self] at hr
      omega
    · omega
  · exact hk.not_deleted (hk.pos_of_uses hsend hg hc)

/-- The client's first connection dies while two threads have it; one goes on with a second connection. -/
theorem connections_reclaimed_solo : ∃ tr s, (lts ⟨5, true⟩).Run tr s ∧ s.known = [1, 0] ∧ s.refno 0 = 0 ∧
    s.refno 1 = 2 ∧ s.deleted.count 0 = 1 := by
  let q (xid : UInt32) : Request := ⟨⟨xid.toInt32, RpcConst.bind.toInt32, 5, 0, 0⟩, []⟩
  obtain ⟨s, hr, hs⟩ := Lts.run_of_exec (M := lts ⟨5, true⟩) (s := init)
    (l := [.call1 0 RpcConst.bind [], .getRefconn 0 ⟨q 1, none⟩ (some 0), .tx 0 ⟨q 1, some 0⟩ 0 true,
      .call1 1 RpcConst.bind [], .getRefconn 1 ⟨q 2, none⟩ none, .die 0, .tx 1 ⟨q 2, some 0⟩ 0 false,
      .timedout 0 ⟨q 1, some 0⟩, .isdead 0 ⟨q 1, some 0⟩, .getRefconn 0 ⟨q 1, some 0⟩ (some 1),
      .giveup 1 ⟨q 2, some 0⟩, .leave 1 ⟨q 2, some 0⟩, .ret 1 ⟨q 2, some 0⟩ RpcConst.timeoutFailure])
    (f := fun s => decide (s.known = [1, 0] ∧ s.refno 0 = 0 ∧ s.refno 1 = 2)) rfl (by decide +kernel)
  obtain ⟨hk, h0, h1⟩ := of_decide_eq_true hs
  obtain ⟨_, hdel, _⟩ := connections_reclaimed hr
  exact ⟨_, s, hr, hk, h0, h1, (hdel 0).trans (if_pos ⟨by rw [hk]; decide, h0⟩)⟩

end Chans
end StanDfs
