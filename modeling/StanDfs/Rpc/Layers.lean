import StanDfs.Rpc.Lemmas.Stack
import StanDfs.Rpc.Spec

/-!
# The parties over their connections

A run of the parties over the connections is a run of the parties over the network: the bytes of `send` go
out when it begins to write, and they are in flight until `got_pdu` consumes them.
-/

namespace StanDfs
namespace Stack

variable {κ ι : Type*} [DecidableEq κ] [DecidableEq ι] {g : Config κ ι} {s : Stack κ ι}

/-! ## The ends of a connection -/

/-- The halves of an end find the connection dead together, and a thread is in `send` at one end only. -/
structure Wired (s : Stack κ ι) : Prop where
  ends : ∀ x, (s.ends x).snd.dead = (s.ends x).rcv.dead
  sending : ∀ p t x, s.sending p t = some x → x.party = p ∧ x.tid = t
  busy : ∀ σ c t, (s.ends (σ, c)).snd.threads t ≠ .idle →
    ∃ x, s.sending (owner c σ) t = some x ∧ x.side = σ ∧ x.conn = c

theorem sendingNext_of_none {a : Act κ ι} (h : touch a = none) : s.sendingNext a = s.sending := by
  simp only [sendingNext, h]

theorem sendingNext_rcv {a : Act κ ι} {σ : Side} {c : Conn κ ι} {b : Reader.Act}
    (h : touch a = some ((σ, c), .rcv b)) : s.sendingNext a = s.sending := by
  simp only [sendingNext, h]

/-- Only the entry of the thread that takes a step changes. -/
theorem sendingNext_ne {a : Act κ ι} {σ : Side} {c : Conn κ ι} {b : Sender.Act} {p : κ ⊕ ι} {t : Tid}
    (h : touch a = some ((σ, c), .snd b)) (ht : sender b = some t → p ≠ owner c σ) :
    s.sendingNext a p t = s.sending p t := by
  simp only [sendingNext, h]
  cases hb : sender b with
  | none => rfl
  | some t' =>
      by_cases hp : p = owner c σ
      · subst hp
        have htt : t ≠ t' := by
          rintro rfl
          exact ht hb rfl
        simp [Function.update_of_ne htt]
      · simp [Function.update_of_ne hp]

/-- The call of `send` that a thread of an end is in, if it takes a step. -/
def inside (s : Stack κ ι) (a : Act κ ι) (p : κ ⊕ ι) (t : Tid) : Option (Sending κ ι) :=
  match a with
  | .send x _ _ => some x
  | _ => s.sending p t

theorem sendingNext_eq {a : Act κ ι} {σ : Side} {c : Conn κ ι} {b : Sender.Act} {t : Tid}
    (h : touch a = some ((σ, c), .snd b)) (ht : sender b = some t) :
    s.sendingNext a (owner c σ) t =
      if ((s.ends (σ, c)).next (.snd b)).snd.threads t = .idle then none
      else s.inside a (owner c σ) t := by
  simp only [sendingNext, h, ht, Function.update_self]
  rfl

/-- A thread that takes a step in `send` is in it at that end, or comes to it from outside. -/
theorem inside_of_guard (hw : Wired s) {a : Act κ ι} {σ : Side} {c : Conn κ ι} {b : Sender.Act} {t : Tid}
    (h : touch a = some ((σ, c), .snd b)) (ht : sender b = some t) (hg : guard g s a) :
    (∃ x, s.inside a (owner c σ) t = some x ∧ x.side = σ ∧ x.conn = c ∧ x.party = owner c σ ∧ x.tid = t) ∧
      ∀ σ' c', (s.ends (σ', c')).snd.threads t ≠ .idle → owner c' σ' = owner c σ → (σ', c') = (σ, c) := by
  cases a with
  | own a => cases h
  | arrive σ c item => cases h
  | read σ c errno accept keep => cases h
  | send x b' r =>
      cases h
      cases ht
      obtain ⟨_, _, hnone, hp, _⟩ := hg
      refine ⟨⟨x, rfl, rfl, rfl, hp, rfl⟩, fun σ' c' hb ho => ?_⟩
      obtain ⟨x', hx', _⟩ := hw.busy σ' c' x.tid hb
      rw [ho, ← hp, hnone] at hx'
      cases hx'
  | conn σ' c' a =>
      cases h
      have hbusy : (s.ends (σ, c)).snd.threads t ≠ .idle := by
        intro hidle
        have hs := hg.1.2.2.2
        cases b with
        | send t b r => exact hg.2.1 t b r rfl
        | resume t' r =>
            cases ht
            obtain ⟨b, hb⟩ := hs
            rw [hidle] at hb
            cases hb
        | complete t' =>
            cases ht
            obtain ⟨b, hb⟩ := hs
            rw [hidle] at hb
            cases hb
        | removed t' =>
            cases ht
            obtain ⟨b, hb⟩ := hs
            rw [hidle] at hb
            cases hb
        | _ => cases ht
      obtain ⟨x, hx, hσ, hc⟩ := hw.busy σ c t hbusy
      obtain ⟨hp, htid⟩ := hw.sending _ _ _ hx
      refine ⟨⟨x, hx, hσ, hc, hp, htid⟩, fun σ' c' hb ho => ?_⟩
      obtain ⟨x', hx', hσ', hc'⟩ := hw.busy σ' c' t hb
      rw [ho, hx] at hx'
      cases hx'
      rw [← hσ', ← hc', hσ, hc]

theorem ends_guard {a : Act κ ι} {σ : Side} {c : Conn κ ι} {b : End.Act} (ht : touch a = some ((σ, c), b))
    (hg : guard g s a) : (s.ends (σ, c)).guard (s.ends (σ.other, c)).snd.out b := by
  have h := hg.1
  rw [ht] at h
  exact h.2

/-- A thread at an end that does not take the step is in `send` as before. -/
theorem idle_end {e : End} {b : End.Act} {t : Tid} (h : ∀ b', b = .snd b' → sender b' ≠ some t) :
    (e.next b).snd.threads t = .idle ↔ e.snd.threads t = .idle := by
  cases b with
  | snd a => exact Sender.idle_next (h a rfl)
  | rcv a =>
      simp only [End.next, End.sndActs]
      split
      · exact Sender.idle_next (a := .readFailed) (by simp [sender])
      · exact Iff.rfl

theorem sending_next (a : Act κ ι) : (next g s a).sending = s.sendingNext a := by
  rw [next]
  split <;> rfl

theorem wired_touch {a : Act κ ι} {σ : Side} {c : Conn κ ι} {b : End.Act}
    (ht : touch a = some ((σ, c), b)) (hw : Wired s) (hg : guard g s a) : Wired (next g s a) := by
  have hself : ∀ x p t, s.sendingNext a p t = some x → x.party = p ∧ x.tid = t := by
    intro x p t hx
    cases b with
    | rcv b =>
        rw [sendingNext_rcv ht] at hx
        exact hw.sending p t x hx
    | snd b =>
        by_cases hp : sender b = some t ∧ p = owner c σ
        · obtain ⟨hb, rfl⟩ := hp
          obtain ⟨⟨x', hx', _, _, hparty, htid⟩, _⟩ := inside_of_guard hw ht hb hg
          rw [sendingNext_eq ht hb] at hx
          split at hx
          · cases hx
          · rw [hx'] at hx
            cases hx
            exact ⟨hparty, htid⟩
        · rw [sendingNext_ne ht fun hb hp' => hp ⟨hb, hp'⟩] at hx
          exact hw.sending p t x hx
  refine ⟨fun x => ?_, fun p t x hx => hself x p t (by rwa [← sending_next (g := g)]), fun σ' c' t hb => ?_⟩
  · rw [ends_of_touch ht]
    by_cases hx : x = (σ, c)
    · subst hx
      rw [Function.update_self]
      exact End.dead_next b (hw.ends _)
    · rw [Function.update_of_ne hx]
      exact hw.ends x
  · rw [ends_of_touch ht] at hb
    rw [sending_next]
    by_cases hx : ((σ', c') : Side × Conn κ ι) = (σ, c)
    · cases hx
      rw [Function.update_self] at hb
      by_cases hs : ∃ b', b = .snd b' ∧ sender b' = some t
      · obtain ⟨b', rfl, ht'⟩ := hs
        obtain ⟨⟨x, hx, hσ, hc, _, _⟩, _⟩ := inside_of_guard hw ht ht' hg
        exact ⟨x, by rw [sendingNext_eq ht ht', if_neg hb, hx], hσ, hc⟩
      · have hs' : ∀ b', b = .snd b' → sender b' ≠ some t := fun b' h h' => hs ⟨b', h, h'⟩
        rw [Ne, idle_end hs'] at hb
        cases b with
        | rcv b =>
            rw [sendingNext_rcv ht]
            exact hw.busy σ c t hb
        | snd b =>
            rw [sendingNext_ne ht fun h => absurd h (hs' b rfl)]
            exact hw.busy σ c t hb
    · rw [Function.update_of_ne hx] at hb
      cases b with
      | rcv b =>
          rw [sendingNext_rcv ht]
          exact hw.busy σ' c' t hb
      | snd b =>
          rw [sendingNext_ne ht]
          · exact hw.busy σ' c' t hb
          · intro h ho
            exact hx ((inside_of_guard hw ht h hg).2 σ' c' hb ho)

/-- In every run the ends are so. -/
theorem wired_of_run {tr : List (Act κ ι)} (h : (lts g).Run tr s) : Wired s := by
  refine h.invariant (I := fun _ s => Wired s) ?_ ?_
  · rintro _ rfl
    exact ⟨fun _ => rfl, fun _ _ _ h => (nomatch h), fun _ _ _ h => absurd rfl h⟩
  · intro tr s a hr hw hg
    cases ht : touch a with
    | none =>
        have hends : ((lts g).next s a).ends = s.ends := ends_of_none ht
        have hsend : ((lts g).next s a).sending = s.sending :=
          (sending_next a).trans (sendingNext_of_none ht)
        exact ⟨by rw [hends]; exact hw.ends, by rw [hsend]; exact hw.sending,
          by rw [hends, hsend]; exact hw.busy⟩
    | some b => exact wired_touch ht hw hg

/-! ## What is in flight -/

/-- What the end `σ` has begun to write and the other has not consumed. -/
def flight (s : Stack κ ι) (σ : Side) (c : Conn κ ι) : List (Conn κ ι × Bytes) :=
  (((s.ends (σ, c)).snd.started.map fun b => frame b.1).drop
    (s.ends (σ.other, c)).rcv.delivered.length).map (c, ·)

/-- A thread that waits in `send` stands where it called it, and its buffer is as it was. -/
def Held (n : RpcNet κ ι) (x : Sending κ ι) (b : Pdu) : Prop := x.Stands n ∧ b.1 = x.buf n

omit [DecidableEq κ] [DecidableEq ι] in
theorem held_of_like {n n' : RpcNet κ ι} (h : Like n n') {x : Sending κ ι} {b : Pdu} :
    Held n x b ↔ Held n' x b := by
  cases x <;> simp only [Held, Sending.Stands, Sending.buf, h.clt, h.srv]

/-- The network has in flight what the connections have, and the threads in `send` wait for the parties. -/
structure Carried (s : Stack κ ι) (n : RpcNet κ ι) : Prop where
  flight : ∀ σ c, (s.flight σ c).Sublist (flow n σ)
  held : ∀ {σ c t b w x}, (s.ends (σ, c)).snd.threads t = .waiting b w →
    s.sending (owner c σ) t = some x → Held n x b

theorem started_rcv (e : End) (b : Reader.Act) : (e.next (.rcv b)).snd.started = e.snd.started := by
  simp only [End.next, End.sndActs]
  split <;> rfl

theorem delivered_snd (e : End) (b : Sender.Act) : (e.next (.snd b)).rcv.delivered = e.rcv.delivered := by
  simp only [End.next, End.rcvActs]
  split <;> rfl

theorem waiting_rcv {e : End} {b : Reader.Act} {t : Tid} {p : Pdu} {w : Bool}
    (h : (e.next (.rcv b)).snd.threads t = .waiting p w) : ∃ w', e.snd.threads t = .waiting p w' := by
  simp only [End.next, End.sndActs] at h
  split at h
  · exact Sender.waits_signal (s := e.snd) (p := fun _ => True) (Sender.waits_refl _) t p w trivial h
  · exact ⟨w, h⟩

theorem flight_snd {a : Act κ ι} {σ σ' : Side} {c c' : Conn κ ι} {b : Sender.Act} {new : List Pdu}
    (ht : touch a = some ((σ, c), .snd b))
    (hs : ((s.ends (σ, c)).snd.next b).started = (s.ends (σ, c)).snd.started ++ new)
    (hle : (s.ends (σ.other, c)).rcv.delivered.length ≤ (s.ends (σ, c)).snd.started.length) :
    (next g s a).flight σ' c' = s.flight σ' c' ++
      if (σ', c') = (σ, c) then new.map fun b => (c, frame b.1) else [] := by
  have hd : ((next g s a).ends (σ'.other, c')).rcv.delivered = (s.ends (σ'.other, c')).rcv.delivered := by
    rw [ends_of_touch ht]
    by_cases hx : ((σ'.other, c') : Side × Conn κ ι) = (σ, c)
    · rw [hx, Function.update_self, delivered_snd]
    · rw [Function.update_of_ne hx]
  rw [flight, flight, hd, ends_of_touch ht]
  by_cases hx : ((σ', c') : Side × Conn κ ι) = (σ, c)
  · cases hx
    rw [Function.update_self, if_pos rfl]
    have hs' : ((s.ends (σ, c)).next (.snd b)).snd.started = (s.ends (σ, c)).snd.started ++ new := hs
    rw [hs', List.map_append, List.drop_append_of_le_length (by simpa using hle), List.map_append, List.map_map]
    rfl
  · rw [Function.update_of_ne hx, if_neg hx, List.append_nil]

theorem flight_rcv {a : Act κ ι} {σ σ' : Side} {c c' : Conn κ ι} {b : Reader.Act} {ps : List Bytes}
    (ht : touch a = some ((σ, c), .rcv b))
    (hs : ((s.ends (σ, c)).next (.rcv b)).rcv.delivered = (s.ends (σ, c)).rcv.delivered ++ ps) :
    (next g s a).flight σ' c' =
      if (σ', c') = (σ.other, c) then (s.flight σ' c').drop ps.length else s.flight σ' c' := by
  have hd : ((next g s a).ends (σ', c')).snd.started = (s.ends (σ', c')).snd.started := by
    rw [ends_of_touch ht]
    by_cases hx : ((σ', c') : Side × Conn κ ι) = (σ, c)
    · rw [hx, Function.update_self, started_rcv]
    · rw [Function.update_of_ne hx]
  rw [flight, flight, hd, ends_of_touch ht]
  by_cases hx : ((σ', c') : Side × Conn κ ι) = (σ.other, c)
  · cases hx
    rw [Side.other_other, Function.update_self, if_pos rfl, hs, List.length_append, ← List.drop_drop, List.map_drop]
  · have hx' : ((σ'.other, c') : Side × Conn κ ι) ≠ (σ, c) := by
      intro h
      apply hx
      cases h
      rw [Side.other_other]
    rw [Function.update_of_ne hx', if_neg hx]

/-! ## The steps of the parties -/

theorem Held.next {l : List (RpcNet.Act κ ι)} {n : RpcNet κ ι} {x : Sending κ ι} {b : Pdu} {a : RpcNet.Act κ ι}
    (h : Held n x b) (hl : (RpcNet.lts g).Run l n) (ht : thread a ≠ some (x.party, x.tid)) :
    Held (RpcNet.next g n a) x b :=
  ⟨stands_next h.1 ht, h.2.trans (buf_next hl h.1 a).symm⟩

omit [DecidableEq κ] [DecidableEq ι] in
theorem thread_act (x : Sending κ ι) (ok : Bool) : thread (x.act ok) = some (x.party, x.tid) := by
  cases x <;> rfl

omit [DecidableEq κ] [DecidableEq ι] in
theorem thread_gotPdu (c : Conn κ ι) (p : Bytes) (σ : Side) : thread (gotPdu c p σ) = none := by
  cases σ <;> rfl

omit [DecidableEq κ] [DecidableEq ι] in
theorem thread_die (c : Conn κ ι) (σ : Side) : thread (die c σ) = none := by
  cases σ <;> rfl

omit [DecidableEq κ] [DecidableEq ι] in
theorem act_ne_die (x : Sending κ ι) (ok : Bool) (c : Conn κ ι) (σ : Side) : x.act ok ≠ die c σ := by
  intro h
  have := congrArg thread h
  rw [thread_act, thread_die] at this
  cases this

omit [DecidableEq κ] [DecidableEq ι] in
theorem gotPdu_ne_die (c c' : Conn κ ι) (p : Bytes) (σ σ' : Side) : gotPdu c p σ ≠ die c' σ' := by
  cases σ <;> cases σ' <;> simp [gotPdu, die]

omit [DecidableEq κ] [DecidableEq ι] in
theorem die_inj {c c' : Conn κ ι} {σ σ' : Side} (h : die c σ = die c' σ') : σ = σ' ∧ c = c' := by
  cases σ <;> cases σ' <;> simp_all [die]

/-- The process of the party has not ended. -/
def Up (n : RpcNet κ ι) : κ ⊕ ι → Prop
  | .inl _ => True
  | .inr i => (n.srv i).aborted = false

omit [DecidableEq κ] [DecidableEq ι] in
theorem up_of_alive {n : RpcNet κ ι} {p : κ ⊕ ι} (hl : Like s.net n) (h : s.alive p = true) : Up n p := by
  cases p with
  | inl k => trivial
  | inr i =>
      simp only [alive, Bool.and_eq_true, Bool.not_eq_true'] at h
      rw [Up, ← hl.srv]
      exact h.2

theorem up_act {n : RpcNet κ ι} {x : Sending κ ι} {ok : Bool} {p : κ ⊕ ι} (h : Up n p) :
    Up (RpcNet.next g n (x.act ok)) p := by
  cases p with
  | inl k => trivial
  | inr i =>
      have haborted : ∀ a : Rpcs.Act (Conn κ ι), (∀ i' : ι, ((n.srv i').next (g.srv i') a).aborted =
          (n.srv i').aborted) → ∀ i', Up (RpcNet.next g n (.srv i' a)) (.inr i) := by
        intro a ha i'
        by_cases hi : i = i'
        · subst hi
          simpa [Up, RpcNet.next] using (ha i).trans h
        · simpa [Up, RpcNet.next, Function.update_of_ne hi] using h
      cases x with
      | call k t f c => exact h
      | reply i' w j c b sz => exact haborted _ (fun _ => rfl) i'
      | refusal i' w j r => exact haborted _ (fun _ => rfl) i'

theorem up_gotPdu {n : RpcNet κ ι} {c : Conn κ ι} {b : Bytes} {σ : Side} {p : κ ⊕ ι} (h : Up n p) :
    Up (RpcNet.next g n (gotPdu c b σ)) p := by
  cases p with
  | inl k => trivial
  | inr i =>
      cases σ with
      | clt => exact h
      | srv =>
          by_cases hi : i = c.srv
          · subst hi
            simpa [Up, gotPdu, RpcNet.next, Rpcs.next] using h
          · simpa [Up, gotPdu, RpcNet.next, Function.update_of_ne hi] using h

theorem guard_act {n : RpcNet κ ι} {x : Sending κ ι} {ok : Bool} (hs : x.Stands n)
    (hp : x.party = owner x.conn x.side) (hup : Up n x.party)
    (hd : ok = true → ¬ Dead n x.conn x.side) : RpcNet.guard g n (x.act ok) := by
  cases x with
  | call k t f c =>
      have hk : k = c.clt := Sum.inl.inj hp
      subst hk
      exact ⟨⟨hs, hd⟩, by simp [RpcNet.opens], by simp [RpcNet.cltInput]⟩
  | reply i w j c b sz =>
      have hi : i = c.srv := Sum.inr.inj hp
      subst hi
      exact ⟨⟨hup, hs, hd⟩, trivial⟩
  | refusal i w j r =>
      have hi : i = j.conn.srv := Sum.inr.inj hp
      subst hi
      exact ⟨⟨hup, hs, hd⟩, trivial⟩

theorem guard_gotPdu {n : RpcNet κ ι} {c : Conn κ ι} {p : Bytes} {σ : Side} (hup : Up n (owner c σ))
    (hm : (c, p) ∈ flow n σ.other) : RpcNet.guard g n (gotPdu c p σ) := by
  cases σ with
  | clt => exact ⟨trivial, by simp [RpcNet.opens], by simpa [RpcNet.cltInput, flow, Side.other] using hm⟩
  | srv => exact ⟨⟨hup, trivial⟩, hm, rfl⟩

theorem guard_die {n : RpcNet κ ι} {c : Conn κ ι} {σ : Side} (hup : Up n (owner c σ)) :
    RpcNet.guard g n (die c σ) := by
  cases σ with
  | clt => exact ⟨trivial, by simp [RpcNet.opens], by simp [RpcNet.cltInput]⟩
  | srv => exact ⟨⟨hup, trivial⟩, trivial⟩

/-- A thread that waits after a step waited before it, unless it took the step. -/
theorem waiting_next (hw : Wired s) {a : Act κ ι} {σ σ' : Side} {c c' : Conn κ ι} {b : End.Act} {t : Tid}
    {p : Pdu} {w : Bool} {x : Sending κ ι} (ht : touch a = some ((σ, c), b)) (hg : guard g s a)
    (h : ((next g s a).ends (σ', c')).snd.threads t = .waiting p w)
    (hx : (next g s a).sending (owner c' σ') t = some x) :
    ((∃ w', (s.ends (σ', c')).snd.threads t = .waiting p w') ∧ s.sending (owner c' σ') t = some x ∧
      ∀ b', b = .snd b' → sender b' = some t → owner c' σ' ≠ owner c σ) ∨
    ∃ b', b = .snd b' ∧ sender b' = some t ∧ σ' = σ ∧ c' = c := by
  rw [ends_of_touch ht] at h
  rw [sending_next] at hx
  cases b with
  | rcv b =>
      rw [sendingNext_rcv ht] at hx
      refine .inl ⟨?_, hx, fun b' h' => by cases h'⟩
      by_cases he : ((σ', c') : Side × Conn κ ι) = (σ, c)
      · rw [he, Function.update_self] at h
        rw [he]
        exact waiting_rcv h
      · rw [Function.update_of_ne he] at h
        exact ⟨w, h⟩
  | snd b =>
      by_cases he : ((σ', c') : Side × Conn κ ι) = (σ, c)
      · cases he
        by_cases hb : sender b = some t
        · exact .inr ⟨b, rfl, hb, rfl, rfl⟩
        · rw [Function.update_self] at h
          rw [sendingNext_ne ht fun h => absurd h hb] at hx
          have hwait := Sender.waits_of_ne (ends_guard ht hg).2 hb p w h
          exact .inl ⟨hwait, hx, fun b' h' hb' => absurd (by cases h'; exact hb') hb⟩
      · rw [Function.update_of_ne he] at h
        have hne : sender b = some t → owner c' σ' ≠ owner c σ := by
          intro hb ho
          refine he ((inside_of_guard hw ht hb hg).2 σ' c' ?_ ho)
          rw [h]
          simp
        rw [sendingNext_ne ht hne] at hx
        exact .inl ⟨⟨w, h⟩, hx, fun b' h' hb' => by cases h'; exact hne hb'⟩

/-- What becomes of the network when the parties take some steps. -/
structure Stirs (g : Config κ ι) (s : Stack κ ι) (l m : List (RpcNet.Act κ ι)) (n n' : RpcNet κ ι) : Prop where
  run : (RpcNet.lts g).Run (m ++ l) n'
  eq : n' = m.foldr (fun b n => RpcNet.next g n b) n
  carried : Carried s n'
  up : ∀ p, Up n p → Up n' p
  dead : ∀ c σ, Dead n' c σ ↔ Dead n c σ

theorem stirs_nil {l : List (RpcNet.Act κ ι)} {n : RpcNet κ ι} (hl : (RpcNet.lts g).Run l n)
    (hc : Carried s n) : Stirs g s l [] n n :=
  ⟨hl, rfl, hc, fun _ h => h, fun _ _ => Iff.rfl⟩

/-- `read_cb`, or something comes to the socket. -/
theorem stirs_rcv (hw : Wired s) {a : Act κ ι} {σ : Side} {c : Conn κ ι} {b : Reader.Act}
    {l : List (RpcNet.Act κ ι)} {n : RpcNet κ ι} (ht : touch a = some ((σ, c), .rcv b)) (hg : guard g s a)
    (hl : (RpcNet.lts g).Run l n) (hc : Carried s n) {ps : List Bytes}
    (hs : ((s.ends (σ, c)).next (.rcv b)).rcv.delivered = (s.ends (σ, c)).rcv.delivered ++ ps) :
    Stirs g (next g s a) l [] n n := by
  refine stirs_nil hl ⟨fun σ' c' => ?_, fun h hx => ?_⟩
  · rw [flight_rcv ht hs]
    split
    · exact (List.drop_sublist _ _).trans (hc.flight σ' c')
    · exact hc.flight σ' c'
  · obtain ⟨⟨_, hwait⟩, hx', _⟩ | ⟨_, h', _⟩ := waiting_next hw ht hg h hx
    · exact hc.held hwait hx'
    · cases h'

/-- What is consumed was the oldest in flight. -/
theorem flight_eq {tr : List (Act κ ι)} (h : (lts g).Run tr s) {a : Act κ ι} {σ : Side} {c : Conn κ ι}
    {b : Reader.Act} {p : Bytes} (ht : touch a = some ((σ, c), .rcv b)) (hg : guard g s a)
    (hs : ((s.ends (σ, c)).next (.rcv b)).rcv.delivered = (s.ends (σ, c)).rcv.delivered ++ [p]) :
    s.flight σ.other c = (c, p) :: (next g s a).flight σ.other c := by
  have hpre := delivered_of_run (Lts.Run.step h (show (lts g).guard s a from hg)) σ.other c
  have hdel : ((next g s a).ends (σ, c)).rcv.delivered = (s.ends (σ, c)).rcv.delivered ++ [p] := by
    rw [ends_of_touch ht, Function.update_self, hs]
  have hstart : ((next g s a).ends (σ.other, c)).snd.started = (s.ends (σ.other, c)).snd.started := by
    have hx : ((σ.other, c) : Side × Conn κ ι) ≠ (σ, c) := by simp [Side.other_ne]
    rw [ends_of_touch ht, Function.update_of_ne hx]
  rw [Side.other_other] at hpre
  obtain ⟨rest, hrest⟩ := hpre
  rw [show ((lts g).next s a).ends = (next g s a).ends from rfl, hdel, hstart] at hrest
  rw [flight, flight, hstart, Side.other_other, hdel, ← hrest]
  simp

/-- `got_pdu` consumes a PDU. -/
theorem stirs_gotPdu {tr : List (Act κ ι)} (h : (lts g).Run tr s) {a : Act κ ι} {σ : Side} {c : Conn κ ι}
    {b : Reader.Act} {p : Bytes} {l : List (RpcNet.Act κ ι)} {n : RpcNet κ ι}
    (ht : touch a = some ((σ, c), .rcv b)) (hg : guard g s a) (hl : (RpcNet.lts g).Run l n)
    (hc : Carried s n) (hup : Up n (owner c σ))
    (hs : ((s.ends (σ, c)).next (.rcv b)).rcv.delivered = (s.ends (σ, c)).rcv.delivered ++ [p]) :
    Stirs g (next g s a) l [gotPdu c p σ] n (RpcNet.next g n (gotPdu c p σ)) := by
  have heq := flight_eq h ht hg hs
  have hmem : (c, p) ∈ flow n σ.other := (hc.flight σ.other c).subset (by rw [heq]; exact List.mem_cons_self)
  refine ⟨.step hl (guard_gotPdu hup hmem), rfl, ⟨fun σ' c' => ?_, fun {σ' c' t b' w x} hwt hx => ?_⟩,
    fun _ => up_gotPdu, fun c' σ' => dead_of_next n (gotPdu_ne_die c c' p σ σ')⟩
  · rw [flow_gotPdu]
    by_cases hσ : σ' = σ.other
    · subst hσ
      rw [if_pos rfl]
      have hsub := (hc.flight σ.other c').erase (c, p)
      by_cases hcc : c' = c
      · subst hcc
        rwa [heq, List.erase_cons_head] at hsub
      · have hno : (c, p) ∉ s.flight σ.other c' := by
          intro hin
          obtain ⟨_, _, hin⟩ := List.mem_map.mp hin
          cases hin
          exact hcc rfl
        rw [List.erase_of_not_mem hno] at hsub
        rw [flight_rcv ht hs, if_neg fun h => hcc (congrArg Prod.snd h)]
        exact hsub
    · rw [if_neg hσ, flight_rcv ht hs, if_neg fun h => hσ (congrArg Prod.fst h)]
      exact hc.flight σ' c'
  · obtain ⟨⟨_, hwait⟩, hx', _⟩ | ⟨_, h', _⟩ := waiting_next (wired_of_run h) ht hg hwt hx
    · exact (hc.held hwait hx').next hl (by rw [thread_gotPdu]; simp)
    · cases h'

/-- The call of `send` that a thread begins or goes on with. -/
theorem inside_of_calls (hw : Wired s) {a : Act κ ι} {σ : Side} {c : Conn κ ι} {b : Sender.Act} {t : Tid}
    {p : Pdu} {n : RpcNet κ ι} (hlike : Like s.net n) (hc : Carried s n)
    (ht : touch a = some ((σ, c), .snd b)) (hg : guard g s a) (hcalls : (s.ends (σ, c)).snd.Calls t p b) :
    sender b = some t ∧ ∃ x, s.mover a = some x ∧ s.inside a (owner c σ) t = some x ∧ x.side = σ ∧
      x.conn = c ∧ x.party = owner c σ ∧ x.tid = t ∧ Held n x p := by
  have hb : sender b = some t := by
    obtain ⟨r, rfl⟩ | ⟨r, w, rfl, _⟩ := hcalls <;> rfl
  refine ⟨hb, ?_⟩
  obtain ⟨⟨x, hx, hσ, hxc, hp, htid⟩, _⟩ := inside_of_guard hw ht hb hg
  cases a with
  | own a => cases ht
  | arrive σ c item => cases ht
  | read σ c errno accept keep => cases ht
  | send x' p' r =>
      cases ht
      cases hx
      refine ⟨x, rfl, rfl, hσ, hxc, hp, htid, ?_⟩
      obtain ⟨r', h⟩ | ⟨r', w, h, _⟩ := hcalls
      · cases h
        exact (held_of_like hlike).mp ⟨hg.2.1, hg.2.2.2.2⟩
      · cases h
  | conn σ' c' a =>
      cases ht
      obtain ⟨r, rfl⟩ | ⟨r, w, rfl, hwait⟩ := hcalls
      · exact absurd rfl (hg.2.1 t p r)
      · exact ⟨x, hx, hx, hσ, hxc, hp, htid, hc.held hwait hx⟩

/-- Another step of the sending half. -/
theorem carried_snd (hw : Wired s) {a : Act κ ι} {σ : Side} {c : Conn κ ι} {b : Sender.Act} {n : RpcNet κ ι}
    (hc : Carried s n) (ht : touch a = some ((σ, c), .snd b)) (hg : guard g s a)
    (hle : (s.ends (σ.other, c)).rcv.delivered.length ≤ (s.ends (σ, c)).snd.started.length)
    (hs : ((s.ends (σ, c)).snd.next b).started = (s.ends (σ, c)).snd.started)
    (hown : ∀ t p w x, sender b = some t → ((s.ends (σ, c)).snd.next b).threads t = .waiting p w →
      s.inside a (owner c σ) t = some x → Held n x p) : Carried (next g s a) n := by
  refine ⟨fun σ' c' => ?_, fun {σ' c' t p w x} hwt hx => ?_⟩
  · have hnil : ((s.ends (σ, c)).snd.next b).started = (s.ends (σ, c)).snd.started ++ [] := by
      rw [hs, List.append_nil]
    rw [flight_snd ht hnil hle]
    simpa using hc.flight σ' c'
  · obtain ⟨⟨_, hwait⟩, hx', _⟩ | ⟨b', h', hb, rfl, rfl⟩ := waiting_next hw ht hg hwt hx
    · exact hc.held hwait hx'
    · cases h'
      rw [ends_of_touch ht, Function.update_self] at hwt
      rw [sending_next, sendingNext_eq ht hb, if_neg (by rw [hwt]; simp)] at hx
      exact hown t p w x hb hwt hx

/-- A call of `send` begins to write, or returns because the connection is dead. -/
theorem stirs_act (hw : Wired s) {a : Act κ ι} {σ : Side} {c : Conn κ ι} {b : Sender.Act} {t : Tid} {p : Pdu}
    {x : Sending κ ι} {ok : Bool} {l : List (RpcNet.Act κ ι)} {n : RpcNet κ ι}
    (hl : (RpcNet.lts g).Run l n) (hc : Carried s n) (ht : touch a = some ((σ, c), .snd b))
    (hg : guard g s a) (hup : Up n (owner c σ))
    (hle : (s.ends (σ.other, c)).rcv.delivered.length ≤ (s.ends (σ, c)).snd.started.length)
    (hb : sender b = some t) (hσ : x.side = σ) (hxc : x.conn = c) (hp : x.party = owner c σ) (htid : x.tid = t)
    (hheld : Held n x p) (hd : ok = true → ¬ Dead n c σ)
    (hs : ((s.ends (σ, c)).snd.next b).started =
      (s.ends (σ, c)).snd.started ++ if ok = true then [p] else [])
    (hno : ∀ p' w, ((s.ends (σ, c)).snd.next b).threads t ≠ .waiting p' w) :
    Stirs g (next g s a) l [x.act ok] n (RpcNet.next g n (x.act ok)) := by
  refine ⟨.step hl (guard_act hheld.1 (by rw [hp, hxc, hσ]) (by rw [hp]; exact hup) (by rwa [hxc, hσ])), rfl,
    ⟨fun σ' c' => ?_, fun {σ' c' t' p' w x'} hwt hx => ?_⟩, fun _ => up_act,
    fun c' σ' => dead_of_next n (act_ne_die x ok c' σ')⟩
  · rw [flight_snd ht hs hle, flow_act, hσ, hxc, ← hheld.2]
    refine List.Sublist.append (hc.flight σ' c') ?_
    cases ok with
    | false => simp
    | true =>
        by_cases hx : ((σ', c') : Side × Conn κ ι) = (σ, c)
        · cases hx
          simp
        · rw [if_neg hx]
          exact List.nil_sublist _
  · obtain ⟨⟨_, hwait⟩, hx', hne⟩ | ⟨b', h', hb', rfl, rfl⟩ := waiting_next hw ht hg hwt hx
    · refine (hc.held hwait hx').next hl ?_
      rw [thread_act, Ne, Option.some.injEq, Prod.mk.injEq, hp, htid]
      obtain ⟨hp', htid'⟩ := hw.sending _ _ _ hx'
      rintro ⟨ho, htt⟩
      refine hne b rfl ?_ (by rw [← hp', ho])
      rw [hb, htt, htid']
    · cases h'
      rw [hb] at hb'
      cases hb'
      rw [ends_of_touch ht, Function.update_self] at hwt
      exact absurd hwt (hno p' w)

theorem started_length {tr : List (Act κ ι)} (h : (lts g).Run tr s) (σ : Side) (c : Conn κ ι) :
    (s.ends (σ.other, c)).rcv.delivered.length ≤ (s.ends (σ, c)).snd.started.length := by
  simpa using (delivered_of_run h σ c).length_le

/-- A step in which no call of `send` begins or goes on. -/
theorem mover_of_not_calls {a : Act κ ι} {σ : Side} {c : Conn κ ι} {b : Sender.Act}
    (ht : touch a = some ((σ, c), .snd b)) (hg : guard g s a)
    (hno : ∀ t p, ¬ (s.ends (σ, c)).snd.Calls t p b) :
    s.mover a = none ∧ ∀ t, s.inside a (owner c σ) t = s.sending (owner c σ) t := by
  cases a with
  | own a => cases ht
  | arrive σ c item => cases ht
  | read σ c errno accept keep => cases ht
  | send x p r =>
      cases ht
      exact absurd (.inl ⟨r, rfl⟩) (hno x.tid p)
  | conn σ' c' a =>
      cases ht
      refine ⟨?_, fun _ => rfl⟩
      cases b with
      | resume t r =>
          obtain ⟨p, hp⟩ := (ends_guard (a := .conn σ c (.resume t r)) rfl hg).2.2
          exact absurd (.inr ⟨r, true, rfl, hp⟩) (hno t p)
      | _ => rfl

/-- A step of the sending half. -/
theorem stirs_snd {tr : List (Act κ ι)} (h : (lts g).Run tr s) {a : Act κ ι} {σ : Side} {c : Conn κ ι}
    {b : Sender.Act} {l : List (RpcNet.Act κ ι)} {n : RpcNet κ ι} (hl : (RpcNet.lts g).Run l n)
    (hlike : Like s.net n) (hc : Carried s n) (hdead : ∀ σ c, Dead n c σ ↔ (s.ends (σ, c)).snd.dead = true)
    (ht : touch a = some ((σ, c), .snd b)) (hg : guard g s a) (hup : Up n (owner c σ)) :
    ∃ n', Stirs g (next g s a) l
      ((s.mover a).bind fun x => ended x (s.ends (σ, c)) ((s.ends (σ, c)).next (.snd b))).toList n n' := by
  have hw := wired_of_run h
  have hle := started_length h σ c
  have hsnd : ((s.ends (σ, c)).next (.snd b)).snd = (s.ends (σ, c)).snd.next b := rfl
  cases Sender.step_next (ends_guard ht hg).2 with
  | other hno hs hwaits =>
      obtain ⟨hm, hin⟩ := mover_of_not_calls ht hg hno
      rw [hm]
      refine ⟨n, stirs_nil hl (carried_snd hw hc ht hg hle hs fun t p w x _ hwt hx => ?_)⟩
      obtain ⟨_, hwait⟩ := hwaits t p w trivial hwt
      exact hc.held hwait (by rw [← hin, hx])
  | @waits t p hcalls hs hwait _ =>
      obtain ⟨hb, x, hm, hin, _, _, _, htid, hheld⟩ := inside_of_calls hw hlike hc ht hg hcalls
      have hend : ended x (s.ends (σ, c)) ((s.ends (σ, c)).next (.snd b)) = none := by
        simp [ended, hsnd, hs, htid, hwait]
      rw [hm, Option.bind_some, hend]
      refine ⟨n, stirs_nil hl (carried_snd hw hc ht hg hle hs fun t' p' w x' hb' hwt hx => ?_)⟩
      rw [hb] at hb'
      cases hb'
      rw [hwait] at hwt
      rw [hin] at hx
      cases hwt
      cases hx
      exact hheld
  | begins hcalls hlive hs hno _ =>
      obtain ⟨hb, x, hm, hin, hσ, hxc, hp, htid, hheld⟩ := inside_of_calls hw hlike hc ht hg hcalls
      have hend : ended x (s.ends (σ, c)) ((s.ends (σ, c)).next (.snd b)) = some (x.act true) := by
        simp [ended, hsnd, hs]
      rw [hm, Option.bind_some, hend]
      refine ⟨_, stirs_act hw hl hc ht hg hup hle hb hσ hxc hp htid hheld (fun _ => ?_) hs hno⟩
      rw [hdead, hlive]
      simp
  | fails hcalls hs hidle _ =>
      obtain ⟨hb, x, hm, hin, hσ, hxc, hp, htid, hheld⟩ := inside_of_calls hw hlike hc ht hg hcalls
      have hend : ended x (s.ends (σ, c)) ((s.ends (σ, c)).next (.snd b)) = some (x.act false) := by
        simp [ended, hsnd, hs, htid, hidle]
      rw [hm, Option.bind_some, hend]
      exact ⟨_, stirs_act hw hl hc ht hg hup hle hb hσ hxc hp htid hheld (fun h => nomatch h)
        (by simpa using hs) (by rw [hidle]; simp)⟩

/-- A step of the receiving half. -/
theorem stirs_taken {tr : List (Act κ ι)} (h : (lts g).Run tr s) {a : Act κ ι} {σ : Side} {c : Conn κ ι}
    {b : Reader.Act} {l : List (RpcNet.Act κ ι)} {n : RpcNet κ ι} (hl : (RpcNet.lts g).Run l n)
    (hc : Carried s n) (ht : touch a = some ((σ, c), .rcv b)) (hg : guard g s a) (hup : Up n (owner c σ)) :
    ∃ n', Stirs g (next g s a) l (taken a (s.ends (σ, c)) ((s.ends (σ, c)).next (.rcv b))) n n' := by
  have hw := wired_of_run h
  have hrcv : ((s.ends (σ, c)).next (.rcv b)).rcv = (s.ends (σ, c)).rcv.next b := rfl
  cases a with
  | own a => cases ht
  | send x p r => cases ht
  | conn σ c a => cases ht
  | arrive σ' c' item =>
      cases ht
      exact ⟨n, stirs_rcv hw rfl hg hl hc (List.append_nil _).symm⟩
  | read σ' c' errno accept keep =>
      cases ht
      rcases Reader.delivered_next (s := (s.ends (σ, c)).rcv) (.readCb errno accept) with hd | ⟨p, hd⟩
      · have hnone : taken (.read σ c errno accept keep) (s.ends (σ, c))
            ((s.ends (σ, c)).next (.rcv (.readCb errno accept))) = [] := by
          cases keep <;> simp [taken, hrcv, hd]
        rw [hnone]
        exact ⟨n, stirs_rcv hw rfl hg hl hc (by rw [hrcv, hd, List.append_nil])⟩
      · cases keep with
        | false => exact ⟨n, stirs_rcv hw rfl hg hl hc (by rw [hrcv, hd])⟩
        | true =>
            have hone : taken (.read σ c errno accept true) (s.ends (σ, c))
                ((s.ends (σ, c)).next (.rcv (.readCb errno accept))) = [gotPdu c p σ] := by
              simp [taken, hrcv, hd]
            rw [hone]
            exact ⟨_, stirs_gotPdu h rfl hg hl hc hup (by rw [hrcv, hd])⟩

/-! ## The simulation -/

/-- The parties are the same, and the network has what the connections have. -/
structure Joined (s : Stack κ ι) (n : RpcNet κ ι) : Prop where
  like : Like s.net n
  carried : Carried s n
  dead : ∀ σ c, Dead n c σ ↔ (s.ends (σ, c)).snd.dead = true

theorem like_next {n : RpcNet κ ι} (h : Like s.net n) (a : Act κ ι) :
    Like (next g s a).net ((s.events a).foldr (fun b n => RpcNet.next g n b) n) := by
  have hl := h.foldr (g := g) (s.events a)
  have heq : (next g s a).net = ⟨((s.events a).foldr (fun b n => RpcNet.next g n b) s.net).clt,
      ((s.events a).foldr (fun b n => RpcNet.next g n b) s.net).srv, [], [],
      ((s.events a).foldr (fun b n => RpcNet.next g n b) s.net).made⟩ := by
    rw [next]
    split <;> rfl
  rw [heq]
  exact ⟨hl.clt, hl.srv, hl.made⟩

theorem Carried.die {n : RpcNet κ ι} {l : List (RpcNet.Act κ ι)} (h : Carried s n)
    (hl : (RpcNet.lts g).Run l n) (c : Conn κ ι) (σ : Side) : Carried s (RpcNet.next g n (die c σ)) :=
  ⟨fun σ' c' => by rw [flow_die]; exact h.flight σ' c',
    fun hw hx => (h.held hw hx).next hl (by rw [thread_die]; simp)⟩

omit [DecidableEq κ] [DecidableEq ι] in
theorem events_touch {a : Act κ ι} {σ : Side} {c : Conn κ ι} {b : End.Act} (h : touch a = some ((σ, c), b)) :
    s.events a = (if ((s.ends (σ, c)).next b).snd.dead && !(s.ends (σ, c)).snd.dead then [die c σ] else []) ++
      (((s.mover a).bind fun x => ended x (s.ends (σ, c)) ((s.ends (σ, c)).next b)).toList ++
        taken a (s.ends (σ, c)) ((s.ends (σ, c)).next b)) := by
  cases a <;> cases h <;> rfl

/-- A step of an end, before its death is taken into account. -/
theorem stirs_touch {tr : List (Act κ ι)} (h : (lts g).Run tr s) {a : Act κ ι} {σ : Side} {c : Conn κ ι}
    {b : End.Act} {l : List (RpcNet.Act κ ι)} {n : RpcNet κ ι} (hl : (RpcNet.lts g).Run l n)
    (hj : Joined s n) (ht : touch a = some ((σ, c), b)) (hg : guard g s a) (hup : Up n (owner c σ)) :
    ∃ n', Stirs g (next g s a) l
      (((s.mover a).bind fun x => ended x (s.ends (σ, c)) ((s.ends (σ, c)).next b)).toList ++
        taken a (s.ends (σ, c)) ((s.ends (σ, c)).next b)) n n' := by
  cases b with
  | snd b =>
      have hnone : ∀ e e', taken a e e' = [] := by
        intro e e'
        cases a <;> first | rfl | cases ht
      rw [hnone, List.append_nil]
      exact stirs_snd h hl hj.like hj.carried hj.dead ht hg hup
  | rcv b =>
      have hnone : s.mover a = none := by
        cases a <;> first | rfl | cases ht
      rw [hnone, Option.bind_none, Option.toList_none, List.nil_append]
      exact stirs_taken h hl hj.carried ht hg hup

theorem joined_touch {tr : List (Act κ ι)} (h : (lts g).Run tr s) {a : Act κ ι} {σ : Side} {c : Conn κ ι}
    {b : End.Act} {l : List (RpcNet.Act κ ι)} {n : RpcNet κ ι} (hl : (RpcNet.lts g).Run l n)
    (hj : Joined s n) (ht : touch a = some ((σ, c), b)) (hg : guard g s a) :
    ∃ n', (RpcNet.lts g).Run (s.events a ++ l) n' ∧ Joined (next g s a) n' := by
  have halive := hg.1
  rw [ht] at halive
  have hup : Up n (owner c σ) := up_of_alive hj.like halive.1
  obtain ⟨n₁, hs⟩ := stirs_touch h hl hj ht hg hup
  have hlike := like_next (g := g) hj.like a
  rw [events_touch ht] at hlike ⊢
  have hends : ∀ σ' c', (σ', c') ≠ (σ, c) → (next g s a).ends (σ', c') = s.ends (σ', c') := by
    intro σ' c' hne
    rw [ends_of_touch ht, Function.update_of_ne hne]
  have hself : (next g s a).ends (σ, c) = (s.ends (σ, c)).next b := by
    rw [ends_of_touch ht, Function.update_self]
  split
  · rename_i hd
    simp only [Bool.and_eq_true, Bool.not_eq_true'] at hd
    rw [if_pos (by simp [hd]), List.foldr_append, ← hs.eq] at hlike
    refine ⟨_, .step hs.run (guard_die (hs.up _ hup)), hlike, hs.carried.die hs.run c σ, fun σ' c' => ?_⟩
    by_cases hx : ((σ', c') : Side × Conn κ ι) = (σ, c)
    · cases hx
      rw [hself]
      exact iff_of_true (dead_die n₁ c σ) hd.1
    · have hne : die c σ ≠ die c' σ' := by
        intro hdie
        obtain ⟨rfl, rfl⟩ := die_inj hdie
        exact hx rfl
      rw [hends σ' c' hx, ← hj.dead, ← hs.dead]
      exact dead_of_next n₁ hne
  · rename_i hd
    rw [if_neg hd, List.nil_append, ← hs.eq] at hlike
    refine ⟨n₁, hs.run, hlike, hs.carried, fun σ' c' => ?_⟩
    rw [hs.dead, hj.dead]
    by_cases hx : ((σ', c') : Side × Conn κ ι) = (σ, c)
    · cases hx
      rw [hself]
      cases hold : (s.ends (σ, c)).snd.dead with
      | true => rw [End.dead_mono hold]
      | false => simpa [hold] using hd
    · rw [hends σ' c' hx]

theorem joined_own {a : RpcNet.Act κ ι} {l : List (RpcNet.Act κ ι)} {n : RpcNet κ ι}
    (hw : Wired s) (hl : (RpcNet.lts g).Run l n) (hj : Joined s n) (hg : guard g s (.own a)) :
    ∃ n', (RpcNet.lts g).Run (s.events (.own a) ++ l) n' ∧ Joined (next g s (.own a)) n' := by
  obtain ⟨_, hq, _, hga, hfree⟩ := hg
  have hends : (next g s (.own a)).ends = s.ends := ends_of_none rfl
  have hsend : (next g s (.own a)).sending = s.sending := (sending_next _).trans (sendingNext_of_none rfl)
  refine ⟨_, .step hl (guard_of_quiet hj.like hq hga), like_next hj.like (.own a), ⟨fun σ c => ?_, ?_⟩, ?_⟩
  · rw [show (next g s (.own a)).flight σ c = s.flight σ c by rw [flight, flight, hends]]
    rw [show ((RpcNet.lts g).next n a) = RpcNet.next g n a from rfl, flow_of_quiet n hq]
    exact hj.carried.flight σ c
  · rw [hends, hsend]
    intro σ c t b w x hwt hx
    refine (hj.carried.held hwt hx).next hl ?_
    intro ht
    obtain ⟨hp, htid⟩ := hw.sending _ _ _ hx
    have hnone := hfree _ ht
    rw [hp, htid, hx] at hnone
    cases hnone
  · intro σ c
    rw [hends, ← hj.dead]
    refine dead_of_next n ?_
    rintro rfl
    cases σ <;> cases hq

theorem layersSimulation (g : Config κ ι) :
    Lts.Simulation (lts g) (RpcNet.lts g) events Joined where
  init s h := by
    cases h
    refine ⟨RpcNet.init, rfl, ⟨rfl, rfl, rfl⟩, ⟨fun σ c => ?_, fun h => nomatch h⟩, fun σ c => ?_⟩
    · exact List.nil_sublist _
    · cases σ <;> exact iff_of_false (List.not_mem_nil) (by simp [init, End.init, Sender.init])
  step {tr s l n a} hr hl hj hg := by
    cases ht : touch a with
    | none =>
        cases a with
        | own a => exact joined_own (wired_of_run hr) hl hj hg
        | _ => cases ht
    | some b => exact joined_touch hr hl hj ht hg

/-- Every run over the connections is a run over the network in which the parties do the same, and what a
connection has in flight the network has. -/
theorem layers_refine {tr : List (Act κ ι)} {l : List (RpcNet.Act κ ι)} (h : (lts g).Sees events tr s l) :
    ∃ n, (RpcNet.lts g).Run l n ∧ n.clt = s.clt ∧ n.srv = s.srv ∧ n.made = s.made ∧
      ∀ σ c, (s.flight σ c).Sublist (flow n σ) := by
  obtain ⟨n, hl, hj⟩ := (layersSimulation g).run h
  exact ⟨n, hl, hj.like.clt.symm, hj.like.srv.symm, hj.like.made.symm, hj.carried.flight⟩

/-- A client binds over a connection. -/
theorem layers_refine_solo : ∃ tr s l, (lts Solo.config).Sees events tr s l ∧ l.length = 35 ∧
    ∃ n, (RpcNet.lts Solo.config).Run l n ∧ n.clt = s.clt ∧ n.srv = s.srv ∧ n.made = s.made ∧
      ∀ σ c, (s.flight σ c).Sublist (flow n σ) := by
  have h0 : (lts Solo.config).Sees events [] init [] := .init rfl
  have hex : ((lts Solo.config).exec init Solo.bindCallOver).isSome := by decide +kernel
  have hsees := h0.exec (Option.get_mem hex)
  exact ⟨_, _, _, hsees, by decide +kernel, layers_refine hsees⟩

/-- What a step over the connections is to the callers. -/
def callView (g : Config κ ι) (s : Stack κ ι) (a : Act κ ι) : List (RpcNet.CallAct κ) :=
  (RpcNet.lts g).views (RpcNet.callView g) s.net (s.events a).reverse

omit [DecidableEq κ] [DecidableEq ι] in
theorem callView_of_like {n n' : RpcNet κ ι} (h : Like n n') (a : RpcNet.Act κ ι) :
    RpcNet.callView g n a = RpcNet.callView g n' a := by
  rcases a with ⟨k, a⟩ | ⟨i, a⟩
  · cases a <;> simp only [RpcNet.callView, RpcNet.answerOf, h.clt]
  · cases a <;> rfl

theorem views_of_like {n n' : RpcNet κ ι} (h : Like n n') (as : List (RpcNet.Act κ ι)) :
    (RpcNet.lts g).views (RpcNet.callView g) n as = (RpcNet.lts g).views (RpcNet.callView g) n' as := by
  induction as generalizing n n' with
  | nil => rfl
  | cons a as ih => exact congrArg₂ (· ++ ·) (ih (h.next a)) (callView_of_like h a)

/-- The same holds of what callers see of a run over the connections, whatever the kernel does with the bytes
and whichever end of a connection fails. -/
theorem calls_over_connections {tr : List (Act κ ι)} {l : List (RpcNet.CallAct κ)}
    (h : (lts g).Sees (callView g) tr s l) (hf : s.net.FewCalls) : ∃ t, OnceCalls.lts.Run l t ∧
      ∀ a : κ × Request, OnceCalls.Life a (l.filter fun b => b.call = a) := by
  obtain ⟨_, n, hn, hj⟩ := (layersSimulation g).sees (fun _ _ h h' => h.trans h'.symm)
    (fun _ _ _ hj => views_of_like hj.like _) h
  obtain ⟨t, hl, _⟩ := RpcNet.calls_of_sees hn fun k => by
    rw [← hj.like.clt]
    exact hf k
  exact ⟨t, hl, fun a => (OnceCalls.tells_of_run hl a).life⟩

/-- A client binds and makes a call that returns the byte 3. -/
theorem calls_over_connections_solo : ∃ tr s l, (lts Solo.config).Sees (callView Solo.config) tr s l ∧
    l = [.answer ((), Solo.req 2 1) (some (0, [3])), .run ((), Solo.req 2 1) (0, [3]),
      .make ((), Solo.req 2 1)] ∧
    ∃ t, OnceCalls.lts.Run l t ∧ ∀ a : Unit × Request, OnceCalls.Life a (l.filter fun b => b.call = a) := by
  have h0 : (lts Solo.config).Sees (callView Solo.config) [] init [] := .init rfl
  have hex : ((lts Solo.config).exec init Solo.bindCallOver).isSome := by
    decide +kernel
  have hsees := h0.exec (Option.get_mem hex)
  have hf : ∀ s ∈ (lts Solo.config).exec init Solo.bindCallOver, (s.clt ()).issued.length < 2 ^ 32 := by
    decide +kernel
  exact ⟨_, _, _, hsees, by decide +kernel, calls_over_connections hsees fun _ => hf _ (Option.get_mem hex)⟩

end Stack
end StanDfs
