import StanDfs.Rpc.Lemmas.Steps
import StanDfs.Rpc.Stack

/-!
# The connections under the parties

Each direction of a connection is a link, so what `got_pdu` consumes at one end are the first of the
buffers that `send` began to write at the other. A thread that waits in `send` stands where it called it,
and its buffer is as it was.
-/

namespace StanDfs

theorem Side.other_ne (σ : Side) : σ.other ≠ σ := by
  cases σ <;> simp [Side.other]

@[simp] theorem Side.other_other (σ : Side) : σ.other.other = σ := by
  cases σ <;> rfl

/-! ## What the halves of an end do -/

namespace Sender

/-- The thread calls `send` with the buffer, or goes on with it. -/
def Calls (s : Sender) (t : Tid) (b : Pdu) (a : Act) : Prop :=
  (∃ r, a = .send t b r) ∨ ∃ r w, a = .resume t r ∧ s.threads t = .waiting b w

/-- No thread but `t` comes to wait. -/
def Waits (s s' : Sender) (p : Tid → Prop) : Prop :=
  ∀ t b w, p t → s'.threads t = .waiting b w → ∃ w', s.threads t = .waiting b w'

/-- A call of `send` waits, or begins to write, or returns because the connection is dead; or no call does. -/
inductive Step (s s' : Sender) (a : Act) : Prop
  | other : (∀ t b, ¬ s.Calls t b a) → s'.started = s.started → s.Waits s' (fun _ => True) → Step s s' a
  | waits {t b} : s.Calls t b a → s'.started = s.started → s'.threads t = .waiting b false →
      s.Waits s' (· ≠ t) → Step s s' a
  | begins {t b} : s.Calls t b a → s.dead = false → s'.started = s.started ++ [b] →
      (∀ b' w, s'.threads t ≠ .waiting b' w) → s.Waits s' (· ≠ t) → Step s s' a
  | fails {t b} : s.Calls t b a → s'.started = s.started → s'.threads t = .idle → s.Waits s' (· ≠ t) →
      Step s s' a

variable {s : Sender}

theorem waits_setThread {s' : Sender} {t : Tid} {p : SendPc} (h : s.Waits s' (· ≠ t)) :
    s.Waits (s'.setThread t p) (· ≠ t) := by
  intro t' b w ht hw
  have ht' : t' ≠ t := ht
  exact h t' b w ht (by simpa [setThread, Function.update_of_ne ht'] using hw)

theorem waits_refl (p : Tid → Prop) : s.Waits s p := fun _ _ w _ hw => ⟨w, hw⟩

theorem waits_broadcast {s' : Sender} {p : Tid → Prop} (h : s.Waits s' p) : s.Waits s'.broadcastWait p := by
  intro t b w hp hw
  simp only [broadcastWait] at hw
  split at hw
  · rename_i hw'
    cases hw
    exact h t b _ hp hw'
  · exact h t b w hp hw

theorem waits_signal {s' : Sender} {p : Tid → Prop} (h : s.Waits s' p) : s.Waits s'.signalComplete p := by
  intro t b w hp hw
  simp only [signalComplete] at hw
  split at hw
  · cases hw
  · exact h t b w hp hw

/-- The thread returns from `send`. -/
theorem waits_finish {s' : Sender} {t : Tid} {b : Pdu} (h : s.Waits s' (· ≠ t)) :
    s.Waits (s'.finish t b) (· ≠ t) := by
  unfold finish
  refine waits_setThread ?_
  have h' : ∀ l, s.Waits { s' with wpdu := .empty, completed := l } (· ≠ t) := fun _ => h
  simp only
  split
  · exact waits_broadcast (h' _)
  · exact h' _

theorem finish_idle (s : Sender) (t : Tid) (b : Pdu) : (s.finish t b).threads t = .idle := by
  simp only [finish]
  split <;> simp [setThread]

/-- A thread that is not waiting to begin leaves or stays, and no other comes to wait. -/
theorem waits_true {s' : Sender} {t : Tid} (h : s.Waits s' (· ≠ t))
    (ht : ∀ b w, s'.threads t = .waiting b w → ∃ w', s.threads t = .waiting b w') :
    s.Waits s' fun _ => True := by
  intro t' b w _ hw
  by_cases htt : t' = t
  · subst htt
    exact ht b w hw
  · exact h t' b w htt hw

theorem step_begin {s₀ : Sender} {a : Act} {t : Tid} {b : Pdu} (r : WriteResult) (hc : s.Calls t b a)
    (hd : s₀.dead = s.dead) (hs : s₀.started = s.started) (hw : s.Waits s₀ (· ≠ t)) :
    Step s (s₀.begin t b r) a := by
  unfold Sender.begin
  split
  · exact .fails hc hs (by simp [setThread]) (waits_setThread hw)
  · rename_i hlive
    have hlive : s.dead = false := by rw [← hd]; simpa using hlive
    simp only
    split
    · exact .begins hc hlive (by rw [← hs]; rfl) (by simp [setThread]) (waits_setThread hw)
    · split
      · refine .begins hc hlive (by rw [finish_started, ← hs]) ?_ (waits_finish hw)
        intro b' w h
        rw [finish_idle] at h
        cases h
      · exact .begins hc hlive (by rw [← hs]; rfl) (by simp [setThread]) (waits_setThread hw)

theorem step_next {a : Act} (hg : s.guard a) : Step s (s.next a) a := by
  cases a with
  | send t b r =>
      have hc : s.Calls t b (.send t b r) := .inl ⟨r, rfl⟩
      simp only [next]
      split
      · exact .waits hc rfl (by simp [setThread]) (waits_setThread (waits_refl _))
      · exact step_begin r hc rfl rfl (waits_refl _)
  | resume t r =>
      obtain ⟨b, hb⟩ := hg.2
      have hc : s.Calls t b (.resume t r) := .inr ⟨r, true, rfl, hb⟩
      simp only [next, hb]
      split
      · exact .waits hc rfl (by simp [setThread]) (waits_setThread (waits_refl _))
      · exact step_begin r hc rfl rfl (waits_refl _)
  | complete t =>
      obtain ⟨b, hb⟩ := hg.2
      have hno : ∀ t' b', ¬ s.Calls t' b' (.complete t) := by
        rintro t' b' (⟨r, h⟩ | ⟨r, w, h, _⟩) <;> cases h
      simp only [next, hb]
      split
      · exact .other hno rfl (waits_true (waits_setThread (t := t) (waits_refl _)) (by simp [setThread]))
      · refine .other hno finish_started (waits_true (t := t) (waits_finish (waits_refl _)) ?_)
        intro b' w h
        rw [finish_idle] at h
        cases h
  | removed t =>
      obtain ⟨b, hb⟩ := hg.2
      have hno : ∀ t' b', ¬ s.Calls t' b' (.removed t) := by
        rintro t' b' (⟨r, h⟩ | ⟨r, w, h, _⟩) <;> cases h
      simp only [next, hb]
      refine .other hno finish_started (waits_true (t := t) (waits_finish (waits_refl _)) ?_)
      intro b' w h
      rw [finish_idle] at h
      cases h
  | writeCb r =>
      have hno : ∀ t' b', ¬ s.Calls t' b' (.writeCb r) := by
        rintro t' b' (⟨r, h⟩ | ⟨r, w, h, _⟩) <;> cases h
      simp only [next]
      split
      · exact .other hno rfl (waits_refl _)
      · split
        · exact .other hno rfl (waits_refl _)
        · split
          · exact .other hno rfl (waits_refl _)
          · split
            · exact .other hno rfl (waits_signal (waits_refl _))
            · split
              · exact .other hno rfl (waits_refl _)
              · exact .other hno rfl (waits_signal (waits_refl _))
  | closeconn =>
      refine .other ?_ rfl (waits_refl _)
      rintro t' b' (⟨r, h⟩ | ⟨r, w, h, _⟩) <;> cases h
  | readFailed =>
      refine .other ?_ rfl (waits_signal (waits_refl _))
      rintro t' b' (⟨r, h⟩ | ⟨r, w, h, _⟩) <;> cases h
  | spurious t =>
      have hno : ∀ t' b', ¬ s.Calls t' b' (.spurious t) := by
        rintro t' b' (⟨r, h⟩ | ⟨r, w, h, _⟩) <;> cases h
      simp only [next]
      split
      · rename_i b w hb
        refine .other hno rfl (waits_true (t := t) (waits_setThread (waits_refl _)) ?_)
        intro b' w' h
        simp only [setThread, Function.update_self] at h
        cases h
        exact ⟨w, hb⟩
      · exact .other hno rfl (waits_true (t := t) (waits_setThread (waits_refl _)) (by simp [setThread]))
      · exact .other hno rfl (waits_refl _)

/-- No thread comes to wait but the one that takes the step. -/
theorem waits_of_ne {a : Act} {t : Tid} (hg : s.guard a) (ht : Stack.sender a ≠ some t) (b : Pdu) (w : Bool)
    (h : (s.next a).threads t = .waiting b w) : ∃ w', s.threads t = .waiting b w' := by
  have hne : ∀ {t' b'}, s.Calls t' b' a → t ≠ t' := by
    rintro t' b' (⟨r, rfl⟩ | ⟨r, w', rfl, _⟩) rfl <;> exact ht rfl
  cases step_next hg with
  | other _ _ hw => exact hw t b w trivial h
  | waits hc _ _ hw => exact hw t b w (hne hc) h
  | begins hc _ _ _ hw => exact hw t b w (hne hc) h
  | fails hc _ _ hw => exact hw t b w (hne hc) h

/-- No thread enters or leaves `send` but the one that takes the step. -/
theorem idle_next {a : Act} {t : Tid} (ht : Stack.sender a ≠ some t) :
    (s.next a).threads t = .idle ↔ s.threads t = .idle := by
  have hset : ∀ {u : Sender} {t' : Tid} {p : SendPc}, t' ≠ t →
      (u.setThread t' p).threads t = u.threads t := fun h => by
    simp [setThread, Function.update_of_ne (Ne.symm h)]
  have hbroad : ∀ s' : Sender, s'.broadcastWait.threads t = .idle ↔ s'.threads t = .idle := by
    intro s'
    simp only [broadcastWait]
    split <;> simp_all
  have hsignal : ∀ s' : Sender, s'.signalComplete.threads t = .idle ↔ s'.threads t = .idle := by
    intro s'
    simp only [signalComplete]
    split <;> simp_all
  have hfinish : ∀ {s' : Sender} {t' : Tid} {b : Pdu}, t' ≠ t →
      ((s'.finish t' b).threads t = .idle ↔ s'.threads t = .idle) := by
    intro s' t' b h
    simp only [finish]
    rw [hset h]
    split
    · exact hbroad _
    · exact Iff.rfl
  have hbegin : ∀ {s' : Sender} {t' : Tid} {b : Pdu} {r : WriteResult}, t' ≠ t →
      ((s'.begin t' b r).threads t = .idle ↔ s'.threads t = .idle) := by
    intro s' t' b r h
    simp only [Sender.begin]
    split
    · rw [hset h]
    · split
      · exact iff_of_eq (congrArg (· = SendPc.idle) (hset (u := { s' with wpdu := _, out := _, started := _ }) h))
      · split
        · exact hfinish h
        · exact iff_of_eq (congrArg (· = SendPc.idle) (hset h))
  cases a with
  | send t' b r =>
      have h : t' ≠ t := fun h => ht (by rw [Stack.sender, h])
      simp only [next]
      split
      · exact iff_of_eq (congrArg (· = SendPc.idle) (hset h))
      · exact hbegin h
  | resume t' r =>
      have h : t' ≠ t := fun h => ht (by rw [Stack.sender, h])
      simp only [next]
      split
      · split
        · rw [hset h]
        · exact hbegin h
      · exact Iff.rfl
  | complete t' =>
      have h : t' ≠ t := fun h => ht (by rw [Stack.sender, h])
      simp only [next]
      split
      · split
        · rw [hset h]
        · exact hfinish h
      · exact Iff.rfl
  | removed t' =>
      have h : t' ≠ t := fun h => ht (by rw [Stack.sender, h])
      simp only [next]
      split
      · exact hfinish h
      · exact Iff.rfl
  | writeCb r =>
      simp only [next]
      split
      · exact Iff.rfl
      · split
        · exact Iff.rfl
        · split
          · exact Iff.rfl
          · split
            · exact hsignal _
            · split
              · exact Iff.rfl
              · exact hsignal _
  | closeconn => exact Iff.rfl
  | readFailed => exact hsignal _
  | spurious t' =>
      simp only [next]
      split
      · rename_i b w hb
        by_cases h : t' = t
        · subst h
          simp [setThread, hb]
        · rw [hset h]
      · rename_i b w hb
        by_cases h : t' = t
        · subst h
          simp [setThread, hb]
        · rw [hset h]
      · exact Iff.rfl

/-- A dead connection stays dead. -/
theorem dead_next {a : Act} (h : s.dead = true) : (s.next a).dead = true := by
  cases a with
  | send t b r =>
      have hm : s.mustWait = false := by simp [mustWait, h]
      simp [next, hm, Sender.begin, h, setThread]
  | resume t r =>
      have hm : s.mustWait = false := by simp [mustWait, h]
      simp only [next, hm]
      split
      · simp [Sender.begin, h, setThread]
      · exact h
  | complete t =>
      simp only [next]
      split
      · split
        · exact h
        · exact finish_dead.trans h
      · exact h
  | removed t =>
      simp only [next]
      split
      · exact finish_dead.trans h
      · exact h
  | writeCb r => simp [next, h]
  | closeconn => rfl
  | readFailed => rfl
  | spurious t =>
      simp only [next]
      split <;> exact h

end Sender

namespace Reader

variable {s : Reader}

/-- A step of the reader consumes at most one PDU, and none if the connection is dead. -/
theorem delivered_next (a : Act) : (s.next a).delivered = s.delivered ∨
    ∃ p, (s.next a).delivered = s.delivered ++ [p] := by
  cases a with
  | arrive item => exact .inl rfl
  | die => exact .inl rfl
  | readCb errno accept =>
      simp only [next, callback]
      split
      · exact .inl rfl
      · rename_i dead recv out _
        cases out with
        | none => exact .inl (List.append_nil _)
        | some p => exact .inr ⟨p, rfl⟩

theorem dead_next {a : Act} (h : s.dead = true) : (s.next a).dead = true := by
  cases a with
  | arrive item => exact h
  | die => rfl
  | readCb errno accept => simp [next, callback, readCb, h]

end Reader

namespace End

variable {e : End}

theorem dead_next (b : Act) (h : e.snd.dead = e.rcv.dead) : (e.next b).snd.dead = (e.next b).rcv.dead := by
  cases b with
  | snd a =>
      simp only [next, sndActs, rcvActs, List.foldl_cons, List.foldl_nil]
      cases hd : (e.snd.next a).dead with
      | true =>
          cases hr : e.rcv.dead with
          | true => simp [hr]
          | false => rfl
      | false =>
          cases hs : e.snd.dead with
          | true => rw [Sender.dead_next hs] at hd; cases hd
          | false => simpa [hs] using h
  | rcv a =>
      simp only [next, sndActs, rcvActs, List.foldl_cons, List.foldl_nil]
      cases hd : (e.rcv.next a).dead with
      | true =>
          cases hs : e.snd.dead with
          | true => simp [hs]
          | false => rfl
      | false =>
          cases hr : e.rcv.dead with
          | true => rw [Reader.dead_next hr] at hd; cases hd
          | false => simpa [hr] using h

theorem dead_mono {b : Act} (h : e.snd.dead = true) : (e.next b).snd.dead = true := by
  cases b with
  | snd a => exact Sender.dead_next h
  | rcv a => simp [next, sndActs, h]

end End

namespace Stack

variable {κ ι : Type*} [DecidableEq κ] [DecidableEq ι] {g : Config κ ι} {s : Stack κ ι}

theorem ends_of_touch {a : Act κ ι} {σ : Side} {c : Conn κ ι} {b : End.Act}
    (h : touch a = some ((σ, c), b)) :
    (next g s a).ends = Function.update s.ends (σ, c) ((s.ends (σ, c)).next b) := by
  simp only [next, h]

theorem ends_of_none {a : Act κ ι} (h : touch a = none) : (next g s a).ends = s.ends := by
  simp only [next, h]

/-! ## Links -/

/-- The direction of a connection from its end `σ` to the other. -/
def link (σ : Side) (c : Conn κ ι) (s : Stack κ ι) : Link :=
  ⟨(s.ends (σ, c)).snd, (s.ends (σ.other, c)).rcv, (s.ends (σ.other, c)).got⟩

/-- What a step is to a direction of a connection. -/
def linkView (σ : Side) (c : Conn κ ι) (s : Stack κ ι) (a : Act κ ι) : List Link.Act :=
  match touch a with
  | none => []
  | some (x, b) =>
    if x = (σ, c) then ((s.ends x).sndActs b).map .snd
    else if x = (σ.other, c) then ((s.ends x).rcvActs b).map .rcv
    else []

theorem link_step {l : List Link.Act} {d : Link} (h : Link.lts.Run l d) {a : Link.Act} (hg : d.guard a) :
    Link.lts.Run (a :: l) (d.next a) := .step h hg

/-- A step of the end that writes. -/
theorem link_snd {l : List Link.Act} {d : Link} {e : End} {b : End.Act} {out : Bytes}
    (h : Link.lts.Run l d) (hs : d.snd = e.snd) (hg : e.guard out b) :
    ∃ d', Link.lts.Run ((e.sndActs b).map .snd ++ l) d' ∧ d' = { d with snd := (e.next b).snd } := by
  cases b with
  | snd a =>
      have ha : d.guard (.snd a) := by
        rw [Link.guard, hs]
        exact hg.2
      exact ⟨_, link_step h ha, by rw [Link.next, hs]; rfl⟩
  | rcv a =>
      simp only [End.sndActs, End.next]
      split
      · rename_i hd
        simp only [Bool.and_eq_true, Bool.not_eq_true'] at hd
        have ha : d.guard (.snd .readFailed) := by
          rw [Link.guard, hs]
          exact ⟨hg.2.1, hd.2⟩
        exact ⟨_, link_step h ha, by rw [Link.next, hs]; rfl⟩
      · exact ⟨d, h, by rw [List.foldl_nil, ← hs]⟩

/-- A step of the end that reads. -/
theorem link_rcv {l : List Link.Act} {d : Link} {e : End} {b : End.Act} (h : Link.lts.Run l d)
    (hr : d.rcv = e.rcv) (hn : d.arrived = e.got) (hg : e.guard d.snd.out b) :
    ∃ d', Link.lts.Run ((e.rcvActs b).map .rcv ++ l) d' ∧
      d' = { d with rcv := (e.next b).rcv, arrived := (e.next b).got } := by
  cases b with
  | rcv a =>
      have ha : d.guard (.rcv a) := by
        rw [Link.guard, hr, hn]
        exact ⟨hg.1, hg.2.2⟩
      exact ⟨_, link_step h ha, by rw [Link.next, hr, hn]; rfl⟩
  | snd a =>
      simp only [End.rcvActs, End.next, End.arrives]
      split
      · have ha : d.guard (.rcv .die) := by
          rw [Link.guard, hr]
          exact ⟨hg.1, List.nil_prefix⟩
        exact ⟨_, link_step h ha, by rw [Link.next, hr, hn]; rfl⟩
      · exact ⟨d, h, by rw [List.foldl_nil, ← hr, ← hn]; rfl⟩

theorem linkSimulation (g : Config κ ι) (σ : Side) (c : Conn κ ι) :
    Lts.Simulation (lts g) Link.lts (linkView σ c) fun s d => d = link σ c s where
  init s hs := by
    cases hs
    exact ⟨_, rfl, rfl⟩
  step := by
    intro tr s l d a hr hl hd hg
    subst hd
    show ∃ d', Link.lts.Run (linkView σ c s a ++ l) d' ∧ d' = link σ c (next g s a)
    unfold linkView
    cases ht : touch a with
    | none =>
        refine ⟨_, hl, ?_⟩
        rw [link, link, ends_of_none ht]
    | some m =>
        obtain ⟨⟨σ', c'⟩, b⟩ := m
        have hgb := hg.1
        rw [ht] at hgb
        rw [link, ends_of_touch ht]
        by_cases hsnd : ((σ', c') : Side × Conn κ ι) = (σ, c)
        · cases hsnd
          obtain ⟨d', hd', heq⟩ := link_snd (e := s.ends (σ, c)) hl rfl hgb.2
          refine ⟨d', by simpa using hd', ?_⟩
          have hne : ((σ.other, c) : Side × Conn κ ι) ≠ (σ, c) := by simp [Side.other_ne]
          rw [heq, Function.update_self, Function.update_of_ne hne]
          rfl
        · by_cases hrcv : ((σ', c') : Side × Conn κ ι) = (σ.other, c)
          · cases hrcv
            obtain ⟨d', hd', heq⟩ := link_rcv (e := s.ends (σ.other, c)) (b := b) hl rfl rfl (by
              have := hgb.2
              rw [Side.other_other] at this
              exact this)
            refine ⟨d', by simpa [Side.other_ne] using hd', ?_⟩
            rw [heq, Function.update_self, Function.update_of_ne (Ne.symm hsnd)]
            rfl
          · refine ⟨_, by simpa [hsnd, hrcv] using hl, ?_⟩
            rw [Function.update_of_ne (Ne.symm hsnd), Function.update_of_ne (Ne.symm hrcv)]
            rfl

/-- What `got_pdu` consumes at one end was sent at the other, in that order. -/
theorem delivered_of_run {tr : List (Act κ ι)} (h : (lts g).Run tr s) (σ : Side) (c : Conn κ ι) :
    (s.ends (σ.other, c)).rcv.delivered <+: (s.ends (σ, c)).snd.started.map fun b => frame b.1 := by
  obtain ⟨l, hl⟩ := Lts.Run.sees (linkView σ c) h
  obtain ⟨d, hd, rfl⟩ := (linkSimulation g σ c).run hl
  have hrcv := Reader.parsed_of_run (hd.component Link.reader_component)
  have hstream := hrcv.isPrefix.trans (Link.arrived_prefix_frames hd)
  refine isFrame_code.prefix_of_flatten hrcv.framed ?_ hstream
  intro p hp
  obtain ⟨b, _, rfl⟩ := List.mem_map.mp hp
  exact isFrame_frame b

/-! ## What the parties leave alone -/

/-- The parties are the same. -/
structure Like (n n' : RpcNet κ ι) : Prop where
  clt : n.clt = n'.clt
  srv : n.srv = n'.srv
  made : n.made = n'.made

theorem Like.next {n n' : RpcNet κ ι} (h : Like n n') (a : RpcNet.Act κ ι) :
    Like (RpcNet.next g n a) (RpcNet.next g n' a) := by
  cases a with
  | clt k a => exact ⟨by simp [RpcNet.next, h.clt], h.srv, by simp [RpcNet.next, h.made]⟩
  | srv i a => exact ⟨h.clt, by simp [RpcNet.next, h.srv], h.made⟩

theorem Like.foldr {n n' : RpcNet κ ι} (h : Like n n') (l : List (RpcNet.Act κ ι)) :
    Like (l.foldr (fun b n => RpcNet.next g n b) n) (l.foldr (fun b n => RpcNet.next g n b) n') := by
  induction l with
  | nil => exact h
  | cons a l ih => exact ih.next a

/-- A step of a party that neither sends nor receives does not depend on what is in flight. -/
theorem guard_of_quiet {n n' : RpcNet κ ι} {a : RpcNet.Act κ ι} (h : Like n n') (hq : quiet a = true)
    (hg : RpcNet.guard g n a) : RpcNet.guard g n' a := by
  cases a with
  | clt k a =>
      obtain ⟨h₁, h₂, _⟩ := hg
      rw [h.clt, h.made] at *
      refine ⟨h₁, h₂, ?_⟩
      cases a with
      | gotPdu c b => cases hq
      | _ => simp [RpcNet.cltInput]
  | srv i a =>
      obtain ⟨h₁, h₂⟩ := hg
      rw [h.srv] at *
      refine ⟨h₁, ?_⟩
      cases a with
      | gotPdu c b accept => cases hq
      | _ => trivial

/-- A thread of a client stays where it is while another takes a step. -/
theorem threads_next {e : Rpcc.Env} {s : Rpcc (Conn κ ι)} {k : κ} {a : Rpcc.Act (Conn κ ι)} {t : Tid}
    (h : thread (ι := ι) (.clt k a) ≠ some (.inl k, t)) : (s.next e a).threads t = s.threads t := by
  have hset : ∀ {s : Rpcc (Conn κ ι)} {t' : Tid} {p : Thread (Conn κ ι)}, t' ≠ t →
      (s.setThread t' p).threads t = s.threads t := fun ht => by
    simp [Rpcc.setThread, Function.update_of_ne (Ne.symm ht)]
  cases a with
  | call1 t' proc args =>
      have ht : t' ≠ t := fun ht => h (by rw [thread, ht])
      simp only [Rpcc.next, Rpcc.call1]
      split
      · rfl
      · exact hset ht
  | getRefconn t' f conn =>
      have ht : t' ≠ t := fun ht => h (by rw [thread, ht])
      simp only [Rpcc.next, Rpcc.getRefconn]
      split
      · exact hset (s := { s with chan := _ }) ht
      · exact hset (s := { s with chan := _ }) ht
  | tx t' f c ok => exact hset (p := .waiting f) fun ht => h (by rw [thread, ht])
  | giveup t' f => exact hset fun ht => h (by rw [thread, ht])
  | woken t' f => exact hset fun ht => h (by rw [thread, ht])
  | timedout t' f => exact hset fun ht => h (by rw [thread, ht])
  | isdead t' f => exact hset fun ht => h (by rw [thread, ht])
  | leave t' f => exact hset (p := .returning f) fun ht => h (by rw [thread, ht])
  | ret t' f r =>
      have ht : t' ≠ t := fun ht => h (by rw [thread, ht])
      simp only [Rpcc.next, Rpcc.ret]
      split
      · split <;> exact hset ht
      · exact hset ht
  | bound t' r => exact hset (p := .idle) fun ht => h (by rw [thread, ht])
  | gotPdu c b => rw [Rpcc.next, (Rpcc.gotPdu_frame s b).2.2.2]
  | cancel => rfl
  | die c => rfl

omit [DecidableEq κ] [DecidableEq ι] in
theorem thread_of_mover {i : ι} {a : Rpcs.Act (Conn κ ι)} {w : Worker} {p : Pc (Conn κ ι)}
    (h : a.mover = some (w, p)) : thread (κ := κ) (.srv i a) = some (.inr i, w) := by
  cases a with
  | gotPdu c b accept => cases h
  | die c => cases h
  | _ => cases h; rfl

theorem stands_next {n : RpcNet κ ι} {x : Sending κ ι} {a : RpcNet.Act κ ι} (h : x.Stands n)
    (ht : thread a ≠ some (x.party, x.tid)) : x.Stands (RpcNet.next g n a) := by
  cases a with
  | clt k a =>
      cases x with
      | call k' t f c =>
          by_cases hk : k = k'
          · subst hk
            simp only [Sending.Stands, RpcNet.next, Function.update_self]
            exact (threads_next ht).trans h
          · simpa [Sending.Stands, RpcNet.next, Function.update_of_ne (Ne.symm hk)] using h
      | reply i w j c b sz => exact h
      | refusal i w j r => exact h
  | srv i a =>
      have hw : ∀ w, thread (κ := κ) (.srv i a) ≠ some (.inr i, w) →
          ((n.srv i).next (g.srv i) a).workers w = (n.srv i).workers w := by
        intro w hne
        rcases Rpcs.workers_next (g.srv i) (n.srv i) a with heq | ⟨w', p, q, hm, heq⟩
        · rw [heq]
        · rw [heq, Function.update_of_ne]
          rintro rfl
          exact hne (thread_of_mover hm)
      cases x with
      | call k t f c => exact h
      | reply i' w j c b sz =>
          by_cases hi : i = i'
          · subst hi
            simp only [Sending.Stands, RpcNet.next, Function.update_self]
            exact (hw w ht).trans h
          · simpa [Sending.Stands, RpcNet.next, Function.update_of_ne (Ne.symm hi)] using h
      | refusal i' w j r =>
          by_cases hi : i = i'
          · subst hi
            simp only [Sending.Stands, RpcNet.next, Function.update_self]
            exact (hw w ht).trans h
          · simpa [Sending.Stands, RpcNet.next, Function.update_of_ne (Ne.symm hi)] using h

/-- The buffer that a worker sends is not written to. -/
theorem buf_next {tr : List (RpcNet.Act κ ι)} {n : RpcNet κ ι} (h : (RpcNet.lts g).Run tr n)
    {x : Sending κ ι} (hx : x.Stands n) (a : RpcNet.Act κ ι) : x.buf (RpcNet.next g n a) = x.buf n := by
  cases x with
  | call k t f c => rfl
  | refusal i w j r => rfl
  | reply i w j c b sz =>
      have hok := (RpcNet.sourced_srv h i).workers w
      rw [show (n.srv i).workers w = .send j c b sz from hx] at hok
      obtain ⟨⟨r, _, _, hheap, _⟩, _⟩ := hok
      have hlt : b < (n.srv i).heap.length := (List.getElem?_eq_some_iff.mp hheap).1
      simp only [Sending.buf, Rpcs.contents_mono hlt (RpcNet.grows_srv n a i)]

/-- The party of the end has found the connection dead. -/
def Dead (n : RpcNet κ ι) (c : Conn κ ι) : Side → Prop
  | .clt => c ∈ (n.clt c.clt).dead
  | .srv => c ∈ (n.srv c.srv).dead

theorem mem_dead_clt {e : Rpcc.Env} (s : Rpcc (Conn κ ι)) {a : Rpcc.Act (Conn κ ι)} {c : Conn κ ι}
    (ha : a ≠ .die c) : c ∈ (s.next e a).dead ↔ c ∈ s.dead := by
  cases a with
  | die c' =>
      have hne : c ≠ c' := fun h => ha (by rw [h])
      simp [Rpcc.next, hne]
  | call1 t proc args =>
      simp only [Rpcc.next, Rpcc.call1]
      split <;> exact Iff.rfl
  | getRefconn t f conn =>
      simp only [Rpcc.next, Rpcc.getRefconn]
      split <;> exact Iff.rfl
  | ret t f r =>
      simp only [Rpcc.next, Rpcc.ret]
      split
      · split <;> exact Iff.rfl
      · exact Iff.rfl
  | gotPdu c' b =>
      simp only [Rpcc.next, Rpcc.gotPdu]
      split
      · exact Iff.rfl
      · split
        · exact Iff.rfl
        · rw [Rpcc.take]
          split <;> exact Iff.rfl
  | _ => exact Iff.rfl

theorem mem_dead_srv {e : Rpcs.Env (Conn κ ι)} (s : Rpcs (Conn κ ι)) {a : Rpcs.Act (Conn κ ι)}
    {c : Conn κ ι} (ha : a ≠ .die c) : c ∈ (s.next e a).dead ↔ c ∈ s.dead := by
  cases a with
  | die c' =>
      have hne : c ≠ c' := fun h => ha (by rw [h])
      simp [Rpcs.next, hne]
  | gotPdu c' b accept => cases accept <;> exact Iff.rfl
  | begin w c' b =>
      obtain ⟨_, _, _, _, heq⟩ := Rpcs.begin_eq (e := e) s w c' b
      rw [Rpcs.next, heq]
  | check w j =>
      obtain ⟨_, _, _, _, _, heq⟩ := Rpcs.check_eq s w j
      rw [Rpcs.next, heq]
  | handled w j ret body =>
      simp only [Rpcs.next, Rpcs.handled]
      split <;> exact Iff.rfl
  | record w j b =>
      simp only [Rpcs.next, Rpcs.record]
      split <;> exact Iff.rfl
  | choose w j b =>
      simp only [Rpcs.next, Rpcs.choose]
      split <;> exact Iff.rfl
  | _ => exact Iff.rfl

/-- Only its death at the end makes a connection dead there. -/
theorem dead_of_next (n : RpcNet κ ι) {a : RpcNet.Act κ ι} {c : Conn κ ι} {σ : Side} (ha : a ≠ die c σ) :
    Dead (RpcNet.next g n a) c σ ↔ Dead n c σ := by
  cases σ with
  | clt =>
      cases a with
      | srv i a => exact Iff.rfl
      | clt k a =>
          by_cases hk : c.clt = k
          · subst hk
            simp only [Dead, RpcNet.next, Function.update_self]
            exact mem_dead_clt _ fun h => ha (by rw [h]; rfl)
          · simp [Dead, RpcNet.next, Function.update_of_ne hk]
  | srv =>
      cases a with
      | clt k a => exact Iff.rfl
      | srv i a =>
          by_cases hi : c.srv = i
          · subst hi
            simp only [Dead, RpcNet.next, Function.update_self]
            exact mem_dead_srv _ fun h => ha (by rw [h]; rfl)
          · simp [Dead, RpcNet.next, Function.update_of_ne hi]

theorem dead_die (n : RpcNet κ ι) (c : Conn κ ι) (σ : Side) : Dead (RpcNet.next g n (die c σ)) c σ := by
  cases σ <;> simp [Dead, die, RpcNet.next, Rpcc.next, Rpcs.next]

/-! ## What is in flight -/

/-- What is in flight from the ends `σ`. -/
def flow (n : RpcNet κ ι) : Side → List (Conn κ ι × Bytes)
  | .clt => n.up
  | .srv => n.down

theorem flow_of_quiet (n : RpcNet κ ι) {a : RpcNet.Act κ ι} (hq : quiet a = true) (σ : Side) :
    flow (RpcNet.next g n a) σ = flow n σ := by
  cases a with
  | clt k a =>
      cases a <;>
        first
        | cases hq; done
        | cases σ <;> simp [flow, RpcNet.next, RpcNet.take, RpcNet.cltInput, Rpcc.output]
  | srv i a =>
      cases a <;>
        first
        | cases hq; done
        | cases σ <;> simp [flow, RpcNet.next, RpcNet.take, RpcNet.srvInput, Rpcs.output]

theorem flow_die (n : RpcNet κ ι) (c : Conn κ ι) (σ σ' : Side) :
    flow (RpcNet.next g n (die c σ)) σ' = flow n σ' := by
  cases σ <;> cases σ' <;>
    simp [flow, die, RpcNet.next, RpcNet.take, RpcNet.cltInput, RpcNet.srvInput, Rpcc.output, Rpcs.output]

theorem flow_act (n : RpcNet κ ι) (x : Sending κ ι) (ok : Bool) (σ : Side) :
    flow (RpcNet.next g n (x.act ok)) σ =
      flow n σ ++ (if ok = true ∧ σ = x.side then [(x.conn, frame (x.buf n))] else []) := by
  cases x <;> cases σ <;> cases ok <;>
    simp [flow, Sending.act, Sending.side, Sending.conn, Sending.buf, RpcNet.next, RpcNet.take,
      RpcNet.cltInput, RpcNet.srvInput, Rpcc.output, Rpcs.output, Request.pdu]

theorem flow_gotPdu (n : RpcNet κ ι) (c : Conn κ ι) (p : Bytes) (σ σ' : Side) :
    flow (RpcNet.next g n (gotPdu c p σ)) σ' =
      if σ' = σ.other then (flow n σ').erase (c, p) else flow n σ' := by
  cases σ <;> cases σ' <;>
    simp [flow, gotPdu, Side.other, RpcNet.next, RpcNet.take, RpcNet.cltInput, RpcNet.srvInput, Rpcc.output,
      Rpcs.output]

end Stack
end StanDfs
