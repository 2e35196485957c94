import StanDfs.Rpc.Net

/-!
# What goes on beside completed calls

A thread of a client that completes call after call changes little of what the other threads and workers
see, as long as the xids of its calls are not theirs. So what is done without these calls can be done after
them.
-/

namespace StanDfs

/-- The xid and the one above it are below `m`. -/
def Small (m : Nat) (x : UInt32) : Prop := x.toNat + 1 < m

instance (m : Nat) (x : UInt32) : Decidable (Small m x) :=
  inferInstanceAs (Decidable (_ < _))

-- By going through the list, not through all numbers of 32 bits.
instance (m : Nat) (xs : List UInt32) : Decidable (∀ x ∈ xs, Small m x) :=
  List.decidableBAll _ xs

theorem Small.add_one_ne {m : Nat} {f y : UInt32} (h : Small m f) (hm : m ≤ 2 ^ 32)
    (hy : m ≤ y.toNat) : f + 1 ≠ y := by
  rintro rfl
  unfold Small at h
  rw [UInt32.toNat_add, UInt32.toNat_one] at hy
  omega

theorem Small.lt {m : Nat} {x y : UInt32} (h : Small m x) (hy : m ≤ y.toNat) : x < y := by
  unfold Small at h
  rw [UInt32.lt_iff_toNat_lt]
  omega

namespace XidWindow

variable {m : Nat}

/-- `w` is `w₀` with xids from `m` on behind it. -/
structure Extends (m : Nat) (w w₀ : XidWindow) : Prop where
  small : ∀ x ∈ w₀.xids, Small m x
  large : ∃ l, (∀ x ∈ l, m ≤ x.toNat) ∧ w.front = w₀.front ∧ w.rest = w₀.rest ++ l

theorem insertXid_append {x : UInt32} {l l' : List UInt32} (h : ∀ y ∈ l', x < y) :
    insertXid x (l ++ l') = insertXid x l ++ l' := by
  induction l with
  | nil =>
      cases l' with
      | nil => rfl
      | cons y ys => simp [insertXid, h y List.mem_cons_self]
  | cons y ys ih =>
      rw [List.cons_append, insertXid, insertXid]
      split
      · rfl
      · rw [ih, List.cons_append]

theorem insertXid_append_of_le {x : UInt32} {l l' : List UInt32} (h : ∀ y ∈ l, y ≤ x) :
    insertXid x (l ++ l') = l ++ insertXid x l' := by
  induction l with
  | nil => rfl
  | cons y ys ih =>
      obtain ⟨hy, hys⟩ := List.forall_mem_cons.mp h
      rw [List.cons_append, insertXid, if_neg (UInt32.not_lt.mpr hy), ih hys, List.cons_append]

theorem compress_append (w : XidWindow) (l l' : List UInt32) :
    compress w (l ++ l') = compress (compress w l) l' := by
  induction l generalizing w with
  | nil => rfl
  | cons x xs ih => exact ih _

theorem popFront_of_ne {x f : UInt32} {mid : List UInt32} (h : f + 1 ≠ x) :
    popFront x f mid = ⟨f, mid ++ [x]⟩ := by
  cases mid with
  | nil => exact if_neg h
  | cons y ys => exact if_neg h

/-- Xids that are not just above the front stay behind it. -/
theorem compress_of_ne {w : XidWindow} {l : List UInt32} (h : ∀ x ∈ l, w.front + 1 ≠ x) :
    compress w l = ⟨w.front, w.rest ++ l⟩ := by
  induction l generalizing w with
  | nil => simp [compress]
  | cons x xs ih =>
      obtain ⟨hx, hxs⟩ := List.forall_mem_cons.mp h
      rw [compress, popFront_of_ne hx, ih (w := ⟨w.front, w.rest ++ [x]⟩) hxs, List.append_assoc]
      rfl

theorem mem_popFront {x f y : UInt32} {mid : List UInt32} (h : y ∈ (popFront x f mid).xids) :
    y = x ∨ y = f ∨ y ∈ mid := by
  induction mid generalizing f with
  | nil =>
      rw [popFront] at h
      split at h <;> simp [xids] at h <;> tauto
  | cons z zs ih =>
      rw [popFront] at h
      split at h
      · rcases ih h with h | h | h
        · exact .inl h
        · exact .inr (.inr (by simp [h]))
        · exact .inr (.inr (by simp [h]))
      · simp only [xids, List.mem_cons, List.mem_append, List.not_mem_nil, or_false] at h
        simp only [List.mem_cons]
        tauto

theorem mem_compress {w : XidWindow} {l : List UInt32} {y : UInt32} (h : y ∈ (compress w l).xids) :
    y ∈ w.xids ∨ y ∈ l := by
  induction l generalizing w with
  | nil => exact .inl h
  | cons x xs ih =>
      rcases ih h with h | h
      · rcases mem_popFront h with h | h | h
        · exact .inr (by simp [h])
        · exact .inl (by simp [xids, h])
        · exact .inl (by simp [xids, h])
      · exact .inr (by simp [h])

/-- The xid of another call. -/
theorem Extends.update {w w₀ : XidWindow} (h : Extends m w w₀) (hm : m ≤ 2 ^ 32) {x : UInt32} (hx : Small m x) :
    Extends m (updateXidRep w x) (updateXidRep w₀ x) := by
  obtain ⟨hsmall, l, hl, hfront, hrest⟩ := h
  rw [updateXidRep, updateXidRep, hfront]
  split
  · exact ⟨hsmall, l, hl, hfront, hrest⟩
  · rw [hrest, insertXid_append fun y hy => hx.lt (hl y hy), compress_append]
    have hs : ∀ y ∈ (compress ⟨w₀.front, []⟩ (insertXid x w₀.rest)).xids, Small m y := by
      intro y hy
      rcases mem_compress hy with hy | hy
      · exact hsmall y (by simpa [xids] using Or.inl (List.mem_singleton.mp hy))
      · rcases mem_insertXid.mp hy with rfl | hy
        · exact hx
        · exact hsmall y (List.mem_cons_of_mem _ hy)
    refine ⟨hs, l, hl, ?_⟩
    rw [compress_of_ne fun y hy => (hs _ List.mem_cons_self).add_one_ne hm (hl y hy)]
    exact ⟨rfl, rfl⟩

/-- The xid of a completed call. -/
theorem Extends.update_large {w w₀ : XidWindow} (h : Extends m w w₀) (hm : m ≤ 2 ^ 32)
    (hw : compress ⟨w₀.front, []⟩ w₀.rest = w₀) {x : UInt32} (hx : m ≤ x.toNat) :
    Extends m (updateXidRep w x) w₀ := by
  obtain ⟨hsmall, l, hl, hfront, hrest⟩ := h
  have hlt : ∀ y ∈ w₀.xids, y < x := fun y hy => (hsmall y hy).lt hx
  refine ⟨hsmall, insertXid x l, fun y hy => ?_, ?_⟩
  · rcases mem_insertXid.mp hy with rfl | hy
    · exact hx
    · exact hl y hy
  · rw [updateXidRep, if_neg (UInt32.not_le.mpr (hfront ▸ hlt _ List.mem_cons_self)), hrest,
      insertXid_append_of_le fun y hy => UInt32.le_of_lt (hlt y (List.mem_cons_of_mem _ hy)), hfront,
      compress_append, hw, compress_of_ne]
    · exact ⟨rfl, rfl⟩
    · intro y hy
      refine (hsmall _ List.mem_cons_self).add_one_ne hm ?_
      rcases mem_insertXid.mp hy with rfl | hy
      · exact hx
      · exact hl y hy

end XidWindow

namespace ReplyTable

variable {m : Nat}

/-- The entries that are not of completed calls. -/
def smalls (m : Nat) (l : List ReplyT) : List ReplyT := l.filter fun e => Small m e.xid

/-- `t` is `t₀` with entries of other xids. -/
structure Extends (m : Nat) (t t₀ : ReplyTable) : Prop where
  floors : ∀ n, (t.rereplyWindow.lookup n).map id = (t₀.rereplyWindow.lookup n).map id
  lists : ∀ n, (t.replyWindow.lookup n).map (smalls m) = (t₀.replyWindow.lookup n).map (smalls m)

theorem smalls_cons_small {e : ReplyT} (l : List ReplyT) (h : Small m e.xid) :
    smalls m (e :: l) = e :: smalls m l := by
  simp [smalls, h]

theorem smalls_cons_large {e : ReplyT} (l : List ReplyT) (h : ¬ Small m e.xid) :
    smalls m (e :: l) = smalls m l := by
  simp [smalls, h]

theorem smalls_smalls (l : List ReplyT) : smalls m (smalls m l) = smalls m l := by
  simp [smalls]

theorem map_lookup_insert {β γ : Type*} {a a₀ : Map β} {f : β → γ} {b b₀ : β}
    (h : ∀ n, (a.lookup n).map f = (a₀.lookup n).map f) (hb : f b = f b₀) (n n' : UInt32) :
    ((a.insert n b).lookup n').map f = ((a₀.insert n b₀).lookup n').map f := by
  by_cases hn : n' = n
  · subst hn
    simp [hb]
  · rw [AList.lookup_insert_ne hn, AList.lookup_insert_ne hn, h]

/-- The scan for a call does the same to the other entries whatever is between them. -/
theorem scan_smalls {x f : UInt32} (hx : Small m x) (l : List ReplyT) :
    smalls m (scan x f l).1 = smalls m (scan x f (smalls m l)).1 ∧
      (scan x f l).2.2 = (scan x f (smalls m l)).2.2 := by
  induction l with
  | nil => exact ⟨rfl, rfl⟩
  | cons e es ih =>
      by_cases hs : Small m e.xid
      · rw [smalls_cons_small es hs, scan, scan]
        split
        · exact ⟨by rw [smalls_cons_small _ hs, smalls_cons_small _ hs, smalls_smalls], rfl⟩
        · simp only
          split
          · exact ih
          · exact ⟨by rw [smalls_cons_small _ hs, smalls_cons_small _ hs, ih.1], ih.2⟩
      · have hne : e.xid ≠ x := fun he => hs (he ▸ hx)
        rw [smalls_cons_large es hs, scan, if_neg hne]
        simp only
        split
        · exact ih
        · exact ⟨by rw [smalls_cons_large _ hs, ih.1], ih.2⟩

theorem scan_of_smalls {x f : UInt32} (hx : Small m x) {l l₀ : List ReplyT}
    (h : smalls m l = smalls m l₀) : smalls m (scan x f l).1 = smalls m (scan x f l₀).1 ∧
      (scan x f l).2.2 = (scan x f l₀).2.2 := by
  rw [(scan_smalls hx l).1, (scan_smalls hx l).2, (scan_smalls hx l₀).1, (scan_smalls hx l₀).2, h]
  exact ⟨rfl, rfl⟩

theorem Extends.newFloor {t t₀ : ReplyTable} (h : Extends m t t₀) (n r : UInt32) :
    t.newFloor n r = t₀.newFloor n r := by
  have hf := h.floors n
  rw [Option.map_id, id, id] at hf
  rw [ReplyTable.newFloor, ReplyTable.newFloor, hf]

theorem Extends.insert {t t₀ : ReplyTable} (h : Extends m t t₀) (n f : UInt32) {l l₀ : List ReplyT}
    (hl : smalls m l = smalls m l₀) :
    Extends m ⟨t.replyWindow.insert n l, t.rereplyWindow.insert n f⟩
      ⟨t₀.replyWindow.insert n l₀, t₀.rereplyWindow.insert n f⟩ where
  floors := map_lookup_insert h.floors rfl n
  lists := map_lookup_insert h.lists hl n

theorem Extends.create {t t₀ : ReplyTable} (h : Extends m t t₀) (n : UInt32) :
    Extends m (t.create n) (t₀.create n) := by
  have hn := h.lists n
  unfold ReplyTable.create
  cases hl : t.replyWindow.lookup n with
  | none =>
      rw [hl] at hn
      have hl₀ : t₀.replyWindow.lookup n = none := by simpa using hn.symm
      simp only [hl₀]
      exact ⟨h.floors, map_lookup_insert h.lists rfl n⟩
  | some l =>
      rw [hl] at hn
      cases hl₀ : t₀.replyWindow.lookup n with
      | none => simp [hl₀] at hn
      | some l₀ => exact h

/-- A check of another call has the same answer. -/
theorem Extends.check {t t₀ : ReplyTable} (h : Extends m t t₀) {n x r : UInt32} (hx : Small m x) {st : Rpcstate}
    {t₀' : ReplyTable} {freed₀ : List Addr} (hc : t₀.checkduplicateAndUpdate n x r = some (st, t₀', freed₀)) :
    ∃ t' freed, t.checkduplicateAndUpdate n x r = some (st, t', freed) ∧ Extends m t' t₀' := by
  simp only [checkduplicateAndUpdate] at hc ⊢
  rw [h.newFloor]
  split at hc
  · rename_i hlt
    cases hc
    rw [if_pos hlt]
    exact ⟨_, _, rfl, map_lookup_insert h.floors rfl n, h.lists⟩
  · rename_i hge
    rw [if_neg hge]
    have hn := h.lists n
    cases hl₀ : t₀.replyWindow.lookup n with
    | none => simp [hl₀] at hc
    | some l₀ =>
        cases hl : t.replyWindow.lookup n with
        | none => simp [hl, hl₀] at hn
        | some l =>
            rw [hl, hl₀, Option.map_some, Option.map_some, Option.some.injEq] at hn
            obtain ⟨hkept, hhit⟩ := scan_of_smalls (f := t₀.newFloor n r) hx hn
            simp only [hl₀] at hc
            simp only
            rw [hhit]
            generalize scan x (t₀.newFloor n r) l₀ = res₀ at hc hkept
            generalize scan x (t₀.newFloor n r) l = res at hkept
            obtain ⟨kept₀, freed₀', hit⟩ := res₀
            cases hit with
            | some e =>
                simp only at hc ⊢
                split at hc
                · rename_i hsz
                  cases hc
                  rw [if_pos hsz]
                  exact ⟨_, _, rfl, h.insert n _ hkept⟩
                · rename_i hsz
                  cases hc
                  rw [if_neg hsz]
                  exact ⟨_, _, rfl, h.insert n _ hkept⟩
            | none =>
                simp only [addReply, AList.lookup_insert, ↓reduceIte, Option.map_some, Option.some.injEq,
                  Prod.mk.injEq, AList.insert_insert] at hc ⊢
                obtain ⟨rfl, rfl, rfl⟩ := hc
                refine ⟨_, _, ⟨rfl, rfl, rfl⟩, h.insert n _ ?_⟩
                simp only [smalls, List.filter_append]
                congr 1

end ReplyTable

namespace Rpcc

variable {χ : Type*} {e : Env} {m : Nat} {u : Tid}

/-- The thread that takes the step. -/
def Act.thread : Act χ → Option Tid
  | .call1 t _ _ => some t
  | .getRefconn t _ _ => some t
  | .tx t _ _ _ => some t
  | .giveup t _ => some t
  | .woken t _ => some t
  | .timedout t _ => some t
  | .isdead t _ => some t
  | .leave t _ => some t
  | .ret t _ _ => some t
  | .bound t _ => some t
  | _ => none

/-- The client `s` is like `s₀`, but the thread `u` has completed calls. -/
structure Beside (m : Nat) (u : Tid) (s s₀ : Rpcc χ) : Prop where
  srvNonce : s.srvNonce = s₀.srvNonce
  bindDone : s.bindDone = s₀.bindDone
  xid : s.xid = s₀.xid
  destroyWait : s.destroyWait = s₀.destroyWait
  chan : s.chan = s₀.chan
  dead : s.dead = s₀.dead
  window : s.xidRepWindow.Extends m s₀.xidRepWindow
  calls : ∀ x, Small m x → s.calls.lookup x = s₀.calls.lookup x
  callers : ∀ t, t ≠ u → s.callers t = s₀.callers t
  threads : s.threads = s₀.threads

/-- The step is one of another thread, and of other calls. -/
def Apart (m : Nat) (u : Tid) (s : Rpcc χ) (a : Act χ) : Prop :=
  (∀ t ∈ a.thread, t ≠ u) ∧
  match a with
  | .call1 _ _ _ => Small m s.xid
  | .leave t _ => Small m (s.callers t).xid
  | .gotPdu _ b => ∀ p ∈ decodeReply b, Small m p.1.xid.toUInt32 ∧
    ∀ t ∈ s.calls.lookup p.1.xid.toUInt32, t ≠ u
  | .cancel => False
  | _ => True

instance (s : Rpcc χ) (a : Act χ) : Decidable (Apart m u s a) := by
  unfold Apart
  apply @Act.casesOn _ _ a <;> intros <;> infer_instance

theorem update_congr {β : Type*} {f f₀ : Nat → β} {u : Nat} (h : ∀ t, t ≠ u → f t = f₀ t) (t : Nat) (b : β) :
    ∀ t', t' ≠ u → Function.update f t b t' = Function.update f₀ t b t' := by
  intro t' ht'
  by_cases htt : t' = t
  · subst htt
    rw [Function.update_self, Function.update_self]
  · rw [Function.update_of_ne htt, Function.update_of_ne htt, h t' ht']

theorem Beside.setThread {s s₀ : Rpcc χ} (h : Beside m u s s₀) (t : Tid) (p : Thread χ) :
    Beside m u (s.setThread t p) (s₀.setThread t p) :=
  { h with threads := by rw [Rpcc.setThread, Rpcc.setThread, h.threads] }

theorem Beside.request {s s₀ : Rpcc χ} (h : Beside m u s s₀) (proc : UInt32) (args : Bytes) :
    s.request e proc args = s₀.request e proc args := by
  obtain ⟨_, hl⟩ := h.window
  obtain ⟨l, _, hf, _⟩ := hl
  rw [Rpcc.request, Rpcc.request, h.xid, h.srvNonce, hf]

theorem Beside.refuses {s s₀ : Rpcc χ} (h : Beside m u s s₀) (proc : UInt32) :
    s.refuses proc = s₀.refuses proc := by
  rw [Rpcc.refuses, Rpcc.refuses, h.bindDone, h.destroyWait]

theorem lookup_insert_small {c c₀ : Map Tid} (h : ∀ x, Small m x → c.lookup x = c₀.lookup x) (x : UInt32)
    (t : Tid) : ∀ y, Small m y → (c.insert x t).lookup y = (c₀.insert x t).lookup y := by
  intro y hy
  by_cases hyx : y = x
  · subst hyx
    rw [AList.lookup_insert, AList.lookup_insert]
  · rw [AList.lookup_insert_ne hyx, AList.lookup_insert_ne hyx, h y hy]

theorem lookup_erase_small {c c₀ : Map Tid} (h : ∀ x, Small m x → c.lookup x = c₀.lookup x) (x : UInt32) :
    ∀ y, Small m y → (c.erase x).lookup y = (c₀.erase x).lookup y := by
  intro y hy
  by_cases hyx : y = x
  · subst hyx
    rw [AList.lookup_erase, AList.lookup_erase]
  · rw [AList.lookup_erase_ne hyx, AList.lookup_erase_ne hyx, h y hy]

theorem Beside.gotPdu {s s₀ : Rpcc χ} (h : Beside m u s s₀) (hm : m ≤ 2 ^ 32) {b : Bytes}
    (hb : ∀ p ∈ decodeReply b, Small m p.1.xid.toUInt32 ∧ ∀ t ∈ s₀.calls.lookup p.1.xid.toUInt32, t ≠ u) :
    Beside m u (s.gotPdu b) (s₀.gotPdu b) := by
  unfold Rpcc.gotPdu
  cases hd : decodeReply b with
  | none => exact h
  | some p =>
      obtain ⟨hdr, un⟩ := p
      obtain ⟨hx, ht⟩ := hb _ hd
      have hw : Beside m u
          { s with
            xidRepWindow := updateXidRep s.xidRepWindow hdr.xid.toUInt32
            replied := s.replied ++ [hdr.xid.toUInt32] }
          { s₀ with
            xidRepWindow := updateXidRep s₀.xidRepWindow hdr.xid.toUInt32
            replied := s₀.replied ++ [hdr.xid.toUInt32] } :=
        { h with window := h.window.update hm hx }
      simp only [h.calls _ hx]
      cases hl : s₀.calls.lookup hdr.xid.toUInt32 with
      | none => exact hw
      | some t =>
          simp only [take, h.callers t (ht t hl)]
          split
          · exact hw
          · exact { hw with callers := update_congr h.callers t _ }

variable [DecidableEq χ]

theorem Beside.chanAlive {s s₀ : Rpcc χ} (h : Beside m u s s₀) : s.chanAlive = s₀.chanAlive := by
  rw [Rpcc.chanAlive, Rpcc.chanAlive, h.chan, h.dead]

theorem Beside.step {s s₀ : Rpcc χ} (h : Beside m u s s₀) (hm : m ≤ 2 ^ 32) {a : Act χ} (hg : guard s₀ a)
    (ha : Apart m u s₀ a) : guard s a ∧ Beside m u (s.next e a) (s₀.next e a) := by
  obtain ⟨ht, ha⟩ := ha
  have hthread : ∀ t ∈ a.thread, s.threads t = s₀.threads t ∧ s.callers t = s₀.callers t := fun t hta =>
    ⟨congrFun h.threads t, h.callers t (ht t hta)⟩
  cases a with
  | call1 t proc args =>
      refine ⟨(hthread t rfl).1.trans hg, ?_⟩
      rw [next, next, Rpcc.call1, Rpcc.call1, h.refuses, h.request]
      split
      · exact h
      · simp only [h.xid]
        exact { h.setThread t _ with
          xid := rfl
          calls := lookup_insert_small h.calls _ t
          callers := update_congr h.callers t _ }
  | getRefconn t f conn =>
      refine ⟨⟨(hthread t rfl).1.trans hg.1, h.chanAlive ▸ hg.2⟩, ?_⟩
      simp only [next, getRefconn, h.chanAlive, h.chan]
      have hc : Beside m u { s with chan := if s₀.chanAlive then s₀.chan else conn }
          { s₀ with chan := if s₀.chanAlive then s₀.chan else conn } := { h with chan := rfl }
      split
      · exact hc.setThread t _
      · exact hc.setThread t _
  | tx t f c ok =>
      exact ⟨⟨(hthread t rfl).1.trans hg.1, h.dead ▸ hg.2⟩, { h.setThread t (.waiting f) with }⟩
  | giveup t f => exact ⟨(hthread t rfl).1.trans hg, h.setThread t _⟩
  | woken t f =>
      obtain ⟨hth, hca⟩ := hthread t rfl
      exact ⟨⟨hth.trans hg.1, hca ▸ hg.2⟩, h.setThread t _⟩
  | timedout t f =>
      obtain ⟨hth, hca⟩ := hthread t rfl
      exact ⟨⟨hth.trans hg.1, hca ▸ hg.2⟩, h.setThread t _⟩
  | isdead t f =>
      refine ⟨(hthread t rfl).1.trans hg, ?_⟩
      have hlost : s.lost f = s₀.lost f := by rw [lost, lost, h.dead]
      rw [next, next, isdead, isdead, hlost]
      exact h.setThread t _
  | leave t f =>
      obtain ⟨hth, hca⟩ := hthread t rfl
      refine ⟨hth.trans hg, ?_⟩
      rw [next, next, leave, leave, hca]
      exact { h.setThread t (.returning f) with
        calls := lookup_erase_small h.calls _
        window := h.window.update hm ha }
  | ret t f r =>
      obtain ⟨hth, hca⟩ := hthread t rfl
      refine ⟨⟨hth.trans hg.1, hca ▸ hg.2⟩, ?_⟩
      simp only [next, ret, hca]
      split
      · split
        · exact h.setThread t _
        · exact h.setThread t _
      · exact h.setThread t _
  | bound t r => exact ⟨(hthread t rfl).1.trans hg, { h.setThread t .idle with bindDone := rfl, srvNonce := rfl }⟩
  | gotPdu c b => exact ⟨trivial, h.gotPdu hm ha⟩
  | cancel => exact ha.elim
  | die c => exact ⟨trivial, { h with dead := by rw [next, next, h.dead] }⟩

end Rpcc

namespace Rpcs

variable {χ : Type*} {e : Env χ} {m : Nat} {v : Worker}

/-- The server `s` is like `s₀`, but the worker `v` has handled completed calls. -/
structure Beside (m : Nat) (v : Worker) (s s₀ : Rpcs χ) : Prop where
  table : s.table.Extends m s₀.table
  conns : s.conns = s₀.conns
  heap : s₀.heap <+: s.heap
  dead : s.dead = s₀.dead
  jobs : s.jobs.Perm s₀.jobs
  workers : s.workers = s₀.workers
  aborted : s.aborted = s₀.aborted

/-- The step is one of another worker on other calls, and makes no new reply. -/
def Apart (m : Nat) (v : Worker) (s : Rpcs χ) : Act χ → Prop
  | .begin w _ _ => w ≠ v
  | .seen w _ => w ≠ v
  | .save w _ => w ≠ v
  | .check w j => w ≠ v ∧ Small m j.xid ∧ (s.table.replyWindow.lookup j.nonce).isSome = true
  | .tx w _ _ b _ _ => w ≠ v ∧ b < s.heap.length
  | .sent w _ _ _ _ => w ≠ v
  | .txReply w _ _ _ => w ≠ v
  | .handled _ _ _ _ => False
  | .record _ _ _ => False
  | .choose _ _ _ => False
  | _ => True

instance (s : Rpcs χ) (a : Act χ) : Decidable (Apart m v s a) := by
  unfold Apart
  apply @Act.casesOn _ _ a <;> intros <;> infer_instance

theorem Beside.setWorker {s s₀ : Rpcs χ} (h : Beside m v s s₀) (w : Worker) (p : Pc χ) :
    Beside m v (s.setWorker w p) (s₀.setWorker w p) :=
  { h with workers := by rw [Rpcs.setWorker, Rpcs.setWorker, h.workers] }

theorem Beside.contents {s s₀ : Rpcs χ} (h : Beside m v s s₀) {b : Addr} (hb : b < s₀.heap.length) :
    s.contents b = s₀.contents b := by
  obtain ⟨l, hl⟩ := h.heap
  rw [Rpcs.contents, Rpcs.contents, ← hl, List.getD_append _ _ _ _ hb]

variable [DecidableEq χ]

theorem Beside.step {s s₀ : Rpcs χ} (h : Beside m v s s₀) {a : Act χ} (hg : guard e s₀ a)
    (ha : Apart m v s₀ a) :
    guard e s a ∧ Beside m v (s.next e a) (s₀.next e a) ∧ s.output a = s₀.output a := by
  obtain ⟨hab, hg⟩ := hg
  have hab' := h.aborted.trans hab
  cases a with
  | gotPdu c b accept =>
      refine ⟨⟨hab', trivial⟩, ?_, rfl⟩
      rw [next, next]
      split
      · exact { h with jobs := h.jobs.append_right _ }
      · exact h
  | begin w c b =>
      refine ⟨⟨hab', (congrFun h.workers w).trans hg.1, h.jobs.mem_iff.mpr hg.2⟩, ?_, rfl⟩
      have hj : Beside m v { s with jobs := s.jobs.erase (c, b) } { s₀ with jobs := s₀.jobs.erase (c, b) } :=
        { h with jobs := h.jobs.erase _ }
      rw [next, next, begin, begin]
      cases decodeReq b with
      | none => exact hj
      | some q =>
          simp only
          split
          · exact hj.setWorker w _
          · split
            · exact hj
            · split
              · exact { hj.setWorker w _ with }
              · exact { hj.setWorker w _ with }
  | seen w j =>
      exact ⟨⟨hab', (congrFun h.workers w).trans hg⟩, { h.setWorker w (.save j) with table := h.table.create _ }, rfl⟩
  | save w j =>
      have hc : s.saveConn e j = s₀.saveConn e j := by rw [saveConn, saveConn, h.conns]
      exact ⟨⟨hab', (congrFun h.workers w).trans hg⟩, { h.setWorker w (.check j) with conns := hc }, rfl⟩
  | check w j =>
      obtain ⟨hw, hx, hl⟩ := ha
      refine ⟨⟨hab', (congrFun h.workers w).trans hg⟩, ?_, rfl⟩
      obtain ⟨l, hl⟩ := Option.isSome_iff_exists.mp hl
      rw [next, next, check, check]
      cases hc : s₀.table.checkduplicateAndUpdate j.nonce j.xid j.xidRep with
      | none => exact absurd hc (ReplyTable.checkduplicateAndUpdate_ne_none hl)
      | some res =>
          obtain ⟨st, t₀, freed₀⟩ := res
          obtain ⟨t, freed, hc', ht⟩ := h.table.check hx hc
          rw [hc']
          have hs : Beside m v { s with table := t, freed := s.freed ++ freed }
              { s₀ with table := t₀, freed := s₀.freed ++ freed₀ } := { h with table := ht }
          cases st with
          | new => exact { hs.setWorker w _ with }
          | inprogress => exact hs.setWorker w _
          | done b sz =>
              cases b with
              | none => exact { hs with aborted := rfl }
              | some b => exact hs.setWorker w _
          | forgotten => exact hs.setWorker w _
  | handled w j ret body => exact ha.elim
  | record w j b => exact ha.elim
  | choose w j b => exact ha.elim
  | tx w j c b sz ok =>
      refine ⟨⟨hab', (congrFun h.workers w).trans hg.1, h.dead ▸ hg.2⟩,
        { h.setWorker w (.sending j c b sz) with }, ?_⟩
      cases ok with
      | true => rw [output, output, h.contents ha.2]
      | false => rfl
  | sent w j c b sz => exact ⟨⟨hab', (congrFun h.workers w).trans hg⟩, { h.setWorker w .idle with }, rfl⟩
  | txReply w j r ok =>
      exact ⟨⟨hab', (congrFun h.workers w).trans hg.1, h.dead ▸ hg.2⟩, h.setWorker w .idle, by cases ok <;> rfl⟩
  | die c => exact ⟨⟨hab', trivial⟩, { h with dead := by rw [next, next, h.dead] }, rfl⟩

end Rpcs

namespace RpcNet

variable {m : Nat} {u : Tid} {v : Worker} {g : Config Unit Unit} {n n₀ : RpcNet Unit Unit}

/-- The system `n` is like `n₀`, but for completed calls of the thread `u` that the worker `v` handled. -/
structure Beside (m : Nat) (u : Tid) (v : Worker) (n n₀ : RpcNet Unit Unit) : Prop where
  clt : Rpcc.Beside m u (n.clt ()) (n₀.clt ())
  srv : Rpcs.Beside m v (n.srv ()) (n₀.srv ())
  up : n.up.Perm n₀.up
  down : n.down.Perm n₀.down
  made : n.made = n₀.made

def Apart (m : Nat) (u : Tid) (v : Worker) (n : RpcNet Unit Unit) : Act Unit Unit → Prop
  | .clt _ a => (n.clt ()).Apart m u a
  | .srv _ a => (n.srv ()).Apart m v a

instance (n : RpcNet Unit Unit) (a : Act Unit Unit) : Decidable (Apart m u v n a) := by
  unfold Apart
  apply @Act.casesOn _ _ _ a <;> intros <;> infer_instance

theorem perm_take {l l₀ : List (Conn Unit Unit × Bytes)} (h : l.Perm l₀) (o : Option (Conn Unit Unit × Bytes)) :
    (take l o).Perm (take l₀ o) := by
  cases o with
  | none => exact h
  | some p => exact h.erase p

/-- What can be done without the completed calls can be done after them. -/
theorem Beside.step (h : Beside m u v n n₀) (hm : m ≤ 2 ^ 32) {a : Act Unit Unit} (hg : guard g n₀ a)
    (ha : Apart m u v n₀ a) : guard g n a ∧ Beside m u v (next g n a) (next g n₀ a) := by
  cases a with
  | clt k a =>
      obtain ⟨hga, hopen, hin⟩ := hg
      obtain ⟨hga', hclt⟩ := h.clt.step (e := g.clt ()) hm hga ha
      refine ⟨⟨hga', fun c hc => h.made ▸ hopen c hc, fun p hp => ?_⟩, ?_⟩
      · exact ⟨h.down.mem_iff.mpr (hin p hp).1, rfl⟩
      · exact
          { clt := by simpa [next] using hclt
            srv := h.srv
            up := h.up.append_right _
            down := perm_take h.down _
            made := by simp only [next, h.made] }
  | srv i a =>
      obtain ⟨hga, hin⟩ := hg
      obtain ⟨hga', hsrv, hout⟩ := h.srv.step (e := g.srv ()) hga ha
      refine ⟨⟨hga', ?_⟩, ?_⟩
      · cases a with
        | gotPdu c b accept => exact ⟨h.up.mem_iff.mpr hin.1, rfl⟩
        | _ => trivial
      · exact
          { clt := h.clt
            srv := by simpa [next] using hsrv
            up := perm_take h.up _
            down := by
              simp only [next, hout]
              exact h.down.append_right _
            made := h.made }

end RpcNet
end StanDfs
