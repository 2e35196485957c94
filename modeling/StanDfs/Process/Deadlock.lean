import StanDfs.Lib.LockOrder
import StanDfs.Process.Sound

/-!
# Nobody waits for ever for a mutex

A thread that has a mutex that another one waits for is itself at most about to lock one of a greater rank. The
look of `decref` at `dead_` locks against the order, but at that point nobody waits for what the thread has.
-/

namespace StanDfs

namespace Process

open LockOrder (WaitsFor Blocked Ranked)
open Relation (TransGen)

variable {χ κ : Type*} {mgr : χ → Option κ} {cap : Nat} {s : Process χ κ} {t t' : Thr} {m m' : Mutex χ κ} {c : χ}

theorem Mutex.rank_le (m : Mutex χ κ) : m.rank ≤ 5 := by
  cases m <;> simp

theorem cons_of_wants (hw : s.wants t = some m) : ∃ op rest, s.ops t = op :: rest ∧ op.wants = some m := by
  unfold wants at hw
  cases hops : s.ops t with
  | nil => simp [hops] at hw
  | cons op rest => exact ⟨op, rest, rfl, by simpa [hops] using hw⟩

variable [DecidableEq χ] [DecidableEq κ]

/-- What is known at the next operation of a thread. -/
theorem Sound.head {op : Op χ κ} {rest : List (Op χ κ)} (h : Sound mgr s) (hops : s.ops t = op :: rest) :
    ∃ held, (∀ m, m ∈ held ↔ s.locked m = some t) ∧ op.Fits mgr t ⟨held, s.data.pdu t, s.data.calls t⟩ ∧
      Fact mgr s t op := by
  obtain ⟨held, _, hm, hr⟩ := h.lane t
  rw [hops] at hr
  exact ⟨held, hm, hr.1, h.fact t op (by simp [hops])⟩

/-- A thread that is about to lock `ref_m_` knows of a reference. -/
theorem Sound.ne_nil_of_wants (h : Sound mgr s) (hw : s.wants t = some (.ref c)) : s.data.owners c ≠ [] := by
  obtain ⟨op, rest, hops, hop⟩ := cons_of_wants hw
  obtain ⟨_, _, hfits, hfact⟩ := h.head hops
  cases op with
  | lock m =>
      cases hop
      exact absurd rfl (hfits.2.1 c)
  | incref c' o =>
      cases hop
      exact h.books.ne_nil hfact.1
  | decref c' o =>
      cases hop
      exact List.ne_nil_of_mem hfact.1
  | lookRef c' =>
      cases hop
      exact List.ne_nil_of_mem (h.books.listed c hfact.2.1)
  | _ => cases hop

/-- The mutex of a `caller` is for its own thread and for those that have found it in `calls_`. -/
theorem Sound.calls_of_wants (h : Sound mgr s) (hw : s.wants t = some (.caller t')) :
    t = t' ∨ s.data.calls t' ≠ none := by
  obtain ⟨op, rest, hops, hop⟩ := cons_of_wants hw
  obtain ⟨_, _, hfits, hfact⟩ := h.head hops
  cases op with
  | lock m =>
      cases hop
      exact .inl (hfits.2.2 t' rfl).symm
  | signal k t₁ =>
      cases hop
      exact .inr (by simp [hfact.1])
  | _ => cases hop

/-- While the last reference is given back nobody waits for what the thread has, but for a mutex of the lowest
rank. -/
theorem Sound.rank_of_lockLast {held b : List (Mutex χ κ)} (h : Sound mgr s) (hw : s.wants t = some m)
    (hw' : s.wants t' = some (.conn c)) (hr : s.data.refno c = 0) (hheld : held = .ref c :: b)
    (hb : Ctx.Gives mgr t' ⟨held, s.data.pdu t', s.data.calls t'⟩ c b) (hm : m ∈ held) : m.rank = 0 := by
  have hnil := h.books.nil_of_refno hr
  rw [hheld] at hm
  rcases List.mem_cons.mp hm with rfl | hm
  · exact absurd hnil (h.ne_nil_of_wants hw)
  · rcases hb m hm with hm | ⟨rfl, hcall⟩ | ⟨rfl, hp, hmgr⟩
    · exact hm
    · rcases h.calls_of_wants hw with rfl | hc
      · cases hw.symm.trans hw'
      · exact absurd hcall hc
    · exact absurd hnil (h.books.ne_nil (t := t') (.inr (.inr (.inr ⟨hp, hmgr⟩))))

/-- Along a wait the ranks grow. -/
theorem Sound.rank_lt (h : Sound mgr s) (hw : s.wants t = some m) (hm : s.locked m = some t')
    (hw' : s.wants t' = some m') : m.rank < m'.rank := by
  obtain ⟨op, rest, hops, hop⟩ := cons_of_wants hw'
  obtain ⟨held, hheld, hfits, hfact⟩ := h.head hops
  have hmem := (hheld m).mpr hm
  cases op with
  | lock m₁ =>
      cases hop
      exact hfits.1 m hmem
  | incref c o =>
      cases hop
      exact hfits m hmem
  | signal k t₁ =>
      cases hop
      exact hfits.2 m hmem
  | decref c o =>
      cases hop
      rcases hfits m hmem with hm | ⟨rfl, _⟩ | ⟨rfl, _⟩
      · simp [hm]
      · simp
      · simp
  | lockLast c =>
      cases hop
      obtain ⟨b, hh, hb⟩ := hfits
      rw [h.rank_of_lockLast hw hw' hfact.1.2.1 hh hb hmem]
      simp
  | lookRef c =>
      obtain ⟨hidle, _⟩ := hfits
      obtain ⟨rfl, _⟩ := Ctx.mk.inj hidle
      cases hmem
  | _ => cases hop

theorem Sound.ranked (h : Sound mgr s) : Ranked s.wants s.locked Mutex.rank 5 where
  le := Mutex.rank_le
  lt _ _ _ _ hw hm hw' := h.rank_lt hw hm hw'

/-- A thread that sleeps on a condition variable has no mutex, and is not the poll thread. -/
theorem Sound.of_asleep {rest : List (Op χ κ)} (h : Sound mgr s) (hops : s.ops t = .asleep m :: rest) :
    t ≠ .loop ∧ ∀ m', s.locked m' ≠ some t := by
  obtain ⟨held, hheld, ⟨hnil, _, ht, _⟩, _⟩ := h.head hops
  refine ⟨ht, fun m' hm => ?_⟩
  have hmem := (hheld m').mpr hm
  rw [show held = [] from hnil] at hmem
  cases hmem

/-- Nobody waits for himself; who waits for a mutex waits in the end for a thread that has one and can go on, or
is to write to the full pipe; who sleeps on a condition variable has no mutex, and the poll thread never
sleeps. -/
theorem no_deadlock {tr : List (Act χ κ)} (h : (lts mgr cap).Run tr s) (t : Thr) :
    ¬ TransGen (WaitsFor s.wants s.locked) t t ∧
      (Blocked s.wants s.locked t → ∃ t', TransGen (WaitsFor s.wants s.locked) t t' ∧
        (∃ m, s.locked m = some t') ∧
          (s.data.aborted = false → (s.Writes t' → s.pipe < cap) → ∀ x, guard cap s (.step t' x))) ∧
      ∀ m rest, s.ops t = .asleep m :: rest → t ≠ .loop ∧ ∀ m', s.locked m' ≠ some t := by
  have hs := sound_of_run h
  refine ⟨hs.ranked.acyclic t, fun hb => ?_, fun m rest => hs.of_asleep⟩
  obtain ⟨t', hchain, hfree⟩ := hs.ranked.exists_running hb
  obtain ⟨_, _, m, _, hm⟩ := TransGen.tail'_iff.mp hchain
  refine ⟨t', hchain, ⟨m, hm⟩, fun ha hp x => ⟨ha, ?_, ?_, hp⟩⟩
  · intro hops
    exact (hs.idle hops).1 m hm
  · intro m' hw
    by_contra hne
    obtain ⟨t₁, ht₁⟩ := Option.ne_none_iff_exists'.mp hne
    exact hfree ⟨t₁, m', hw, ht₁⟩

/-- One of two calls has `m_` of the `rpcc`, the other waits for it. -/
theorem no_deadlock_calls : ∃ (tr : List (Act Unit Unit)) (s : Process Unit Unit),
    (lts (fun _ => some ()) 65536).Run tr s ∧ Blocked s.wants s.locked (.app 1) ∧
      ∃ t', TransGen (WaitsFor s.wants s.locked) (.app 1) t' ∧ ∀ x, guard 65536 s (.step t' x) := by
  obtain ⟨s, hr, hs⟩ := Lts.run_of_exec (M := lts (fun _ : Unit => some ()) 65536) (s := init)
    (l := [.call1 0 (), .call1 1 (), .step (.app 0) .go, .step (.app 0) .go, .step (.app 1) .go])
    (f := fun s => decide (s.wants (.app 1) = some (.rpcc ()) ∧ s.locked (.rpcc ()) = some (.app 0) ∧
      s.data.aborted = false ∧ s.pipe < 65536)) rfl (by decide +kernel)
  obtain ⟨hw, hl, ha, hp⟩ := of_decide_eq_true hs
  have hb : Blocked s.wants s.locked (.app 1) := ⟨_, _, hw, hl⟩
  obtain ⟨t', hchain, _, hgo⟩ := (no_deadlock hr (.app 1)).2.1 hb
  exact ⟨_, s, hr, hb, t', hchain, hgo ha fun _ => hp⟩

/-- The count of a connection never goes below zero; at zero no pointer to it is left, nor can a thread come to
have one; it is deleted once at most, when it is dead and the count is zero. -/
theorem deleted_once {tr : List (Act χ κ)} (h : (lts mgr cap).Run tr s) (c : χ) :
    0 ≤ s.data.refno c ∧ s.data.deleted.count c ≤ 1 ∧
      (c ∈ s.data.deleted → s.data.dead c = true ∧ s.data.refno c = 0) ∧
      (s.data.refno c = 0 → (∀ t, s.data.own t ≠ some c ∧ s.wants t ≠ some (.ref c)) ∧
        (∀ k, s.data.chan k ≠ some c) ∧ (∀ n, s.data.conns n ≠ some c) ∧ c ∉ s.data.jobs ∧ c ∉ s.data.listed) := by
  have hs := sound_of_run h
  refine ⟨?_, List.nodup_iff_count.mp hs.books.once c, fun hd => ?_, fun hr => ?_⟩
  · rw [← hs.books.len]
    exact Int.natCast_nonneg _
  · obtain ⟨_, hnil, hdead⟩ := hs.books.deleted c hd
    have hlen := hs.books.len c
    rw [hnil] at hlen
    exact ⟨hdead, hlen.symm⟩
  · have hnil := hs.books.nil_of_refno hr
    refine ⟨fun t => ⟨fun ho => ?_, fun hw => hs.ne_nil_of_wants hw hnil⟩, fun k hk => ?_, fun n hn => ?_,
      fun hj => ?_, fun hl => ?_⟩
    · exact List.ne_nil_of_mem (hs.books.own t c ho) hnil
    · exact List.ne_nil_of_mem (hs.books.chan k c hk) hnil
    · exact List.ne_nil_of_mem (hs.books.conns n c hn) hnil
    · have hcount := hs.books.jobs c
      rw [hnil] at hcount
      exact List.count_eq_zero.mp hcount hj
    · exact List.ne_nil_of_mem (hs.books.listed c hl) hnil

/-- A call connects and fails, then `~rpcc` gives the last reference back. -/
theorem deleted_once_destroy : ∃ (tr : List (Act Unit Unit)) (s : Process Unit Unit),
    (lts (fun _ => some ()) 65536).Run tr s ∧ () ∈ s.data.deleted ∧ s.data.deleted.count () ≤ 1 ∧
      s.data.refno () = 0 := by
  let go (n : Nat) : List (Act Unit Unit) := List.replicate n (.step (.app 0) .fail)
  obtain ⟨s, hr, hs⟩ := Lts.run_of_exec (M := lts (fun _ : Unit => some ()) 65536) (s := init)
    (l := .call1 0 () :: go 2 ++ .step (.app 0) .go :: go 5 ++ .step (.app 0) (.conn ()) :: go 25 ++
      .destroy 0 () :: go 20)
    (f := fun s => decide (() ∈ s.data.deleted)) rfl (by decide +kernel)
  have hdel := of_decide_eq_true hs
  obtain ⟨_, hcount, hzero, _⟩ := deleted_once hr ()
  exact ⟨_, s, hr, hdel, hcount, (hzero hdel).2⟩

end Process
end StanDfs
