import StanDfs.Rpc.Refs

/-!
# Who has a reference to a connection

A connection's references are with its entry in `conns_`, with those of `rpcs::conns_`, with the queue, the
workers, and `got_pdu`.
-/

namespace StanDfs

open Holders (one count)

variable {χ : Type*}

/-- The reference that `got_pdu` will give back. -/
def Offer.held (o : Offer χ) : Option χ := if o.succ = some true then none else some o.job.conn

/-- The job that `got_pdu` has made and not put in the queue. -/
def Offer.pending (o : Offer χ) : Option Nat := if o.succ = none ∨ o.succ = some false then some o.job.id else none

namespace Refs

open Rpcs (Env OldInstance)

variable {s : Refs χ}

/-- The lists of connections fit together. A known connection whose descriptor is open is in `conns_` or
about to be. -/
structure Lists (s : Refs χ) : Prop where
  nodup : s.listed.Nodup
  distinct : s.known.Nodup
  known : ∀ c ∈ s.listed, c ∈ s.known
  rest : ∀ sw ∈ s.sweep, sw.rest.Nodup ∧ ∀ c ∈ sw.rest, c ∈ s.listed
  ch : ∀ sw ∈ s.sweep, sw.ch ∉ s.listed ∧ sw.ch ∈ s.known
  opened : ∀ c ∈ s.known, c ∉ s.deleted → c ∈ s.listed ∨ ∃ sw ∈ s.sweep, sw.ch = c
  offer : ∀ o ∈ s.offer, o.job.conn ∈ s.known

/-- The lists do not change, and only a dispatch may delete. -/
theorem Lists.frame {s' : Refs χ} (h : Lists s) (hl : s'.listed = s.listed) (hk : s'.known = s.known)
    (hs : s'.sweep = s.sweep) (ho : ∀ o ∈ s'.offer, o.job.conn ∈ s.known)
    (hd : ∀ c ∈ s.deleted, c ∈ s'.deleted) : Lists s' where
  nodup := hl ▸ h.nodup
  distinct := hk ▸ h.distinct
  known := by rw [hl, hk]; exact h.known
  rest := by rw [hl, hs]; exact h.rest
  ch := by rw [hl, hk, hs]; exact h.ch
  opened := by
    rw [hl, hk, hs]
    exact fun c hc hd' => h.opened c hc fun hm => hd' (hd c hm)
  offer := by rw [hk]; exact ho

variable [DecidableEq χ] {e : Env χ} {H : Finset Worker}

def queued (s : Refs χ) (c : χ) : Nat := (s.jobs.map DJob.conn).count c

def working (s : Refs χ) (H : Finset Worker) (c : χ) : Nat := count H (fun w => (s.srv.workers w).held) c

def offered (s : Refs χ) (c : χ) : Nat := one (s.offer.bind Offer.held) c

/-- The entry of the connection in `conns_`, which a new one is about to get. -/
def entries (s : Refs χ) (c : χ) : Nat := s.listed.count c + one (s.sweep.map Sweep.ch) c

/-- The references to a connection, by those who have them. -/
def claims (s : Refs χ) (H : Finset Worker) (c : χ) : Nat :=
  s.entries c + s.srv.pointers c + s.queued c + s.working H c + s.offered c

/-- The connection whose reference `dispatch` forgets: that of a request for another instance. -/
def forgets (e : Env χ) : Act χ → Option χ
  | .begin _ j =>
    match decodeReq j.buf with
    | some q => if OldInstance e q then some j.conn else none
    | none => none
  | _ => none

/-- The job that `got_pdu` takes back from the pool that has it. -/
def takesBack : Act χ → Option (DJob χ)
  | .look j true false => some j
  | _ => none

@[simp] theorem incref_refno (c c' : χ) : (s.incref c).refno c' = s.refno c' + one (some c) c' := by
  by_cases h : c' = c
  · subst h
    simp [incref]
  · simp [incref, Function.update_of_ne h, Holders.one_some, Ne.symm h]

@[simp] theorem decref_refno (c c' : χ) : (s.decref c).refno c' = s.refno c' - one (some c) c' := by
  by_cases h : c' = c
  · subst h
    simp [decref]
  · simp [decref, Function.update_of_ne h, Holders.one_some, Ne.symm h]

theorem pointers_insert (m : Map χ) (n : UInt32) (c c' : χ) :
    count (m.insert n c).keys.toFinset (m.insert n c).lookup c' + one (m.lookup n) c' =
      count m.keys.toFinset m.lookup c' + one (some c) c' := by
  have hk : (m.insert n c).keys.toFinset = insert n m.keys.toFinset := by
    ext k
    simp only [List.mem_toFinset, Finset.mem_insert, ← AList.mem_keys, AList.mem_insert]
  have hl : (m.insert n c).lookup = Function.update m.lookup n (some c) := by
    funext k
    by_cases h : k = n
    · subst h
      simp
    · rw [AList.lookup_insert_ne h, Function.update_of_ne h]
  have hc : count (insert n m.keys.toFinset) m.lookup c' = count m.keys.toFinset m.lookup c' := by
    by_cases hn : n ∈ m
    · rw [Finset.insert_eq_of_mem (List.mem_toFinset.mpr (AList.mem_keys.mp hn))]
    · exact Holders.count_insert c' (AList.lookup_eq_none.mpr hn)
  rw [hk, hl, ← hc]
  exact Holders.count_update m.lookup (some c) c' (Finset.mem_insert_self _ _)

theorem held_pos {w : Worker} {c : χ} (hw : w ∈ H) (h : (s.srv.workers w).held = some c) :
    0 < s.claims H c := by
  have hle := Holders.one_le_count (f := fun w => (s.srv.workers w).held) c hw
  simp only [h, Holders.one_self] at hle
  simp only [claims, working]
  omega

theorem pointed_pos {n : UInt32} {c : χ} (h : s.srv.conns.lookup n = some c) : 0 < s.claims H c := by
  have hn : n ∈ s.srv.conns.keys.toFinset :=
    List.mem_toFinset.mpr (AList.mem_keys.mp (AList.lookup_isSome.mp (by rw [h]; rfl)))
  have hle := Holders.one_le_count (f := s.srv.conns.lookup) c hn
  simp only [h, Holders.one_self] at hle
  simp only [claims, Rpcs.pointers]
  omega

theorem working_update {s' : Refs χ} {w : Worker} {p : Pc χ} (hw : w ∈ H)
    (hp : s'.srv.workers = Function.update s.srv.workers w p) (c : χ) :
    s'.working H c + one (s.srv.workers w).held c = s.working H c + one p.held c := by
  have hf : (fun w' => (s'.srv.workers w').held) =
      Function.update (fun w' => (s.srv.workers w').held) w p.held := by
    funext w'
    by_cases hww : w' = w
    · subst hww
      simp [hp]
    · simp [hp, Function.update_of_ne hww]
  rw [working, hf]
  exact Holders.count_update _ _ _ hw

theorem queued_erase {s' : Refs χ} {j : DJob χ} (hj : j ∈ s.jobs) (hs : s'.jobs = s.jobs.erase j) (c : χ) :
    s'.queued c + one (some j.conn) c = s.queued c := by
  have hp := ((List.perm_cons_erase hj).map DJob.conn).count_eq c
  rw [List.map_cons, Holders.count_cons] at hp
  rw [queued, hs, queued, hp]

/-- Outside the server nothing that has references changes. -/
def Around (s s' : Refs χ) : Prop :=
  s'.listed = s.listed ∧ s'.sweep = s.sweep ∧ s'.jobs = s.jobs ∧ s'.offer = s.offer

theorem claims_worker {t : Refs χ} {w : Worker} {p : Pc χ} (ha : Around s t) (hw : w ∈ H)
    (hp : t.srv.workers = Function.update s.srv.workers w p) (c : χ) :
    t.claims H c + one (s.srv.workers w).held c + s.srv.pointers c =
      s.claims H c + one p.held c + t.srv.pointers c := by
  obtain ⟨hl, hs, hj, ho⟩ := ha
  have hwork := working_update hw hp c
  have he : t.entries c = s.entries c := by rw [entries, hl, hs, entries]
  have hq : t.queued c = s.queued c := by rw [queued, hj, queued]
  have ho : t.offered c = s.offered c := by rw [offered, ho, offered]
  simp only [claims, he, hq, ho]
  omega

/-- The step takes `inc` references to a connection and gives `dec` back. -/
structure Moved (e : Env χ) (H : Finset Worker) (s : Refs χ) (a : Act χ) (s' : Refs χ) (c : χ)
    (inc dec : Nat) : Prop where
  refno : s'.refno c = s.refno c + inc - dec
  claims : s'.claims H c + one (forgets e a) c + dec =
    s.claims H c + inc + one ((takesBack a).map DJob.conn) c
  inc : 0 < inc → 0 < s.claims H c ∨ c ∈ s.known ∧ c ∉ s.srv.dead
  deleted : c ∈ s'.deleted → c ∈ s.deleted ∨ s'.refno c = 0 ∧ c ∈ s.srv.dead

theorem mem_deleted_decref {c c' : χ} (h : c' ∈ (s.decref c).deleted) :
    c' ∈ s.deleted ∨ c' = c ∧ (s.decref c).refno c' = 0 ∧ c' ∈ s.srv.dead := by
  simp only [decref] at h
  split at h
  · rename_i hd
    rcases List.mem_cons.mp h with rfl | h
    · exact .inr ⟨rfl, by simp [decref, hd.1], hd.2⟩
    · exact .inl h
  · exact .inl h

theorem Moved.keep {a : Act χ} {s' : Refs χ} {c : χ} (hr : s'.refno = s.refno)
    (hd : s'.deleted = s.deleted)
    (hc : s'.claims H c + one (forgets e a) c = s.claims H c + one ((takesBack a).map DJob.conn) c) :
    Moved e H s a s' c 0 0 where
  refno := by rw [hr]; omega
  claims := by omega
  inc h := absurd h (Nat.lt_irrefl _)
  deleted h := .inl (hd ▸ h)

theorem Moved.drop {a : Act χ} {s' : Refs χ} {c c₀ : χ} (hr : s'.refno = (s.decref c₀).refno)
    (hd : s'.deleted = (s.decref c₀).deleted)
    (hc : s'.claims H c + one (forgets e a) c + one (some c₀) c =
      s.claims H c + one ((takesBack a).map DJob.conn) c) :
    Moved e H s a s' c 0 (one (some c₀) c) where
  refno := by
    rw [hr, decref_refno]
    omega
  claims := by omega
  inc h := absurd h (Nat.lt_irrefl _)
  deleted h := (mem_deleted_decref (hd ▸ h)).imp_right fun h => ⟨hr ▸ h.2.1, h.2.2⟩

theorem Moved.take {a : Act χ} {s' : Refs χ} {c c₁ : χ} (hr : s'.refno = (s.incref c₁).refno)
    (hd : s'.deleted = s.deleted)
    (hc : s'.claims H c + one (forgets e a) c =
      s.claims H c + one (some c₁) c + one ((takesBack a).map DJob.conn) c)
    (hpos : 0 < s.claims H c₁ ∨ c₁ ∈ s.known ∧ c₁ ∉ s.srv.dead) :
    Moved e H s a s' c (one (some c₁) c) 0 where
  refno := by
    rw [hr, incref_refno]
    omega
  claims := by omega
  inc h := by
    have hcc : c₁ = c := by
      by_contra hcc
      simp [Holders.one_some, hcc] at h
    exact hcc ▸ hpos
  deleted h := .inl (hd ▸ h)

theorem Moved.swap {a : Act χ} {s' : Refs χ} {c c₀ c₁ : χ} (hne : c₀ ≠ c₁)
    (hr : s'.refno = ((s.decref c₀).incref c₁).refno) (hd : s'.deleted = (s.decref c₀).deleted)
    (hc : s'.claims H c + one (forgets e a) c + one (some c₀) c =
      s.claims H c + one (some c₁) c + one ((takesBack a).map DJob.conn) c)
    (hpos : 0 < s.claims H c₁) : Moved e H s a s' c (one (some c₁) c) (one (some c₀) c) where
  refno := by
    rw [hr, incref_refno, decref_refno]
    omega
  claims := by omega
  inc h := by
    have hcc : c₁ = c := by
      by_contra hcc
      simp [Holders.one_some, hcc] at h
    exact .inl (hcc ▸ hpos)
  deleted h := by
    rcases mem_deleted_decref (hd ▸ h) with hm | ⟨heq, h0, hdead⟩
    · exact .inl hm
    · refine .inr ⟨?_, hdead⟩
      rw [hr, incref_refno, h0, heq, Holders.one_some, if_neg (Ne.symm hne)]
      rfl

/-! ## Steps of the server -/

theorem moved_on {a : Rpcs.Act χ} {s' : Refs χ} {w : Worker} {p : Pc χ} {c : χ} (ha : Around s s')
    (hr : s'.refno = s.refno) (hd : s'.deleted = s.deleted) (hconns : s'.srv.conns = s.srv.conns)
    (hw : w ∈ H) (hp : s'.srv.workers = Function.update s.srv.workers w p)
    (hh : p.held = (s.srv.workers w).held) : Moved e H s (.other a) s' c 0 0 := by
  refine .keep hr hd ?_
  have hc := claims_worker ha hw hp c
  simp only [Rpcs.pointers, hconns, hh] at hc
  simp only [forgets, takesBack, Holders.one_none, Option.map_none]
  omega

theorem moved_off {a : Rpcs.Act χ} {s' : Refs χ} {w : Worker} {p : Pc χ} {c c₀ : χ} (ha : Around s s')
    (hr : s'.refno = (s.decref c₀).refno) (hd : s'.deleted = (s.decref c₀).deleted)
    (hconns : s'.srv.conns = s.srv.conns) (hw : w ∈ H)
    (hp : s'.srv.workers = Function.update s.srv.workers w p)
    (hheld : (s.srv.workers w).held = some c₀) (hh : p.held = none) :
    Moved e H s (.other a) s' c 0 (one (some c₀) c) := by
  refine .drop hr hd ?_
  have hc := claims_worker ha hw hp c
  simp only [Rpcs.pointers, hconns, hheld, hh, Holders.one_none] at hc
  simp only [forgets, takesBack, Holders.one_none, Option.map_none]
  omega

theorem moved_save {w : Worker} {j : Job χ} (hs : s.srv.workers w = .save j) (hw : w ∈ H) (c : χ) :
    ∃ inc dec, Moved e H s (.other (.save w j)) (s.next e (.other (.save w j))) c inc dec := by
  have hheld : (s.srv.workers w).held = some j.conn := by rw [hs, Pc.held]
  have hlook := pointers_insert s.srv.conns j.nonce j.conn c
  have hclaims : ∀ s' : Refs χ, Around s s' →
      s'.srv.workers = Function.update s.srv.workers w (.check j) →
      s'.claims H c + s.srv.pointers c = s.claims H c + s'.srv.pointers c := by
    intro s' ha hp
    have hc := claims_worker ha hw hp c
    rw [hheld, show (Pc.check j).held = some j.conn from rfl] at hc
    omega
  cases hl : s.srv.conns.lookup j.nonce with
  | none =>
      have hr : s.refs e (.save w j) = s.incref j.conn := by simp only [refs, hl]
      have hv : s.srv.saveConn e j = s.srv.conns.insert j.nonce j.conn := by simp only [Rpcs.saveConn, hl]
      have hc := hclaims (s.next e (.other (.save w j))) (by rw [next, hr]; exact ⟨rfl, rfl, rfl, rfl⟩) rfl
      refine ⟨_, _, .take (by rw [next, hr]) (by rw [next, hr]; rfl) ?_ (.inl (held_pos hw hheld))⟩
      simp only [next, Rpcs.next, Rpcs.pointers, hv] at hc ⊢
      rw [hl, Holders.one_none] at hlook
      simp only [forgets, takesBack, Holders.one_none, Option.map_none]
      omega
  | some c₀ =>
      by_cases hcmp : compare (e.created c₀) (e.created j.conn) < 0
      · have hr : s.refs e (.save w j) = (s.decref c₀).incref j.conn := by simp only [refs, hl, hcmp, if_true]
        have hv : s.srv.saveConn e j = s.srv.conns.insert j.nonce j.conn := by
          simp only [Rpcs.saveConn, hl, hcmp, if_true]
        have hc := hclaims (s.next e (.other (.save w j))) (by rw [next, hr]; exact ⟨rfl, rfl, rfl, rfl⟩) rfl
        have hne : c₀ ≠ j.conn := by
          rintro rfl
          simp [compare] at hcmp
        refine ⟨_, _, .swap hne (by rw [next, hr]) (by rw [next, hr]; rfl) ?_ (held_pos hw hheld)⟩
        simp only [next, Rpcs.next, Rpcs.pointers, hv] at hc ⊢
        rw [hl] at hlook
        simp only [forgets, takesBack, Holders.one_none, Option.map_none]
        omega
      · have hr : s.refs e (.save w j) = s := by simp only [refs, hl, hcmp, if_false]
        have hv : s.srv.saveConn e j = s.srv.conns := by simp only [Rpcs.saveConn, hl, hcmp, if_false]
        refine ⟨0, 0, ?_⟩
        refine moved_on (p := .check j) ?_ ?_ ?_ hv hw rfl (by rw [hheld, Pc.held])
        · rw [next, hr]
          exact ⟨rfl, rfl, rfl, rfl⟩
        · rw [next, hr]
        · rw [next, hr]

theorem moved_check {w : Worker} {j : Job χ} (hs : s.srv.workers w = .check j) (hw : w ∈ H) (c : χ) :
    ∃ inc dec, Moved e H s (.other (.check w j)) (s.next e (.other (.check w j))) c inc dec := by
  have hheld : (s.srv.workers w).held = some j.conn := by rw [hs, Pc.held]
  have hn : s.next e (.other (.check w j)) =
      { s.refs e (.check w j) with srv := s.srv.check w j } := rfl
  cases hck : s.srv.table.checkduplicateAndUpdate j.nonce j.xid j.xidRep with
  | none =>
      have hr : s.refs e (.check w j) = s := by simp only [refs, hck]
      have hv : s.srv.check w j = { s.srv with aborted := true } := by simp only [Rpcs.check, hck]
      rw [hn, hr, hv]
      exact ⟨0, 0, .keep rfl rfl rfl⟩
  | some r =>
      obtain ⟨st, t, freed⟩ := r
      have hv : s.srv.check w j = Rpcs.answer { s.srv with table := t, freed := s.srv.freed ++ freed } w j st := by
        simp only [Rpcs.check, hck]
      cases st with
      | new =>
          have hr : s.refs e (.check w j) = s := by simp only [refs, hck]
          rw [hn, hr, hv]
          exact ⟨0, 0, moved_on (p := .running j) ⟨rfl, rfl, rfl, rfl⟩ rfl rfl rfl hw rfl hheld.symm⟩
      | inprogress =>
          have hr : s.refs e (.check w j) = s.decref j.conn := by simp only [refs, hck]
          rw [hn, hr, hv]
          exact ⟨0, _, moved_off (p := .idle) ⟨rfl, rfl, rfl, rfl⟩ rfl rfl rfl hw rfl hheld rfl⟩
      | done b sz =>
          have hr : s.refs e (.check w j) = s := by simp only [refs, hck]
          rw [hn, hr, hv]
          cases b with
          | none => exact ⟨0, 0, .keep rfl rfl rfl⟩
          | some b =>
              exact ⟨0, 0, moved_on (p := .send j j.conn b sz) ⟨rfl, rfl, rfl, rfl⟩ rfl rfl rfl hw rfl hheld.symm⟩
      | forgotten =>
          have hr : s.refs e (.check w j) = s := by simp only [refs, hck]
          rw [hn, hr, hv]
          exact ⟨0, 0, moved_on (p := .reply j (j.reply RpcConst.atmostonceFailure [])) ⟨rfl, rfl, rfl, rfl⟩
            rfl rfl rfl hw rfl hheld.symm⟩

theorem moved_choose {w : Worker} {j : Job χ} {b : Addr} (hs : s.srv.workers w = .choose j b)
    (hn : (s.next e (.other (.choose w j b))).srv.aborted = false) (hw : w ∈ H) (c : χ) :
    ∃ inc dec, Moved e H s (.other (.choose w j b)) (s.next e (.other (.choose w j b))) c inc dec := by
  have hheld : (s.srv.workers w).held = some j.conn := by rw [hs, Pc.held]
  have hnx : s.next e (.other (.choose w j b)) =
      { s.refs e (.choose w j b) with srv := s.srv.choose w j b } := rfl
  have hv : ∀ c₁, s.srv.target j = some c₁ →
      s.srv.choose w j b = s.srv.setWorker w (.send j c₁ b (s.srv.contents b).length) := by
    intro c₁ h
    simp only [Rpcs.choose, h]
  by_cases hsw : j.conn ∈ s.srv.dead ∧ s.srv.conns.lookup j.nonce ≠ some j.conn
  · have ht : s.srv.target j = s.srv.conns.lookup j.nonce := by rw [Rpcs.target, if_pos hsw.1]
    cases hl : s.srv.conns.lookup j.nonce with
    | none =>
        rw [hnx] at hn
        simp only [Rpcs.choose, ht, hl] at hn
        cases hn
    | some c₁ =>
        have hne : j.conn ≠ c₁ := fun h => hsw.2 (h ▸ hl)
        have hr : s.refs e (.choose w j b) = (s.decref j.conn).incref c₁ := by
          simp only [refs, if_pos hsw]
          rw [hl]
        have hc := claims_worker (s := s) (t := { (s.decref j.conn).incref c₁ with
          srv := s.srv.setWorker w (.send j c₁ b (s.srv.contents b).length) }) ⟨rfl, rfl, rfl, rfl⟩ hw rfl c
        rw [hheld] at hc
        rw [hnx, hr, hv c₁ (ht.trans hl)]
        refine ⟨_, _, .swap hne rfl rfl ?_ (pointed_pos hl)⟩
        simp only [Pc.held, Rpcs.pointers, Rpcs.setWorker] at hc
        simp only [forgets, takesBack, Holders.one_none, Option.map_none, Rpcs.setWorker]
        omega
  · have hr : s.refs e (.choose w j b) = s := by simp only [refs, if_neg hsw]
    have ht : s.srv.target j = some j.conn := by
      unfold Rpcs.target
      split
      · rename_i hd
        by_contra h
        exact hsw ⟨hd, h⟩
      · rfl
    rw [hnx, hr, hv _ ht]
    exact ⟨0, 0, moved_on (p := .send j j.conn b (s.srv.contents b).length) ⟨rfl, rfl, rfl, rfl⟩
      rfl rfl rfl hw rfl hheld.symm⟩

theorem moved_end {w : Worker} {j : DJob χ} {s' : Refs χ} {c : χ} (hj : j ∈ s.jobs)
    (hf : forgets e (.begin w j) = none) (hl : s'.listed = s.listed) (hsw : s'.sweep = s.sweep)
    (ho : s'.offer = s.offer) (hjobs : s'.jobs = s.jobs.erase j) (hconns : s'.srv.conns = s.srv.conns)
    (hp : s'.srv.workers = s.srv.workers) (hr : s'.refno = (s.decref j.conn).refno)
    (hd : s'.deleted = (s.decref j.conn).deleted) :
    Moved e H s (.begin w j) s' c 0 (one (some j.conn) c) := by
  refine .drop hr hd ?_
  have hq := queued_erase hj hjobs c
  have ho : s'.offered c = s.offered c := by rw [offered, ho, offered]
  simp only [claims, entries, working, Rpcs.pointers, hl, hsw, ho, hconns, hp, hf, takesBack,
    Option.map_none, Holders.one_none]
  omega

/-- The worker takes a job from the queue and goes on with it. -/
theorem moved_begins {w : Worker} {p : Pc χ} {j : DJob χ} {s' : Refs χ} {c : χ} (hj : j ∈ s.jobs)
    (hl : s'.listed = s.listed) (hsw : s'.sweep = s.sweep) (ho : s'.offer = s.offer)
    (hjobs : s'.jobs = s.jobs.erase j) (hconns : s'.srv.conns = s.srv.conns) (hw : w ∈ H)
    (hp : s'.srv.workers = Function.update s.srv.workers w p) (hidle : s.srv.workers w = .idle)
    (hr : s'.refno = s.refno) (hd : s'.deleted = s.deleted)
    (hf : one p.held c + one (forgets e (.begin w j)) c = one (some j.conn) c) :
    Moved e H s (.begin w j) s' c 0 0 := by
  refine .keep hr hd ?_
  have hq := queued_erase hj hjobs c
  have hwork := working_update hw hp c
  have ho : s'.offered c = s.offered c := by rw [offered, ho, offered]
  rw [hidle, Pc.held, Holders.one_none] at hwork
  simp only [claims, entries, Rpcs.pointers, hl, hsw, ho, hconns, takesBack, Option.map_none,
    Holders.one_none]
  omega

theorem moved_begin {w : Worker} {j : DJob χ} (hg : guard e s (.begin w j)) (hw : w ∈ H) (c : χ) :
    ∃ inc dec, Moved e H s (.begin w j) (s.next e (.begin w j)) c inc dec := by
  obtain ⟨_, hj, _, hidle, _⟩ := hg
  simp only [next, begin, Rpcs.next, Rpcs.begin]
  cases hq : decodeReq j.buf with
  | none => exact ⟨0, _, moved_end hj (by simp only [forgets, hq]) rfl rfl rfl rfl rfl rfl rfl rfl⟩
  | some q =>
      by_cases hold : OldInstance e q
      · simp only [if_pos hold, if_pos (show q.hdr.srvNonce ≠ 0 ∧ q.hdr.srvNonce ≠ e.nonce from hold)]
        refine ⟨0, 0, moved_begins hj rfl rfl rfl rfl rfl hw rfl hidle rfl rfl ?_⟩
        simp [forgets, hq, hold, Pc.held, Job.reply]
      · have hf : forgets e (.begin w j) = none := by simp only [forgets, hq, if_neg hold]
        simp only [if_neg hold, if_neg (show ¬ (q.hdr.srvNonce ≠ 0 ∧ q.hdr.srvNonce ≠ e.nonce) from hold)]
        split
        · exact ⟨0, _, moved_end hj hf rfl rfl rfl rfl rfl rfl rfl rfl⟩
        · split
          · exact ⟨0, 0, moved_begins (p := .seen ⟨j.conn, q⟩) hj rfl rfl rfl rfl rfl hw rfl hidle rfl rfl
              (by rw [hf]; rfl)⟩
          · exact ⟨0, 0, moved_begins (p := .running ⟨j.conn, q⟩) hj rfl rfl rfl rfl rfl hw rfl hidle rfl rfl
              (by rw [hf]; rfl)⟩

/-- The worker that a step of `dispatch` belongs to. -/
theorem moved_other {a : Rpcs.Act χ} (hg : guard e s (.other a))
    (hn : (s.next e (.other a)).srv.aborted = false) :
    ∃ w, ∀ H, w ∈ H → ∀ c, ∃ inc dec, Moved e H s (.other a) (s.next e (.other a)) c inc dec := by
  cases a with
  | gotPdu c b accept => exact hg.2.2.elim
  | begin w c b => exact hg.2.2.elim
  | seen w j =>
      refine ⟨w, fun H hw c => ⟨0, 0, ?_⟩⟩
      exact moved_on (p := .save j) ⟨rfl, rfl, rfl, rfl⟩ rfl rfl rfl hw rfl (by rw [hg.2.1.2, Pc.held, Pc.held])
  | save w j => exact ⟨w, fun H hw c => moved_save hg.2.1.2 hw c⟩
  | check w j => exact ⟨w, fun H hw c => moved_check hg.2.1.2 hw c⟩
  | handled w j ret body =>
      refine ⟨w, fun H hw c => ⟨0, 0, ?_⟩⟩
      simp only [next, refs, Rpcs.next, Rpcs.handled]
      split
      · exact moved_on (p := .record j s.srv.heap.length) ⟨rfl, rfl, rfl, rfl⟩ rfl rfl rfl hw rfl
          (by rw [hg.2.1.2.1, Pc.held, Pc.held])
      · exact moved_on (p := .choose j s.srv.heap.length) ⟨rfl, rfl, rfl, rfl⟩ rfl rfl rfl hw rfl
          (by rw [hg.2.1.2.1, Pc.held, Pc.held])
  | record w j b =>
      refine ⟨w, fun H hw c => ⟨0, 0, ?_⟩⟩
      simp only [next, refs, Rpcs.next, Rpcs.record]
      split
      · exact .keep rfl rfl rfl
      · exact moved_on (p := .choose j b) ⟨rfl, rfl, rfl, rfl⟩ rfl rfl rfl hw rfl
          (by rw [hg.2.1.2, Pc.held, Pc.held])
  | choose w j b => exact ⟨w, fun H hw c => moved_choose hg.2.1.2 hn hw c⟩
  | tx w j c₁ b sz ok =>
      refine ⟨w, fun H hw c => ⟨0, 0, ?_⟩⟩
      exact moved_on (p := .sending j c₁ b sz) ⟨rfl, rfl, rfl, rfl⟩ rfl rfl rfl hw rfl
        (by rw [hg.2.1.2.1, Pc.held, Pc.held])
  | sent w j c₁ b sz =>
      refine ⟨w, fun H hw c => ⟨0, one (some c₁) c, ?_⟩⟩
      exact moved_off (p := .idle) ⟨rfl, rfl, rfl, rfl⟩ rfl rfl rfl hw rfl (by rw [hg.2.1.2, Pc.held]) rfl
  | txReply w j r ok =>
      refine ⟨w, fun H hw c => ?_⟩
      have hheld : (s.srv.workers w).held = if r.hdr.ret = RpcConst.oldsrvFailure then none else some j.conn := by
        rw [hg.2.1.2.1, Pc.held]
      by_cases hold : r.hdr.ret = RpcConst.oldsrvFailure
      · rw [if_pos hold] at hheld
        simp only [next, refs, if_pos hold]
        exact ⟨0, 0, moved_on (p := .idle) ⟨rfl, rfl, rfl, rfl⟩ rfl rfl rfl hw rfl hheld.symm⟩
      · rw [if_neg hold] at hheld
        simp only [next, refs, if_neg hold]
        exact ⟨0, _, moved_off (p := .idle) ⟨rfl, rfl, rfl, rfl⟩ rfl rfl rfl hw rfl hheld rfl⟩
  | die c₁ => exact ⟨0, fun H _ c => ⟨0, 0, .keep rfl rfl rfl⟩⟩

/-! ## Steps of `got_pdu` and `process_accept` -/

theorem deleted_decref (c c' : χ) (h : c' ∈ s.deleted) : c' ∈ (s.decref c).deleted := by
  simp only [decref]
  split
  · exact List.mem_cons_of_mem _ h
  · exact h

/-- What `dispatch` does to references touches nothing else. -/
theorem refs_frame (e : Env χ) (s : Refs χ) (a : Rpcs.Act χ) :
    ∃ r d, s.refs e a = { s with refno := r, deleted := d } ∧ ∀ c ∈ s.deleted, c ∈ d := by
  have hself : ∃ r d, s = { s with refno := r, deleted := d } ∧ ∀ c ∈ s.deleted, c ∈ d :=
    ⟨s.refno, s.deleted, rfl, fun _ h => h⟩
  cases a with
  | save w j =>
      simp only [refs]
      split
      · exact ⟨_, _, rfl, fun _ h => h⟩
      · split
        · exact ⟨_, _, rfl, deleted_decref _⟩
        · exact hself
  | check w j =>
      simp only [refs]
      split
      · exact ⟨_, _, rfl, deleted_decref _⟩
      · exact hself
  | choose w j b =>
      simp only [refs]
      split
      · split
        · exact ⟨_, _, rfl, deleted_decref _⟩
        · exact ⟨_, _, rfl, deleted_decref _⟩
      · exact hself
  | sent w j c b sz => exact ⟨_, _, rfl, deleted_decref _⟩
  | txReply w j r ok =>
      simp only [refs]
      split
      · exact hself
      · exact ⟨_, _, rfl, deleted_decref _⟩
  | _ => exact hself

theorem begin_frame (e : Env χ) (s : Refs χ) (w : Worker) (j : DJob χ) :
    ∃ r d, s.begin e w j =
      { s with
        srv := s.srv.next e (.begin w j.conn j.buf)
        jobs := s.jobs.erase j
        deletes := s.deletes ++ [j.id]
        refno := r
        deleted := d } ∧ ∀ c ∈ s.deleted, c ∈ d := by
  have hdec : ∀ c ∈ s.deleted, c ∈ (decref
      { s with
        srv := s.srv.next e (.begin w j.conn j.buf)
        jobs := s.jobs.erase j
        deletes := s.deletes ++ [j.id] } j.conn).deleted :=
    fun c hc => deleted_decref j.conn c hc
  simp only [begin]
  split
  · exact ⟨_, _, rfl, hdec⟩
  · split
    · exact ⟨_, _, rfl, fun _ h => h⟩
    · split
      · exact ⟨_, _, rfl, hdec⟩
      · exact ⟨_, _, rfl, fun _ h => h⟩

theorem Lists.accept {c : χ} {fd : Nat} {others : Finset Nat} (h : Lists s)
    (hg : guard e s (.accept c fd others)) : Lists (s.next e (.accept c fd others)) := by
  obtain ⟨-, hsw, hc, -⟩ := hg
  simp only [next]
  split
  · refine ⟨h.nodup, List.nodup_cons.mpr ⟨hc, h.distinct⟩,
      fun c' hc' => List.mem_cons_of_mem _ (h.known c' hc'), ?_, ?_, ?_, ?_⟩
    · rintro _ ⟨⟩
      exact ⟨h.nodup, fun _ h => h⟩
    · rintro _ ⟨⟩
      exact ⟨fun hm => hc (h.known c hm), List.mem_cons_self⟩
    · intro c' hc' hd
      rcases List.mem_cons.mp hc' with rfl | hc'
      · exact .inr ⟨_, rfl, rfl⟩
      · refine (h.opened c' hc' hd).imp_right ?_
        rintro ⟨sw, hsw', -⟩
        rw [hsw] at hsw'
        cases hsw'
    · exact fun o ho => List.mem_cons_of_mem _ (h.offer o ho)
  · exact h.frame rfl rfl rfl h.offer fun _ h => h

theorem Lists.collect {ch c : χ} {rest : List χ} (h : Lists s) (hg : guard e s (.collect ch c rest)) :
    Lists (s.next e (.collect ch c rest)) := by
  obtain ⟨-, hsw, -⟩ := hg
  obtain ⟨hnd, hin⟩ := h.rest _ hsw
  obtain ⟨hch, hchk⟩ := h.ch _ hsw
  obtain ⟨hcr, hnd⟩ := List.nodup_cons.mp hnd
  simp only [next]
  split
  · rename_i hgone
    refine ⟨h.nodup.erase c, h.distinct, fun c' hc' => h.known c' (List.mem_of_mem_erase hc'), ?_, ?_, ?_,
      h.offer⟩
    · rintro _ ⟨⟩
      refine ⟨hnd, fun c' hc' => ?_⟩
      have hne : c' ≠ c := fun heq => hcr (heq ▸ hc')
      exact (List.mem_erase_of_ne hne).mpr (hin c' (List.mem_cons_of_mem _ hc'))
    · rintro _ ⟨⟩
      exact ⟨fun hm => hch (List.mem_of_mem_erase hm), hchk⟩
    · intro c' hc' hd
      -- The connection that leaves the list is deleted with its last reference.
      have hne : c' ≠ c := by
        rintro rfl
        apply hd
        simp [decref, hgone.1, hgone.2]
      rcases h.opened c' hc' (fun hm => hd (deleted_decref _ _ hm)) with hl | ⟨sw, hsw', heq⟩
      · exact .inl ((List.mem_erase_of_ne hne).mpr hl)
      · rw [hsw] at hsw'
        cases hsw'
        exact .inr ⟨_, rfl, heq⟩
  · refine ⟨h.nodup, h.distinct, h.known, ?_, ?_, ?_, h.offer⟩
    · rintro _ ⟨⟩
      exact ⟨hnd, fun c' hc' => hin c' (List.mem_cons_of_mem _ hc')⟩
    · rintro _ ⟨⟩
      exact ⟨hch, hchk⟩
    · intro c' hc' hd
      refine (h.opened c' hc' hd).imp_right ?_
      rintro ⟨sw, hsw', heq⟩
      rw [hsw] at hsw'
      cases hsw'
      exact ⟨_, rfl, heq⟩

theorem Lists.enlist {ch : χ} (h : Lists s) (hg : guard e s (.enlist ch)) :
    Lists (s.next e (.enlist ch)) := by
  obtain ⟨hch, hchk⟩ := h.ch _ hg.2
  refine ⟨List.nodup_cons.mpr ⟨hch, h.nodup⟩, h.distinct, fun c hc => ?_, fun sw h => (by cases h),
    fun sw h => (by cases h), fun c hc hd => .inl ?_, h.offer⟩
  · rcases List.mem_cons.mp hc with rfl | hc
    · exact hchk
    · exact h.known c hc
  · rcases h.opened c hc hd with hl | ⟨sw, hsw, heq⟩
    · exact List.mem_cons_of_mem _ hl
    · rw [hg.2] at hsw
      cases hsw
      exact heq ▸ List.mem_cons_self

theorem Lists.step {a : Act χ} (h : Lists s) (hg : guard e s a) : Lists (s.next e a) := by
  cases a with
  | setReachable r => exact h.frame rfl rfl rfl h.offer fun _ h => h
  | gotPdu c b =>
      simp only [next]
      split
      · refine h.frame rfl rfl rfl (fun o ho => ?_) fun _ h => h
        cases ho
        exact hg.2.2.1
      · exact h
  | addObjJob j succ =>
      refine h.frame rfl rfl rfl (fun o ho => ?_) fun _ h => h
      cases ho
      exact h.offer ⟨j, none⟩ hg.2
  | look j succ reach =>
      simp only [next]
      split
      · exact h.frame rfl rfl rfl (fun o ho => by cases ho) fun c hc => deleted_decref j.conn c hc
      · exact h.frame rfl rfl rfl (fun o ho => by cases ho) fun _ h => h
  | begin w j =>
      obtain ⟨r, d, hb, hd⟩ := begin_frame e s w j
      rw [next, hb]
      exact h.frame rfl rfl rfl h.offer hd
  | other a =>
      obtain ⟨r, d, hr, hd⟩ := refs_frame e s a
      rw [next, hr]
      exact h.frame rfl rfl rfl h.offer hd
  | accept c fd others => exact h.accept hg
  | collect ch c rest => exact h.collect hg
  | enlist ch => exact h.enlist hg

theorem lists_of_run {tr : List (Act χ)} (h : (lts e).Run tr s) : Lists s := by
  refine h.invariant (I := fun _ s => Lists s) (fun s hs => ?_) fun _ _ _ _ hi hg => hi.step hg
  obtain rfl : s = init := hs
  exact ⟨List.nodup_nil, List.nodup_nil, fun c h => (by cases h), fun sw h => (by cases h), fun sw h => (by cases h),
    fun c h => (by cases h), fun o h => (by cases h)⟩

theorem moved_gotPdu {c₀ : χ} {b : Bytes} (hg : guard e s (.gotPdu c₀ b)) (c : χ) :
    ∃ inc dec, Moved e H s (.gotPdu c₀ b) (s.next e (.gotPdu c₀ b)) c inc dec := by
  obtain ⟨_, ho, hk, hd⟩ := hg
  simp only [next]
  split
  · refine ⟨_, _, .take rfl rfl ?_ (.inr ⟨hk, hd⟩)⟩
    have hoff : s.offered c = 0 := by rw [offered, ho]; rfl
    simp only [forgets, takesBack, Option.map_none, Holders.one_none, claims, hoff]
    rfl
  · exact ⟨0, 0, .keep rfl rfl rfl⟩

theorem moved_addObjJob {j : DJob χ} {succ : Bool} (hg : guard e s (.addObjJob j succ)) (c : χ) :
    Moved e H s (.addObjJob j succ) (s.next e (.addObjJob j succ)) c 0 0 := by
  refine .keep rfl rfl ?_
  have hoff : s.offered c = one (some j.conn) c := by rw [offered, hg.2]; rfl
  cases succ with
  | false => simp only [claims, hoff]; rfl
  | true =>
      have hq : (s.next e (.addObjJob j true)).queued c = s.queued c + one (some j.conn) c := by
        simp [queued, next, Holders.one_some, List.count_singleton]
      have hnew : (s.next e (.addObjJob j true)).offered c = 0 := rfl
      simp only [claims, hoff, hq, hnew]
      simp only [next, Rpcs.next, if_true, entries, working, Rpcs.pointers, forgets, takesBack, Option.map_none]
      omega

theorem moved_look {j : DJob χ} {succ reach : Bool} (hg : guard e s (.look j succ reach)) (c : χ) :
    ∃ inc dec, Moved e H s (.look j succ reach) (s.next e (.look j succ reach)) c inc dec := by
  have hoff : s.offered c = one (Offer.held ⟨j, some succ⟩) c := by rw [offered, hg.2.1]; rfl
  cases succ with
  | false =>
      refine ⟨0, one (some j.conn) c, .drop rfl rfl ?_⟩
      have hoff : s.offered c = one (some j.conn) c := hoff
      simp only [claims, hoff]
      rfl
  | true =>
      have hoff : s.offered c = 0 := hoff
      cases reach with
      | false =>
          refine ⟨0, one (some j.conn) c, .drop rfl rfl ?_⟩
          simp only [claims, hoff]
          rfl
      | true =>
          refine ⟨0, 0, .keep rfl rfl ?_⟩
          simp only [claims, hoff]
          rfl

theorem claims_entries {t : Refs χ} (hsrv : t.srv = s.srv) (hj : t.jobs = s.jobs) (ho : t.offer = s.offer)
    (c : χ) : t.claims H c + s.entries c = s.claims H c + t.entries c := by
  have ho : t.offered c = s.offered c := by rw [offered, ho, offered]
  simp only [claims, queued, working, hsrv, hj, ho]
  omega

theorem moved_collect {ch c₀ : χ} {rest : List χ} (hg : guard e s (.collect ch c₀ rest)) (hl : Lists s) (c : χ) :
    ∃ inc dec, Moved e H s (.collect ch c₀ rest) (s.next e (.collect ch c₀ rest)) c inc dec := by
  have hmem : c₀ ∈ s.listed := (hl.rest _ hg.2.1).2 c₀ List.mem_cons_self
  have hold : s.entries c = s.listed.count c + one (some ch) c := by rw [entries, hg.2.1]; rfl
  simp only [next]
  split
  · refine ⟨0, one (some c₀) c, .drop rfl rfl ?_⟩
    have hcount := (List.perm_cons_erase hmem).count_eq c
    have hc := claims_entries (H := H) (s := s)
      (t := { s.decref c₀ with sweep := some ⟨ch, rest⟩, listed := s.listed.erase c₀, aborted := true })
      rfl rfl rfl c
    have hnew : entries
        { s.decref c₀ with sweep := some ⟨ch, rest⟩, listed := s.listed.erase c₀, aborted := true } c =
          (s.listed.erase c₀).count c + one (some ch) c := rfl
    rw [Holders.count_cons] at hcount
    exact show claims
        { s.decref c₀ with sweep := some ⟨ch, rest⟩, listed := s.listed.erase c₀, aborted := true } H c +
          one (some c₀) c = s.claims H c by omega
  · refine ⟨0, 0, .keep rfl rfl ?_⟩
    have hc := claims_entries (H := H) (s := s) (t := { s with sweep := some ⟨ch, rest⟩ }) rfl rfl rfl c
    have hnew : entries { s with sweep := some ⟨ch, rest⟩ } c = s.listed.count c + one (some ch) c := rfl
    exact congrArg (· + 0) (show claims { s with sweep := some ⟨ch, rest⟩ } H c = s.claims H c by omega)

theorem moved_enlist {ch : χ} (hg : guard e s (.enlist ch)) (c : χ) :
    Moved e H s (.enlist ch) (s.next e (.enlist ch)) c 0 0 := by
  refine .keep rfl rfl ?_
  have hold : s.entries c = s.listed.count c + one (some ch) c := by rw [entries, hg.2]; rfl
  have hc := claims_entries (H := H) (s := s) (t := s.next e (.enlist ch)) rfl rfl rfl c
  have hnew : (s.next e (.enlist ch)).entries c = (ch :: s.listed).count c + 0 := rfl
  rw [Holders.count_cons] at hnew
  exact congrArg (· + 0) (show (s.next e (.enlist ch)).claims H c = s.claims H c by omega)

/-- Every step but the acceptance of a connection moves references. -/
theorem moved_next {a : Act χ} (hg : guard e s a) (hl : Lists s) (ha : ∀ c fd others, a ≠ .accept c fd others)
    (hn : (s.next e a).srv.aborted = false) :
    ∃ w, ∀ H, w ∈ H → ∀ c, ∃ inc dec, Moved e H s a (s.next e a) c inc dec := by
  cases a with
  | setReachable r => exact ⟨0, fun H _ c => ⟨0, 0, .keep rfl rfl rfl⟩⟩
  | gotPdu c b => exact ⟨0, fun H _ => moved_gotPdu hg⟩
  | addObjJob j succ => exact ⟨0, fun H _ c => ⟨0, 0, moved_addObjJob hg c⟩⟩
  | look j succ reach => exact ⟨0, fun H _ => moved_look hg⟩
  | begin w j => exact ⟨w, fun H hw => moved_begin hg hw⟩
  | other a => exact moved_other hg hn
  | accept c fd others => exact absurd rfl (ha c fd others)
  | collect ch c rest => exact ⟨0, fun H _ => moved_collect hg hl⟩
  | enlist ch => exact ⟨0, fun H _ c => ⟨0, 0, moved_enlist hg c⟩⟩

end Refs
end StanDfs
