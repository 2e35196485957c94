import StanDfs.Rpc.Lemmas.Accounts
import StanDfs.Rpc.Lemmas.Steps

/-!
# Whether references balance

Each step gives back the references it takes, except that the dispatch of a request for another instance
of the server keeps its own. A job is deleted by its dispatch or by `got_pdu`, and by both if `reachable_`
is switched off after the pool took the job.
-/

namespace StanDfs

open Holders (one count)

namespace Rpcs

variable {χ : Type*} [DecidableEq χ] {e : Env χ} {s : Rpcs χ}

/-- The worker that brings the server down does not go on. -/
theorem busy_of_aborted {a : Act χ} (hg : guard e s a) (h : (s.next e a).aborted = true) :
    ∃ w, (s.next e a).workers w ≠ .idle := by
  have hrun : s.aborted ≠ true := by
    rw [hg.1]
    exact Bool.false_ne_true
  cases a with
  | gotPdu c b accept =>
      simp only [next] at h
      split at h <;> exact absurd h hrun
  | begin w c b =>
      simp only [next, begin] at h
      split at h
      · exact absurd h hrun
      · split at h
        · exact absurd h hrun
        · split at h
          · exact absurd h hrun
          · split at h <;> exact absurd h hrun
  | check w j =>
      simp only [next, check] at h ⊢
      split
      · exact ⟨w, by rw [hg.2]; simp⟩
      · rename_i st t freed hc
        simp only [hc] at h
        cases st with
        | done b sz =>
            cases b with
            | none => exact ⟨w, by simp [answer, hg.2]⟩
            | some b => exact absurd h hrun
        | _ => exact absurd h hrun
  | handled w j ret body =>
      simp only [next, handled] at h
      split at h <;> exact absurd h hrun
  | record w j b =>
      simp only [next, record] at h ⊢
      split
      · exact ⟨w, by rw [hg.2]; simp⟩
      · rename_i t hc
        simp only [hc] at h
        exact absurd h hrun
  | choose w j b =>
      simp only [next, choose] at h ⊢
      split
      · exact ⟨w, by rw [hg.2]; simp⟩
      · rename_i c hc
        simp only [hc] at h
        exact absurd h hrun
  | _ => exact absurd h hrun

end Rpcs

namespace Refs

open Rpcs (Env OldInstance)

variable {χ : Type*} {s : Refs χ} {tr : List (Act χ)}

/-- The step neither begins the dispatch of a request for another instance, nor takes back a job that the
pool has. -/
def Clean (e : Env χ) (a : Act χ) : Prop := forgets e a = none ∧ takesBack a = none

instance (e : Env χ) (a : Act χ) : Decidable (Clean e a) :=
  decidable_of_iff ((forgets e a).isNone ∧ (takesBack a).isNone) (by simp [Clean])

/-- No dispatch is queued or running, and `got_pdu` is done. -/
structure Quiet (s : Refs χ) : Prop where
  offer : s.offer = none
  jobs : s.jobs = []
  workers : ∀ w, s.srv.workers w = .idle

/-! ## Jobs -/

/-- How often a job was taken back. -/
def takenBack (tr : List (Act χ)) (n : Nat) : Nat := ((tr.filterMap takesBack).map DJob.id).count n

theorem takenBack_cons (a : Act χ) (n : Nat) :
    takenBack (a :: tr) n = takenBack tr n + one ((takesBack a).map DJob.id) n := by
  simp only [takenBack, List.map_filterMap]
  exact Holders.count_filterMap_cons _ a tr n

theorem takenBack_none {a : Act χ} (h : takesBack a = none) (n : Nat) :
    takenBack (a :: tr) n = takenBack tr n := by
  rw [takenBack_cons, h]
  rfl

theorem takenBack_some {a : Act χ} {j : DJob χ} (h : takesBack a = some j) (n : Nat) :
    takenBack (a :: tr) n = takenBack tr n + one (some j.id) n := by
  rw [takenBack_cons, h, Option.map_some]

/-- The job is with `got_pdu` only. -/
def pending (s : Refs χ) (n : Nat) : Nat := one (s.offer.bind Offer.pending) n

/-- Each job is with `got_pdu`, in the queue, or deleted. -/
def Accounted (tr : List (Act χ)) (s : Refs χ) : Prop :=
  ∀ n, s.deletes.count n + (s.jobs.map DJob.id).count n + s.pending n =
    (if n < s.made then 1 else 0) + takenBack tr n

theorem takenBack_eq_zero {n : Nat} : takenBack tr n = 0 ↔ ∀ a ∈ tr, ∀ j ∈ takesBack a, j.id ≠ n := by
  rw [takenBack, List.count_eq_zero]
  constructor
  · intro h a ha j hj heq
    exact h (List.mem_map.mpr ⟨j, List.mem_filterMap.mpr ⟨a, ha, hj⟩, heq⟩)
  · intro h hm
    obtain ⟨j, hj, heq⟩ := List.mem_map.mp hm
    obtain ⟨a, ha, hj⟩ := List.mem_filterMap.mp hj
    exact h a ha j hj heq

theorem pending_zero {n : Nat} (ho : ∀ o ∈ s.offer, o.job.id ≠ n) : s.pending n = 0 := by
  rw [pending]
  cases hoff : s.offer with
  | none => rfl
  | some o =>
      rw [Option.bind_some, Offer.pending]
      split
      · rw [Holders.one_some, if_neg (ho o hoff)]
      · rfl

theorem Accounted.frame {a : Act χ} {s' : Refs χ} (h : Accounted tr s) (ha : takesBack a = none)
    (hd : s'.deletes = s.deletes) (hj : s'.jobs = s.jobs) (ho : s'.offer = s.offer)
    (hm : s'.made = s.made) : Accounted (a :: tr) s' := by
  intro n
  rw [takenBack_none ha, pending, hd, hj, ho, hm]
  exact h n

variable [DecidableEq χ] {e : Env χ} {H : Finset Worker}

theorem Accounted.look {j : DJob χ} {succ reach : Bool} (h : Accounted tr s)
    (ho : s.offer = some ⟨j, some succ⟩) :
    Accounted (.look j succ reach :: tr) (s.next e (.look j succ reach)) := by
  intro n
  have hn := h n
  have hold : s.pending n = one (Offer.pending ⟨j, some succ⟩) n := by rw [pending, ho]; rfl
  have hdel : (s.deletes ++ [j.id]).count n = s.deletes.count n + one (some j.id) n := by
    rw [List.count_append, Holders.count_cons, List.count_nil, Nat.zero_add]
  cases succ with
  | false =>
      rw [takenBack_none rfl]
      have hold : s.pending n = one (some j.id) n := hold
      exact show (s.deletes ++ [j.id]).count n + (s.jobs.map DJob.id).count n + 0 =
        (if n < s.made then 1 else 0) + takenBack tr n by omega
  | true =>
      have hold : s.pending n = 0 := hold
      cases reach with
      | false =>
          rw [takenBack_some rfl]
          exact show (s.deletes ++ [j.id]).count n + (s.jobs.map DJob.id).count n + 0 =
            (if n < s.made then 1 else 0) + (takenBack tr n + one (some j.id) n) by omega
      | true =>
          rw [takenBack_none rfl]
          exact show s.deletes.count n + (s.jobs.map DJob.id).count n + 0 =
            (if n < s.made then 1 else 0) + takenBack tr n by omega

theorem Accounted.step {a : Act χ} (h : Accounted tr s) (hg : guard e s a) :
    Accounted (a :: tr) (s.next e a) := by
  cases a with
  | gotPdu c b =>
      simp only [next]
      split
      · intro n
        have hn := h n
        have hold : s.pending n = 0 := by rw [pending, hg.2.1]; rfl
        rw [takenBack_none rfl]
        refine show s.deletes.count n + (s.jobs.map DJob.id).count n + one (some s.made) n =
          (if n < s.made + 1 then 1 else 0) + takenBack tr n from ?_
        rw [Holders.one_some]
        split at hn <;> split <;> split <;> omega
      · exact h.frame rfl rfl rfl rfl rfl
  | addObjJob j succ =>
      intro n
      have hn := h n
      have hold : s.pending n = one (some j.id) n := by rw [pending, hg.2]; rfl
      rw [takenBack_none rfl]
      cases succ with
      | false =>
          exact show s.deletes.count n + (s.jobs.map DJob.id).count n + one (some j.id) n =
            (if n < s.made then 1 else 0) + takenBack tr n by omega
      | true =>
          refine show s.deletes.count n + ((s.jobs ++ [j]).map DJob.id).count n + 0 =
            (if n < s.made then 1 else 0) + takenBack tr n from ?_
          rw [List.map_append, List.count_append, List.map_singleton, Holders.count_cons, List.count_nil]
          omega
  | look j succ reach => exact h.look hg.2.1
  | begin w j =>
      intro n
      have hn := h n
      obtain ⟨r, d, hb, -⟩ := begin_frame e s w j
      have hq := ((List.perm_cons_erase hg.2.1).map DJob.id).count_eq n
      rw [List.map_cons, Holders.count_cons] at hq
      rw [takenBack_none rfl, next, hb]
      refine show (s.deletes ++ [j.id]).count n + ((s.jobs.erase j).map DJob.id).count n + s.pending n =
        (if n < s.made then 1 else 0) + takenBack tr n from ?_
      rw [List.count_append, Holders.count_cons, List.count_nil]
      omega
  | other a =>
      obtain ⟨r, d, hr, -⟩ := refs_frame e s a
      rw [next, hr]
      exact h.frame rfl rfl rfl rfl rfl
  | accept c fd others =>
      simp only [next]
      split
      · exact h.frame rfl rfl rfl rfl rfl
      · exact h.frame rfl rfl rfl rfl rfl
  | collect ch c rest =>
      simp only [next]
      split
      · exact h.frame rfl rfl rfl rfl rfl
      · exact h.frame rfl rfl rfl rfl rfl
  | setReachable r => exact h.frame rfl rfl rfl rfl rfl
  | enlist ch => exact h.frame rfl rfl rfl rfl rfl

theorem accounted_of_run (h : (lts e).Run tr s) : Accounted tr s := by
  refine h.invariant (I := Accounted) ?_ fun _ _ _ _ hi hg => hi.step hg
  rintro s rfl n
  rfl

/-! ## References -/

/-- How many references to a connection its dispatches have forgotten. -/
def forgotten (e : Env χ) (tr : List (Act χ)) (c : χ) : Nat := (tr.filterMap (forgets e)).count c

/-- How many of a connection's jobs were taken back. -/
def takenFrom (tr : List (Act χ)) (c : χ) : Nat := ((tr.filterMap takesBack).map DJob.conn).count c

theorem forgotten_cons (e : Env χ) (tr : List (Act χ)) (a : Act χ) (c : χ) :
    forgotten e (a :: tr) c = forgotten e tr c + one (forgets e a) c :=
  Holders.count_filterMap_cons _ a tr c

theorem takenFrom_cons (tr : List (Act χ)) (a : Act χ) (c : χ) :
    takenFrom (a :: tr) c = takenFrom tr c + one ((takesBack a).map DJob.conn) c := by
  simp only [takenFrom, List.map_filterMap]
  exact Holders.count_filterMap_cons _ a tr c

/-- The references to a connection are those that somebody has, and those forgotten. -/
structure Even (e : Env χ) (tr : List (Act χ)) (s : Refs χ) (H : Finset Worker) (c : χ) : Prop where
  refno : s.refno c + takenFrom tr c = s.claims H c + forgotten e tr c
  unknown : c ∉ s.known → s.refno c = 0 ∧ s.claims H c = 0

def Balanced (e : Env χ) (tr : List (Act χ)) (s : Refs χ) : Prop :=
  ∃ H : Finset Worker, (∀ w ∉ H, s.srv.workers w = .idle) ∧ ∀ c, Even e tr s H c

/-- The worker that a job is given to. -/
def Act.taker : Act χ → Worker
  | .begin w _ => w
  | _ => 0

theorem idle_next {a : Act χ} (hg : guard e s a) {w : Worker} (hw : w ≠ a.taker)
    (h : s.srv.workers w = .idle) : (s.next e a).srv.workers w = .idle := by
  cases ha : srvAct a with
  | none =>
      have hs : (s.next e a).srv = s.srv := (srv_component e).stays s a hg ha
      rw [hs]
      exact h
  | some b =>
      obtain ⟨hb, hn⟩ := (srv_component e).moves s a b hg ha
      have hn : (s.next e a).srv = s.srv.next e b := hn
      rw [hn]
      apply Rpcs.idle_next hb h
      rintro c b' rfl
      cases a with
      | begin w' j =>
          cases ha
          exact hw rfl
      | other a =>
          cases ha
          exact hg.2.2.elim
      | _ => cases ha

theorem known_next {a : Act χ} (ha : ∀ c fd others, a ≠ .accept c fd others) : (s.next e a).known = s.known := by
  cases a with
  | begin w j =>
      obtain ⟨r, d, hb, -⟩ := begin_frame e s w j
      rw [next, hb]
  | other a =>
      obtain ⟨r, d, hr, -⟩ := refs_frame e s a
      rw [next, hr]
  | gotPdu c b =>
      simp only [next]
      split <;> rfl
  | look j succ reach =>
      simp only [next]
      split <;> rfl
  | collect ch c rest =>
      simp only [next]
      split <;> rfl
  | accept c fd others => exact absurd rfl (ha c fd others)
  | _ => rfl

theorem claims_insert {w : Worker} (h : ∀ w ∉ H, s.srv.workers w = .idle) (c : χ) :
    s.claims (insert w H) c = s.claims H c := by
  by_cases hw : w ∈ H
  · rw [Finset.insert_eq_of_mem hw]
  · have hc := Holders.count_insert (f := fun w => (s.srv.workers w).held) (H := H) c
      (show (s.srv.workers w).held = none by rw [h w hw, Pc.held])
    simp only [claims, working, hc]

theorem Even.moved {a : Act χ} {c : χ} {inc dec : Nat} (h : Even e tr s H c)
    (hm : Moved e H s a (s.next e a) c inc dec) (hl : Lists s) (hg : guard e s a)
    (hk : (s.next e a).known = s.known) : Even e (a :: tr) (s.next e a) H c where
  refno := by
    rw [forgotten_cons, takenFrom_cons]
    have := hm.refno
    have := hm.claims
    have := h.refno
    omega
  unknown hc := by
    rw [hk] at hc
    obtain ⟨hr, hcl⟩ := h.unknown hc
    have hinc : inc = 0 := by
      by_contra h0
      rcases hm.inc (Nat.pos_of_ne_zero h0) with hpos | ⟨hin, _⟩
      · omega
      · exact hc hin
    have htaken : one ((takesBack a).map DJob.conn) c = 0 := by
      cases a with
      | look j succ reach =>
          have hne : j.conn ≠ c := fun heq => hc (heq ▸ hl.offer _ hg.2.1)
          cases succ with
          | false => rfl
          | true =>
              cases reach with
              | true => rfl
              | false => rw [takesBack, Option.map_some, Holders.one_some, if_neg hne]
      | _ => rfl
    have := hm.refno
    have := hm.claims
    omega

/-- A new connection has the reference of its constructor. -/
theorem Even.fresh {s' : Refs χ} {c₀ c : χ} (h : Even e tr s H c) (h₀ : Even e tr s H c₀)
    (hk : c₀ ∉ s.known) (hsw : s.sweep = none) (hr : s'.refno = Function.update s.refno c₀ 1)
    (hkn : s'.known = c₀ :: s.known) (hs : s'.sweep = some ⟨c₀, s.listed⟩) (hl : s'.listed = s.listed)
    (hsrv : s'.srv = s.srv) (hj : s'.jobs = s.jobs) (ho : s'.offer = s.offer) : Even e tr s' H c := by
  obtain ⟨hr₀, -⟩ := h₀.unknown hk
  have hrefs := h.refno
  have hcl : s'.claims H c = s.claims H c + one (some c₀) c := by
    have hold : s.entries c = s.listed.count c + 0 := by rw [entries, hsw]; rfl
    have hnew : s'.entries c = s.listed.count c + one (some c₀) c := by rw [entries, hl, hs]; rfl
    have hc := claims_entries (H := H) hsrv hj ho c
    omega
  refine ⟨?_, fun hu => ?_⟩
  · by_cases hcc : c = c₀
    · subst hcc
      rw [Holders.one_self] at hcl
      rw [hr, Function.update_self]
      omega
    · rw [Holders.one_some, if_neg (Ne.symm hcc)] at hcl
      rw [hr, Function.update_of_ne hcc]
      omega
  · rw [hkn, List.mem_cons, not_or] at hu
    obtain ⟨hr', hc'⟩ := h.unknown hu.2
    rw [Holders.one_some, if_neg (Ne.symm hu.1)] at hcl
    rw [hr, Function.update_of_ne hu.1]
    exact ⟨hr', hcl.trans hc'⟩

theorem Even.accept {c₀ c : χ} {fd : Nat} {others : Finset Nat} (h : Even e tr s H c)
    (hg : guard e s (.accept c₀ fd others)) (h₀ : Even e tr s H c₀) :
    Even e (.accept c₀ fd others :: tr) (s.next e (.accept c₀ fd others)) H c := by
  obtain ⟨_, hsw, hk, _⟩ := hg
  have hf : forgotten e (.accept c₀ fd others :: tr) c = forgotten e tr c := by rw [forgotten_cons]; rfl
  have ht : takenFrom (.accept c₀ fd others :: tr) c = takenFrom tr c := by rw [takenFrom_cons]; rfl
  have hnew : Even e tr (s.next e (.accept c₀ fd others)) H c := by
    simp only [next]
    split
    · exact h.fresh h₀ hk hsw rfl rfl rfl rfl rfl rfl rfl
    · exact ⟨h.refno, h.unknown⟩
  refine ⟨?_, hnew.unknown⟩
  rw [hf, ht]
  exact hnew.refno

theorem Balanced.step {a : Act χ} (h : Balanced e tr s) (hl : Lists s) (hg : guard e s a)
    (hn : (s.next e a).srv.aborted = false) : Balanced e (a :: tr) (s.next e a) := by
  obtain ⟨H, hidle, heven⟩ := h
  by_cases ha : ∃ c fd others, a = .accept c fd others
  · obtain ⟨c₀, fd, others, rfl⟩ := ha
    refine ⟨H, fun w hw => ?_, fun c => (heven c).accept hg (heven c₀)⟩
    have hs : (s.next e (.accept c₀ fd others)).srv = s.srv :=
      (srv_component e).stays s (.accept c₀ fd others) hg rfl
    rw [hs]
    exact hidle w hw
  · have ha : ∀ c fd others, a ≠ .accept c fd others := fun c fd others heq => ha ⟨c, fd, others, heq⟩
    obtain ⟨w₀, hm⟩ := moved_next hg hl ha hn
    have hidle' : ∀ w ∉ insert a.taker H, s.srv.workers w = .idle :=
      fun w hw => hidle w fun hin => hw (Finset.mem_insert_of_mem hin)
    refine ⟨insert w₀ (insert a.taker H), fun w hw => ?_, fun c => ?_⟩
    · simp only [Finset.mem_insert, not_or] at hw
      exact idle_next hg hw.2.1 (hidle w hw.2.2)
    · obtain ⟨inc, dec, hmv⟩ := hm (insert w₀ (insert a.taker H)) (Finset.mem_insert_self _ _) c
      have hcl : s.claims (insert w₀ (insert a.taker H)) c = s.claims H c := by
        rw [claims_insert hidle', claims_insert hidle]
      refine Even.moved ⟨?_, ?_⟩ hmv hl hg (known_next ha)
      · rw [hcl]
        exact (heven c).refno
      · rw [hcl]
        exact (heven c).unknown

theorem balanced_of_run (h : (lts e).Run tr s) (hn : s.srv.aborted = false) : Balanced e tr s := by
  have hinv : s.srv.aborted = false → Balanced e tr s := by
    refine h.invariant (I := fun tr s => s.srv.aborted = false → Balanced e tr s) ?_ ?_
    · rintro s rfl -
      exact ⟨∅, fun _ _ => rfl, fun c => ⟨rfl, fun _ => ⟨rfl, rfl⟩⟩⟩
    · intro tr s a hr hi hg hn
      exact (hi hg.1.1).step (lists_of_run hr) hg hn
  exact hinv hn

theorem busy_of_run (h : (lts e).Run tr s) (ha : s.srv.aborted = true) : ∃ w, s.srv.workers w ≠ .idle := by
  have hr := h.component (srv_component e)
  cases htr : tr.filterMap srvAct with
  | nil =>
      rw [htr] at hr
      have hi : s.srv = Rpcs.init := hr.nil_init
      rw [hi] at ha
      cases ha
  | cons a tr' =>
      rw [htr] at hr
      obtain ⟨s₀, _, hg, hs⟩ := hr.uncons
      rw [hs] at ha ⊢
      exact Rpcs.busy_of_aborted hg ha

/-! ## When nothing is queued or running -/

theorem working_idle (h : ∀ w, s.srv.workers w = .idle) (H : Finset Worker) (c : χ) : s.working H c = 0 :=
  Holders.count_eq_zero.mpr fun w _ => by rw [h w, Pc.held]; simp

/-- The references to a connection are its entries in the two maps, those forgotten, less those given back
twice. -/
theorem Quiet.refno (hq : Quiet s) (h : (lts e).Run tr s) (c : χ) :
    s.refno c + takenFrom tr c = s.entries c + s.srv.pointers c + forgotten e tr c := by
  have hn : s.srv.aborted = false := by
    by_contra ha
    obtain ⟨w, hw⟩ := busy_of_run h (Bool.not_eq_false _ ▸ ha)
    exact hw (hq.workers w)
  obtain ⟨H, _, heven⟩ := balanced_of_run h hn
  have hrefs := (heven c).refno
  have hq' : s.queued c = 0 := by rw [queued, hq.jobs]; rfl
  have ho : s.offered c = 0 := by rw [offered, hq.offer]; rfl
  rw [claims, hq', working_idle hq.workers, ho] at hrefs
  omega

theorem entries_listed (h : (lts e).Run tr s) {c : χ} (hc : c ∈ s.listed) : s.entries c = 1 := by
  have hl := lists_of_run h
  rw [entries, List.count_eq_one_of_mem hl.nodup hc]
  cases hsw : s.sweep with
  | none => rfl
  | some sw =>
      have hne : sw.ch ≠ c := fun heq => (hl.ch sw hsw).1 (heq ▸ hc)
      rw [Option.map_some, Holders.one_some, if_neg hne]

theorem deleted_once_iff (h : (lts e).Run tr s) {n : Nat} (hn : n < s.made) (hq : n ∉ s.jobs.map DJob.id)
    (ho : ∀ o ∈ s.offer, o.job.id ≠ n) :
    s.deletes.count n = 1 ↔ ∀ a ∈ tr, ∀ j ∈ takesBack a, j.id ≠ n := by
  have hacc := accounted_of_run h n
  rw [List.count_eq_zero.mpr hq, pending_zero ho, if_pos hn] at hacc
  rw [← takenBack_eq_zero]
  omega

theorem Quiet.deletes (hq : Quiet s) (h : (lts e).Run tr s) (n : Nat) :
    s.deletes.count n = (if n < s.made then 1 else 0) + takenBack tr n := by
  have hacc := accounted_of_run h n
  have hp : s.pending n = 0 := by rw [pending, hq.offer]; rfl
  rw [hq.jobs, hp] at hacc
  exact hacc

theorem Quiet.balance_iff (hq : Quiet s) (h : (lts e).Run tr s) :
    ((∀ n, s.deletes.count n = if n < s.made then 1 else 0) ∧
      ∀ c, s.refno c = s.entries c + s.srv.pointers c) ↔ ∀ a ∈ tr, Clean e a := by
  have htaken : (∀ n, takenBack tr n = 0) ↔ ∀ a ∈ tr, takesBack a = none := by
    simp only [takenBack, List.map_filterMap, Holders.count_filterMap_zero, Option.map_eq_none_iff]
  have hfrom : (∀ a ∈ tr, takesBack a = none) → ∀ c, takenFrom tr c = 0 := fun hnone => by
    simp only [takenFrom, List.map_filterMap, Holders.count_filterMap_zero, Option.map_eq_none_iff]
    exact hnone
  constructor
  · rintro ⟨hd, hr⟩
    have hnone : ∀ a ∈ tr, takesBack a = none := htaken.mp fun n => by
      have := hd n
      have := hq.deletes h n
      omega
    have hforg : ∀ a ∈ tr, forgets e a = none := Holders.count_filterMap_zero.mp fun c => by
      have hc := hq.refno h c
      rw [hfrom hnone c, hr c, forgotten] at hc
      omega
    exact fun a ha => ⟨hforg a ha, hnone a ha⟩
  · intro hclean
    have hnone : ∀ a ∈ tr, takesBack a = none := fun a ha => (hclean a ha).2
    refine ⟨fun n => ?_, fun c => ?_⟩
    · rw [hq.deletes h n, htaken.mpr hnone n, Nat.add_zero]
    · have hc := hq.refno h c
      have hforg : forgotten e tr c = 0 := Holders.count_filterMap_zero.mpr (fun a ha => (hclean a ha).1) c
      rw [hfrom hnone c, hforg] at hc
      omega

/-- Every job that is neither in the queue nor with `got_pdu` has been deleted exactly once, unless it was
taken back. When nothing is queued or running, the books are balanced if and only if every step was clean. -/
theorem references_balance (h : (lts e).Run tr s) :
    (∀ n < s.made, n ∉ s.jobs.map DJob.id → (∀ o ∈ s.offer, o.job.id ≠ n) →
      (s.deletes.count n = 1 ↔ ∀ a ∈ tr, ∀ j ∈ takesBack a, j.id ≠ n)) ∧
    (∀ c ∈ s.listed, s.entries c = 1) ∧
    (s.Quiet →
      (((∀ n, s.deletes.count n = if n < s.made then 1 else 0) ∧
        ∀ c, s.refno c = s.entries c + s.srv.pointers c) ↔ ∀ a ∈ tr, Clean e a)) :=
  ⟨fun _ hn hq ho => deleted_once_iff h hn hq ho, fun _ hc => entries_listed h hc, fun hq => hq.balance_iff h⟩

/-- The steps give jobs to the first `N` workers only. -/
def Within (N : Nat) (a : Act χ) : Prop := ∀ b ∈ srvAct a, Rpcs.Within N b

instance (N : Nat) (a : Act χ) : Decidable (Within N a) := inferInstanceAs (Decidable (∀ _ ∈ _, _))

theorem quiet_of_run {N : Nat} (h : ((lts e).restrict fun _ a => Within N a).Run tr s) (ho : s.offer = none)
    (hj : s.jobs = []) (hw : ∀ w ∈ List.range N, s.srv.workers w = .idle) : Quiet s where
  offer := ho
  jobs := hj
  workers w := by
    by_cases hlt : w < N
    · exact hw w (List.mem_range.mpr hlt)
    · have hr := h.component ((srv_component e).restrict (D := fun _ a => Rpcs.Within N a)
        fun s a b ha hb => ha b hb)
      exact Rpcs.idle_of_run hr (Nat.not_lt.mp hlt)

open Lone

/-- A call that is answered. -/
theorem references_balance_call : ∃ tr s, (lts env).Run tr s ∧ s.Quiet ∧ s.deletes.count 0 = 1 ∧
    s.refno 0 = s.entries 0 + s.srv.pointers 0 ∧ s.refno 0 = 2 := by
  obtain ⟨s, hr, hs⟩ := Lts.run_of_exec (M := (lts env).restrict fun _ a => Within 1 a) (s := init)
    (l := arrive 0 0 ++ queue 0 0 (req 7) ++ dispatch 0 0 0 (req 7) 0)
    (f := fun s => decide ((s.offer = none ∧ s.jobs = [] ∧ ∀ w ∈ List.range 1, s.srv.workers w = .idle) ∧ s.made = 1 ∧
      s.refno 0 = 2))
    rfl (by decide +kernel)
  obtain ⟨⟨ho, hj, hw⟩, hm, h2⟩ := of_decide_eq_true hs
  have hq := quiet_of_run hr ho hj hw
  obtain ⟨_, _, hiff⟩ := references_balance hr.of_restrict
  obtain ⟨hd, hb⟩ := (hiff hq).mpr (by decide +kernel)
  refine ⟨_, s, hr.of_restrict, hq, ?_, hb 0, h2⟩
  rw [hd 0, hm]
  rfl

/-- A request for another instance keeps its reference, and a job that is taken back while the pool has it
is deleted twice. -/
theorem references_lost :
    (¬ ∀ tr s, (lts env).Run tr s → s.Quiet → ∀ c ∈ s.listed, s.refno c = 1 + s.srv.pointers c) ∧
    ¬ ∀ tr s, (lts env).Run tr s → s.Quiet → ∀ n < s.made, s.deletes.count n = 1 := by
  constructor
  · intro hall
    let j : Job Nat := ⟨0, req 9⟩
    obtain ⟨s, hr, hs⟩ := Lts.run_of_exec (M := (lts env).restrict fun _ a => Within 1 a) (s := init)
      (l := arrive 0 0 ++ queue 0 0 (req 9) ++
        [.begin 0 (job 0 0 (req 9)), .other (.txReply 0 j (j.reply RpcConst.oldsrvFailure []) true)])
      (f := fun s => decide ((s.offer = none ∧ s.jobs = [] ∧ ∀ w ∈ List.range 1, s.srv.workers w = .idle) ∧
        0 ∈ s.listed ∧ s.refno 0 = 2 ∧ s.srv.pointers 0 = 0))
      rfl (by decide +kernel)
    obtain ⟨⟨ho, hj, hw⟩, hl, h2, h0⟩ := of_decide_eq_true hs
    have h1 := hall _ s hr.of_restrict (quiet_of_run hr ho hj hw) 0 hl
    rw [h2, h0] at h1
    cases h1
  · intro hall
    obtain ⟨s, hr, hs⟩ := Lts.run_of_exec (M := (lts env).restrict fun _ a => Within 1 a) (s := init)
      (l := arrive 0 0 ++
        [.gotPdu 0 [], .addObjJob ⟨0, 0, []⟩ true, .setReachable false, .look ⟨0, 0, []⟩ true false,
          .begin 0 ⟨0, 0, []⟩])
      (f := fun s => decide ((s.offer = none ∧ s.jobs = [] ∧ ∀ w ∈ List.range 1, s.srv.workers w = .idle) ∧
        s.made = 1 ∧ s.deletes.count 0 = 2))
      rfl (by decide +kernel)
    obtain ⟨⟨ho, hj, hw⟩, hm, h2⟩ := of_decide_eq_true hs
    have h1 := hall _ s hr.of_restrict (quiet_of_run hr ho hj hw) 0 (by rw [hm]; decide)
    rw [h2] at h1
    cases h1

end Refs
end StanDfs
