import StanDfs.Rpc.Newest
import StanDfs.Rpc.Reclaim

/-!
# The map of connection pointers

`rpcs::conns_` maps to pointers. `dispatch` fills it for clients that have a nonce, and reads it for all
clients with `operator[]`, which makes an entry with a null pointer where there is none.
-/

namespace StanDfs

namespace Rpcs

variable {χ : Type*}

/-- `conns_[n]`, and the map after it. -/
def index (m : Map (Option χ)) (n : UInt32) : Option χ × Map (Option χ) :=
  match m.lookup n with
  | some p => (p, m)
  | none => (none, m.insert n none)

/-- The critical section that saves the latest connection to the client. It fails if it comes to call
`compare` with a null pointer. -/
def savePtr (e : Env χ) (m : Map (Option χ)) (j : Job χ) : Option (Map (Option χ)) :=
  match m.lookup j.nonce with
  | none => some (m.insert j.nonce (some j.conn))
  | some none => none
  | some (some c) =>
    if compare (e.created c) (e.created j.conn) < 0 then some (m.insert j.nonce (some j.conn)) else some m

/-- The critical section that chooses the connection for the reply: the pointer `c` after it, and the
map. -/
def choosePtr [DecidableEq χ] (dead : List χ) (m : Map (Option χ)) (j : Job χ) : Option χ × Map (Option χ) :=
  if j.conn ∈ dead then
    let (p, m) := index m j.nonce
    if some j.conn ≠ p then (p, m) else (some j.conn, m)
  else (some j.conn, m)

end Rpcs

/-- A server with its connections, and `conns_` as the pointers that it has. `ptr` is the variable `c` of
each dispatch. -/
structure Pointed (χ : Type*) where
  refs : Refs χ
  conns : Map (Option χ)
  ptr : Worker → Option χ

namespace Pointed

open Rpcs (Env)

variable {χ : Type*} [DecidableEq χ]

def init : Pointed χ := ⟨Refs.init, ∅, fun _ => none⟩

/-- The process goes down. -/
def crash (s : Pointed χ) : Pointed χ :=
  { s with refs := { s.refs with srv := { s.refs.srv with aborted := true } } }

def next (e : Env χ) (s : Pointed χ) : Refs.Act χ → Pointed χ
  | .begin w j => { s with refs := s.refs.next e (.begin w j), ptr := Function.update s.ptr w (some j.conn) }
  | .other (.save w j) =>
    match Rpcs.savePtr e s.conns j with
    | some m => { s with refs := s.refs.next e (.other (.save w j)), conns := m }
    | none => s.crash
  | .other (.choose w j b) =>
    let (p, m) := Rpcs.choosePtr s.refs.srv.dead s.conns j
    { refs := s.refs.next e (.other (.choose w j b)), conns := m, ptr := Function.update s.ptr w p }
  | a => { s with refs := s.refs.next e a }

/-- The runs of a server, over every interleaving of its dispatches and the deaths of its connections. -/
def lts (e : Env χ) : Lts (Pointed χ) (Refs.Act χ) where
  init s := s = init
  guard s a := s.refs.guard e a
  next := next e

/-- The connection for the reply to a client without a nonce is chosen, and that of the request is dead. -/
def Nulls (s : Pointed χ) : Refs.Act χ → Prop
  | .other (.choose _ j _) => j.nonce = 0 ∧ j.conn ∈ s.refs.srv.dead
  | _ => False

instance (s : Pointed χ) (a : Refs.Act χ) : Decidable (Nulls s a) := by
  unfold Nulls
  apply @Refs.Act.casesOn _ _ a
  case other =>
      intro a
      apply @Rpcs.Act.casesOn _ _ a <;> intros <;> infer_instance
  all_goals
    intros
    infer_instance

instance (e : Env χ) (s : Pointed χ) (a : Refs.Act χ) : Decidable ((lts e).guard s a) :=
  inferInstanceAs (Decidable (s.refs.guard e a))

end Pointed

/-- The dispatch has saved its connection, and has not chosen one for its reply. -/
def Pc.saved {χ : Type*} : Pc χ → Option (Job χ)
  | .check j | .running j | .record j _ | .choose j _ => some j
  | _ => none

namespace Rpcs

variable {χ : Type*} {e : Env χ} {s : Rpcs χ}

/-! ## The two maps agree -/

/-- `m` has the connections of `conns`, and no null pointer. -/
def Agree (m : Map (Option χ)) (conns : Map χ) : Prop := ∀ n, m.lookup n = (conns.lookup n).map some

theorem Agree.insert {m : Map (Option χ)} {conns : Map χ} (h : Agree m conns) (n : UInt32) (c : χ) :
    Agree (m.insert n (some c)) (conns.insert n c) := by
  intro k
  by_cases hk : k = n
  · subst hk
    rw [AList.lookup_insert, AList.lookup_insert]
    rfl
  · rw [AList.lookup_insert_ne hk, AList.lookup_insert_ne hk, h k]

theorem Agree.not_null {m : Map (Option χ)} {conns : Map χ} (h : Agree m conns) (n : UInt32) :
    m.lookup n ≠ some none := by
  rw [h n]
  cases conns.lookup n <;> simp

theorem Agree.save {m : Map (Option χ)} {j : Job χ} (h : Agree m s.conns) :
    ∃ m', savePtr e m j = some m' ∧ Agree m' (s.saveConn e j) := by
  have hl := h j.nonce
  cases hc : s.conns.lookup j.nonce with
  | none =>
      rw [hc] at hl
      refine ⟨_, by rw [savePtr, hl]; rfl, ?_⟩
      simp only [saveConn, hc]
      exact h.insert _ _
  | some c =>
      rw [hc] at hl
      by_cases hlt : compare (e.created c) (e.created j.conn) < 0
      · refine ⟨m.insert j.nonce (some j.conn), by rw [savePtr, hl]; simp only [Option.map_some, if_pos hlt], ?_⟩
        simp only [saveConn, hc, if_pos hlt]
        exact h.insert _ _
      · refine ⟨m, by rw [savePtr, hl]; simp only [Option.map_some, if_neg hlt], ?_⟩
        simp only [saveConn, hc, if_neg hlt]
        exact h

/-! ## What dispatch finds in it -/

/-- There is a connection to each client that a dispatch has saved one of. -/
def Kept (s : Rpcs χ) : Prop :=
  ∀ w j, (s.workers w).saved = some j → j.nonce ≠ 0 → s.conns.lookup j.nonce ≠ none

theorem Kept.setWorker {w : Worker} {p : Pc χ} (h : Kept s)
    (hp : ∀ j, p.saved = some j → j.nonce ≠ 0 → s.conns.lookup j.nonce ≠ none) : Kept (s.setWorker w p) :=
  forall_setWorker (P := fun p => ∀ j, p.saved = some j → j.nonce ≠ 0 → s.conns.lookup j.nonce ≠ none) h hp

theorem Kept.drop {w : Worker} {p : Pc χ} (h : Kept s) (hp : p.saved = none) : Kept (s.setWorker w p) :=
  h.setWorker fun j hj => by rw [hp] at hj; cases hj

theorem Kept.keep {w : Worker} {p p₀ : Pc χ} (h : Kept s) (hw : s.workers w = p₀) (hp : p.saved = p₀.saved) :
    Kept (s.setWorker w p) :=
  h.setWorker fun j hj => h w j (by rw [hw, ← hp, hj])

theorem Kept.save {w : Worker} {j : Job χ} (h : Kept s) :
    Kept { s.setWorker w (.check j) with conns := s.saveConn e j } := by
  obtain ⟨c, hc, _⟩ := lookup_saveConn e s j
  have h' : Kept { s with conns := s.saveConn e j } := by
    intro w' j' hj' hn
    by_cases hnn : j'.nonce = j.nonce
    · show (s.saveConn e j).lookup j'.nonce ≠ none
      rw [hnn, hc]
      simp
    · show (s.saveConn e j).lookup j'.nonce ≠ none
      rw [lookup_saveConn_ne e s hnn]
      exact h w' j' hj' hn
  refine h'.setWorker (p := .check j) fun j' hj' _ => ?_
  cases hj'
  show (s.saveConn e j).lookup j.nonce ≠ none
  rw [hc]
  simp

/-- The dispatch works on the connection that it had, or does not go on. -/
theorem conn_setWorker {w : Worker} {p p₀ : Pc χ} (hw : s.workers w = p₀) (hp : ∀ c, p.conn = some c → p₀.conn = some c)
    (w' : Worker) (c : χ) (h : ((s.setWorker w p).workers w').conn = some c) : (s.workers w').conn = some c := by
  by_cases hww : w' = w
  · subst hww
    rw [hw]
    exact hp c (by simpa [setWorker] using h)
  · simpa [setWorker, Function.update_of_ne hww] using h

variable [DecidableEq χ]

theorem Kept.step {a : Act χ} (h : Kept s) (hg : guard e s a) : Kept (s.next e a) := by
  cases a with
  | gotPdu c b accept =>
      simp only [next]
      split <;> exact h
  | begin w c b =>
      simp only [next, begin]
      split
      · exact h
      · split
        · exact Kept.drop (s := { s with jobs := _ }) h rfl
        · split
          · exact h
          · split
            · exact Kept.drop (s := { s with jobs := _ }) h rfl
            · rename_i q _ _ _ hn
              apply Kept.setWorker (s := { s with jobs := s.jobs.erase (c, b) }) (w := w) (p := .running ⟨c, q⟩) h
              intro j hj hn'
              cases hj
              exact absurd hn' hn
  | seen w j => exact h.drop (w := w) (p := .save j) rfl
  | save w j => exact h.save
  | check w j =>
      simp only [next, check]
      split
      · exact h
      · rename_i st t freed _
        have h' : Kept { s with table := t, freed := s.freed ++ freed } := h
        cases st with
        | new => exact h'.keep hg.2 (p := .running j) rfl
        | inprogress => exact h'.drop rfl
        | done b sz =>
            cases b with
            | none => exact h
            | some b => exact h'.drop rfl
        | forgotten => exact h'.drop rfl
  | handled w j ret body =>
      have h' : Kept { s with
          heap := s.heap ++ [(Result.mk j ret body).buf]
          results := s.results ++ [Result.mk j ret body] } := h
      simp only [next, handled]
      split
      · exact h'.keep hg.2.1 rfl
      · exact h'.keep hg.2.1 rfl
  | record w j b =>
      simp only [next, record]
      split
      · exact h
      · exact h.keep (p := .choose j b) hg.2 rfl
  | choose w j b =>
      simp only [next, choose]
      split
      · exact h
      · exact h.drop rfl
  | tx w j c b sz ok => exact h.drop (w := w) (p := .sending j c b sz) rfl
  | sent w j c b sz => exact h.drop (w := w) (p := .idle) rfl
  | txReply w j r ok => exact h.drop (w := w) (p := .idle) rfl
  | die c => exact h

theorem kept_of_run {tr : List (Act χ)} (h : (lts e).Run tr s) : Kept s := by
  refine h.invariant (I := fun _ s => Kept s) ?_ fun _ _ _ _ hi hg => hi.step hg
  rintro s rfl w j hj
  cases hj

/-- A dispatch changes its connection only where it chooses one. -/
theorem conn_next {a : Act χ} (hg : guard e s a) (hb : ∀ w c b, a ≠ .begin w c b)
    (hc : ∀ w j b, a ≠ .choose w j b) (w : Worker) (c : χ)
    (h : ((s.next e a).workers w).conn = some c) : (s.workers w).conn = some c := by
  cases a with
  | begin w c b => exact absurd rfl (hb w c b)
  | choose w j b => exact absurd rfl (hc w j b)
  | gotPdu c b accept =>
      simp only [next] at h
      split at h <;> exact h
  | seen w' j => exact conn_setWorker hg.2 (p := .save j) (fun _ h => h) w c h
  | save w' j => exact conn_setWorker hg.2 (p := .check j) (fun _ h => h) w c h
  | check w' j =>
      simp only [next, check] at h
      split at h
      · exact h
      · rename_i st t freed _
        cases st with
        | new => exact conn_setWorker hg.2 (p := .running j) (fun _ h => h) w c h
        | inprogress => exact conn_setWorker hg.2 (p := .idle) (fun _ h => by cases h) w c h
        | done b sz =>
            cases b with
            | none => exact h
            | some b => exact conn_setWorker hg.2 (p := .send j j.conn b sz) (fun _ h => h) w c h
        | forgotten => exact conn_setWorker hg.2 (p := .reply j _) (fun _ h => h) w c h
  | handled w' j ret body =>
      simp only [next, handled] at h
      split at h
      · exact conn_setWorker hg.2.1 (p := .record j _) (fun _ h => h) w c h
      · exact conn_setWorker hg.2.1 (p := .choose j _) (fun _ h => h) w c h
  | record w' j b =>
      simp only [next, record] at h
      split at h
      · exact h
      · exact conn_setWorker hg.2 (p := .choose j b) (fun _ h => h) w c h
  | tx w' j c' b sz ok => exact conn_setWorker hg.2.1 (p := .sending j c' b sz) (fun _ h => h) w c h
  | sent w' j c' b sz => exact conn_setWorker hg.2 (p := .idle) (fun _ h => by cases h) w c h
  | txReply w' j r ok => exact conn_setWorker hg.2.1 (p := .idle) (fun _ h => by cases h) w c h
  | die c => exact h

theorem conns_next {a : Act χ} (ha : ∀ w j, a ≠ .save w j) : (s.next e a).conns = s.conns := by
  cases a with
  | save w j => exact absurd rfl (ha w j)
  | gotPdu c b accept =>
      simp only [next]
      split <;> rfl
  | begin w c b =>
      obtain ⟨_, _, _, _, heq⟩ := begin_eq (e := e) s w c b
      rw [next, heq]
  | check w j =>
      obtain ⟨_, _, _, _, _, heq⟩ := check_eq s w j
      rw [next, heq]
  | handled w j ret body =>
      simp only [next, handled]
      split <;> rfl
  | record w j b =>
      simp only [next, record]
      split <;> rfl
  | choose w j b =>
      simp only [next, choose]
      split <;> rfl
  | _ => rfl

/-- If there is a connection to choose it is chosen, and the map stays. -/
theorem Agree.choose {m : Map (Option χ)} {j : Job χ} {c : χ} (h : Agree m s.conns)
    (ht : s.target j = some c) : choosePtr s.dead m j = (some c, m) := by
  rw [target] at ht
  by_cases hd : j.conn ∈ s.dead
  · rw [if_pos hd] at ht
    have hl : m.lookup j.nonce = some (some c) := by rw [h, ht]; rfl
    rw [choosePtr, if_pos hd]
    simp only [index, hl]
    split
    · rfl
    · rename_i hne
      rw [not_not.mp hne]
  · rw [if_neg hd] at ht
    rw [choosePtr, if_neg hd, ht]

/-- Otherwise the entry that is made has a null pointer. -/
theorem Agree.choose_null {m : Map (Option χ)} {j : Job χ} (h : Agree m s.conns)
    (ht : s.target j = none) : choosePtr s.dead m j = (none, m.insert j.nonce none) := by
  rw [target] at ht
  by_cases hd : j.conn ∈ s.dead
  · rw [if_pos hd] at ht
    have hl : m.lookup j.nonce = none := by rw [h, ht]; rfl
    rw [choosePtr, if_pos hd]
    simp only [index, hl]
    exact if_pos (by simp)
  · rw [if_neg hd] at ht
    cases ht

end Rpcs

namespace Pointed

open Rpcs (Env Agree)

variable {χ : Type*} [DecidableEq χ] {e : Env χ} {s : Pointed χ} {a : Refs.Act χ} {tr : List (Refs.Act χ)}

/-- The server's own state follows `Refs`, and agrees with it as long as it runs. -/
structure Follows (e : Env χ) (tr : List (Refs.Act χ)) (s : Pointed χ) : Prop where
  run : (Refs.lts e).Run tr s.refs
  conns : s.refs.srv.aborted = false → Agree s.conns s.refs.srv.conns
  ptr : s.refs.srv.aborted = false → ∀ w c, (s.refs.srv.workers w).conn = some c → s.ptr w = some c

theorem Follows.other (h : Follows e tr s) (hg : s.refs.guard e a) (hb : ∀ w j, a ≠ .begin w j)
    (hs : ∀ w j, a ≠ .other (.save w j)) (hc : ∀ w j b, a ≠ .other (.choose w j b)) :
    Follows e (a :: tr) { s with refs := s.refs.next e a } := by
  have hsrv : (s.refs.next e a).srv.conns = s.refs.srv.conns ∧
      ∀ w c, ((s.refs.next e a).srv.workers w).conn = some c → (s.refs.srv.workers w).conn = some c := by
    cases hb' : Refs.srvAct a with
    | none =>
        have hst : (s.refs.next e a).srv = s.refs.srv := (Refs.srv_component e).stays s.refs a hg hb'
        rw [hst]
        exact ⟨rfl, fun _ _ h => h⟩
    | some b =>
        obtain ⟨hgb, hn⟩ := (Refs.srv_component e).moves s.refs a b hg hb'
        have hn' : (s.refs.next e a).srv = s.refs.srv.next e b := hn
        rw [hn']
        have hne : (∀ w j, b ≠ .save w j) ∧ (∀ w c b', b ≠ .begin w c b') ∧ ∀ w j b', b ≠ .choose w j b' := by
          cases a with
          | addObjJob j succ => cases hb'; simp
          | begin w j => exact absurd rfl (hb w j)
          | other a =>
              cases hb'
              refine ⟨fun w j h => hs w j (h ▸ rfl), fun w c b' h => ?_, fun w j b' h => hc w j b' (h ▸ rfl)⟩
              subst h
              exact hg.2.2
          | _ => cases hb'
        exact ⟨Rpcs.conns_next hne.1, Rpcs.conn_next hgb hne.2.1 hne.2.2⟩
  refine ⟨.step h.run hg, fun _ => ?_, fun _ w c hw => h.ptr hg.1.1 w c (hsrv.2 w c hw)⟩
  show Agree s.conns (s.refs.next e a).srv.conns
  rw [hsrv.1]
  exact h.conns hg.1.1

theorem Follows.begin {w : Worker} {j : DJob χ} (h : Follows e tr s) (hg : s.refs.guard e (.begin w j)) :
    Follows e (.begin w j :: tr) (next e s (.begin w j)) := by
  have hsrv : (s.refs.next e (.begin w j)).srv = s.refs.srv.next e (.begin w j.conn j.buf) :=
    Refs.srv_begin e s.refs w j
  refine ⟨.step h.run hg, fun _ => ?_, fun _ w' c hw => ?_⟩
  · show Agree s.conns (s.refs.next e (.begin w j)).srv.conns
    rw [hsrv, Rpcs.conns_next (by simp)]
    exact h.conns hg.1.1
  · have hw' : ((s.refs.srv.next e (.begin w j.conn j.buf)).workers w').conn = some c := hsrv ▸ hw
    show Function.update s.ptr w (some j.conn) w' = some c
    have hidle : s.refs.srv.workers w = .idle := hg.2.2.2.1
    simp only [Rpcs.next, Rpcs.begin] at hw'
    by_cases hww : w' = w
    · subst hww
      rw [Function.update_self]
      split at hw'
      · rw [hidle] at hw'
        cases hw'
      · split at hw'
        · simpa [Rpcs.setWorker, Pc.conn] using hw'
        · split at hw'
          · rw [hidle] at hw'
            cases hw'
          · split at hw'
            · simpa [Rpcs.enter, Rpcs.setWorker, Pc.conn] using hw'
            · simpa [Rpcs.invoke, Rpcs.setWorker, Pc.conn] using hw'
    · rw [Function.update_of_ne hww]
      apply h.ptr hg.1.1 w' c
      rcases Rpcs.workers_next e s.refs.srv (.begin w j.conn j.buf) with hth | ⟨w₁, p, q, hm, hth⟩
      · exact hth ▸ hw'
      · cases hm
        have hn : (s.refs.srv.next e (.begin w j.conn j.buf)).workers w' = s.refs.srv.workers w' := by
          rw [hth, Function.update_of_ne hww]
        rw [← hn]
        exact hw'

theorem Follows.save {w : Worker} {j : Job χ} (h : Follows e tr s) (hg : s.refs.guard e (.other (.save w j))) :
    Follows e (.other (.save w j) :: tr) (next e s (.other (.save w j))) := by
  obtain ⟨m, hm, hagree⟩ := (h.conns hg.1.1).save (e := e) (j := j)
  simp only [next, hm]
  refine ⟨.step h.run hg, fun _ => hagree, fun _ w' c hw => h.ptr hg.1.1 w' c ?_⟩
  exact Rpcs.conn_next hg.2.1 (by simp) (by simp) w' c hw

theorem Follows.choose {w : Worker} {j : Job χ} {b : Addr} (h : Follows e tr s)
    (hg : s.refs.guard e (.other (.choose w j b))) :
    Follows e (.other (.choose w j b) :: tr) (next e s (.other (.choose w j b))) := by
  have hagree := h.conns hg.1.1
  have hsrv : (s.refs.next e (.other (.choose w j b))).srv = s.refs.srv.choose w j b := rfl
  cases ht : s.refs.srv.target j with
  | none =>
      have hab : (s.refs.next e (.other (.choose w j b))).srv.aborted = true := by
        rw [hsrv, Rpcs.choose, ht]
      refine ⟨.step h.run hg, fun hn => ?_, fun hn => ?_⟩
      · exact absurd (hn.symm.trans hab) (by simp)
      · exact absurd (hn.symm.trans hab) (by simp)
  | some c =>
      simp only [next, hagree.choose ht]
      refine ⟨.step h.run hg, fun _ => ?_, fun _ w' c' hw => ?_⟩
      · rw [hsrv, Rpcs.choose, ht]
        exact hagree
      · rw [hsrv, Rpcs.choose, ht] at hw
        show Function.update s.ptr w (some c) w' = some c'
        by_cases hww : w' = w
        · subst hww
          rw [Function.update_self]
          simpa [Rpcs.setWorker, Pc.conn] using hw
        · rw [Function.update_of_ne hww]
          exact h.ptr hg.1.1 w' c' (by simpa [Rpcs.setWorker, Function.update_of_ne hww] using hw)

theorem Follows.step (h : Follows e tr s) (hg : s.refs.guard e a) : Follows e (a :: tr) (next e s a) := by
  cases a with
  | begin w j => exact h.begin hg
  | other a =>
      cases a with
      | save w j => exact h.save hg
      | choose w j b => exact h.choose hg
      | _ => exact h.other hg (by simp) (by simp) (by simp)
  | _ => exact h.other hg (by simp) (by simp) (by simp)

theorem follows_of_run (h : (lts e).Run tr s) : Follows e tr s := by
  refine h.invariant (I := Follows e) ?_ fun _ _ _ _ hi hg => hi.step hg
  rintro s rfl
  refine ⟨.init rfl, fun _ n => rfl, fun _ w c hw => ?_⟩
  cases hw

/-! ## Null pointers -/

theorem nulled (h : Follows e tr s) (hg : s.refs.guard e a) (ha : Nulls s a) :
    ∃ n, (next e s a).conns.lookup n = some none := by
  cases a with
  | other a =>
      cases a with
      | choose w j b =>
          obtain ⟨hn, hd⟩ := ha
          have hr := h.run.component (Refs.srv_component e)
          have hnone : s.refs.srv.conns.lookup j.nonce = none := by
            cases hl : s.refs.srv.conns.lookup j.nonce with
            | none => rfl
            | some c => exact absurd hn ((Rpcs.sourced_of_run hr).conns _ _ hl).1
          have ht : s.refs.srv.target j = none := by rw [Rpcs.target, if_pos hd, hnone]
          refine ⟨j.nonce, ?_⟩
          simp only [next, (h.conns hg.1.1).choose_null ht]
          exact AList.lookup_insert _
      | _ => exact ha.elim
  | _ => exact ha.elim

theorem not_nulled (h : Follows e tr s) (hg : s.refs.guard e a) (ha : ¬ Nulls s a) (n : UInt32) :
    (next e s a).conns.lookup n ≠ some none := by
  have hagree := h.conns hg.1.1
  cases a with
  | begin w j => exact hagree.not_null n
  | other a =>
      cases a with
      | save w j =>
          obtain ⟨m, hm, hag⟩ := hagree.save (e := e) (j := j)
          simp only [next, hm]
          exact hag.not_null n
      | choose w j b =>
          have ht : ∃ c, s.refs.srv.target j = some c := by
            unfold Rpcs.target
            split
            · rename_i hd
              have hk := Rpcs.kept_of_run (h.run.component (Refs.srv_component e)) w j
                (by rw [show s.refs.srv.workers w = .choose j b from hg.2.1.2]; rfl) fun h0 => ha ⟨h0, hd⟩
              exact Option.ne_none_iff_exists'.mp hk
            · exact ⟨_, rfl⟩
          obtain ⟨c, ht⟩ := ht
          simp only [next, hagree.choose ht]
          exact hagree.not_null n
      | _ => exact hagree.not_null n
  | _ => exact hagree.not_null n

/-- The worker's reference to the connection is one of those that its `refno_` counts. -/
def Counted (s : Refs χ) (w : Worker) (c : χ) : Prop :=
  ∃ H : Finset Worker, (∀ w ∉ H, s.srv.workers w = .idle) ∧ w ∈ H ∧ (s.srv.workers w).held = some c ∧
    s.claims H c ≤ s.refno c

theorem counted_of_run {s : Refs χ} {w : Worker} {c : χ} (h : (Refs.lts e).Run tr s)
    (hn : s.srv.aborted = false) (hb : ∀ a ∈ tr, Refs.takesBack a = none)
    (hw : (s.srv.workers w).held = some c) : Counted s w c := by
  obtain ⟨H, hidle, heven⟩ := Refs.balanced_of_run h hn
  refine ⟨H, hidle, ?_, hw, ?_⟩
  · by_contra hm
    rw [hidle w hm] at hw
    cases hw
  · have hr := (heven c).refno
    have h0 : Refs.takenFrom tr c = 0 := by
      rw [Refs.takenFrom, List.filterMap_eq_nil_iff.mpr hb]
      rfl
    omega

/-- `conns_` has no null pointer, and whenever a dispatch passes its reply to `send` or gives its connection
back, the pointer is not null and the worker has a reference. -/
structure Valid (e : Env χ) (s : Pointed χ) : Prop where
  conns : ∀ n, s.conns.lookup n ≠ some none
  tx : ∀ w j c b sz ok, s.refs.guard e (.other (.tx w j c b sz ok)) → s.ptr w = some c ∧ Counted s.refs w c
  sent : ∀ w j c b sz, s.refs.guard e (.other (.sent w j c b sz)) → s.ptr w = some c ∧ Counted s.refs w c

theorem unnulled_of_run (h : (lts e).Run tr s) (hn : ∀ n, s.conns.lookup n ≠ some none) :
    ((lts e).restrict fun s a => ¬ Nulls s a).Run tr s := by
  induction h with
  | init h => exact .init h
  | @step tr s a h hg ih =>
      have hfol := follows_of_run h
      refine .step (ih (hfol.conns hg.1.1).not_null) ⟨hg, fun ha => ?_⟩
      obtain ⟨n, hnull⟩ := nulled hfol hg ha
      exact hn n hnull

theorem not_null_of_run (h : ((lts e).restrict fun s a => ¬ Nulls s a).Run tr s) (n : UInt32) :
    s.conns.lookup n ≠ some none := by
  cases h with
  | init h =>
      obtain rfl : s = init := h
      simp [init]
  | step h hg => exact not_nulled (follows_of_run h.of_restrict) hg.1 hg.2 n

/-- As long as `got_pdu` takes back no job that the pool has, the connection for a reply is valid if and only
if none was chosen for a client without a nonce whose own connection was dead. -/
theorem valid_iff (h : (lts e).Run tr s) (hb : ∀ a ∈ tr, Refs.takesBack a = none) :
    Valid e s ↔ ((lts e).restrict fun s a => ¬ Nulls s a).Run tr s := by
  have hfol := follows_of_run h
  constructor
  · exact fun hv => unnulled_of_run h hv.conns
  · intro hr
    refine ⟨not_null_of_run hr, fun w j c b sz ok hg => ?_, fun w j c b sz hg => ?_⟩
    · have hw : s.refs.srv.workers w = .send j c b sz := hg.2.1.2.1
      refine ⟨hfol.ptr hg.1.1 w c (by rw [hw]; rfl), ?_⟩
      exact counted_of_run hfol.run hg.1.1 hb (by rw [hw]; rfl)
    · have hw : s.refs.srv.workers w = .sending j c b sz := hg.2.1.2
      refine ⟨hfol.ptr hg.1.1 w c (by rw [hw]; rfl), ?_⟩
      exact counted_of_run hfol.run hg.1.1 hb (by rw [hw]; rfl)

open Refs.Lone

/-- The connection of a client dies while the handler runs. The reply goes out on a later one, which another
call of the client came in on. -/
theorem valid_iff_later : ∃ tr s, (lts env).Run tr s ∧ s.ptr 0 = some 1 ∧ Valid env s := by
  let j : Job Nat := ⟨0, req 7⟩
  let q : Request := ⟨⟨3, 2, 5, 7, 0⟩, []⟩
  let first : List (Rpcs.Act Nat) := [.seen 0 j, .save 0 j, .check 0 j]
  let later : List (Refs.Act Nat) := [.accept 1 1 ∅, .collect 1 0 [], .enlist 1]
  let last : List (Rpcs.Act Nat) :=
    [.seen 1 ⟨1, q⟩, .save 1 ⟨1, q⟩, .handled 0 j 0 [], .die 0, .record 0 j 0, .choose 0 j 0]
  let l : List (Refs.Act Nat) := arrive 0 0 ++ queue 0 0 (req 7) ++ .begin 0 (job 0 0 (req 7)) ::
    first.map .other ++ later ++ queue 1 1 q ++ .begin 1 (job 1 1 q) :: last.map .other
  obtain ⟨s, hr, hs⟩ := Lts.run_of_exec (M := (lts env).restrict fun s a => ¬ Nulls s a) (s := init) (l := l)
    (f := fun s => decide (s.ptr 0 = some 1)) rfl (by decide +kernel)
  exact ⟨_, s, hr.of_restrict, of_decide_eq_true hs, (valid_iff hr.of_restrict (by decide)).mpr hr⟩

/-- The connection of a client without a nonce dies while the handler runs. -/
theorem nonce_zero_nulls : ∃ tr s, (lts env).Run tr s ∧ s.conns.lookup 0 = some none ∧ s.ptr 0 = none ∧
    s.refs.srv.aborted = true ∧ ¬ Valid env s := by
  let q : Request := ⟨⟨2, 2, 0, 7, 0⟩, []⟩
  let j : Job Nat := ⟨0, q⟩
  let l : List (Refs.Act Nat) := arrive 0 0 ++ queue 0 0 q ++ .begin 0 (job 0 0 q) ::
    [.handled 0 j 0 [], .die 0, .choose 0 j 0].map .other
  obtain ⟨s, hr, hs⟩ := Lts.run_of_exec (M := lts env) (s := init) (l := l)
    (f := fun s => decide (s.conns.lookup 0 = some none ∧ s.ptr 0 = none ∧ s.refs.srv.aborted = true)) rfl
    (by decide +kernel)
  obtain ⟨hn, hp, ha⟩ := of_decide_eq_true hs
  exact ⟨_, s, hr, hn, hp, ha, fun hv => hv.conns 0 hn⟩

end Pointed
end StanDfs
