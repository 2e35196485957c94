import Mathlib.Data.List.AList
import Mathlib.Data.List.Nodup
import Mathlib.Tactic.Common

/-!
# The reply window of a server

For each client that wants at-most-once logic the server keeps the calls it has seen, with their
replies, and the greatest `xid_rep` the client has sent. A call below that floor is forgotten.
-/

namespace StanDfs

/-- `std::map` with `unsigned int` keys. -/
abbrev Map (β : Type*) := AList fun _ : UInt32 => β

/-- The address of a reply buffer. -/
abbrev Addr := Nat

/-- `reply_t`; `sz` is -1 while the call is in progress. -/
structure ReplyT where
  xid : UInt32
  buf : Option Addr
  sz : Int
  deriving DecidableEq, Repr

/-- `rpcstate_t`, with what `DONE` returns in `*b` and `*sz`. -/
inductive Rpcstate
  | new
  | inprogress
  | done (b : Option Addr) (sz : Int)
  | forgotten
  deriving DecidableEq, Repr

structure ReplyTable where
  replyWindow : Map (List ReplyT)
  rereplyWindow : Map UInt32

namespace ReplyTable

def empty : ReplyTable := ⟨∅, ∅⟩

/-- The loop of `checkduplicate_and_update`: what stays in the list, what is freed, and the entry of
the call itself, at which the loop stops. -/
def scan (xid xidRep : UInt32) : List ReplyT → List ReplyT × List Addr × Option ReplyT
  | [] => ([], [], none)
  | e :: es =>
    if e.xid = xid then (e :: es, [], some e)
    else
      let (kept, freed, hit) := scan xid xidRep es
      if e.xid < xidRep then (kept, e.buf.toList ++ freed, hit)
      else (e :: kept, freed, hit)

/-- The loop of `add_reply`: the first entry of the call gets the reply. -/
def setReply (xid : UInt32) (b : Option Addr) (sz : Int) : List ReplyT → Option (List ReplyT)
  | [] => none
  | e :: es =>
    if e.xid = xid then some ({ e with buf := b, sz := sz } :: es)
    else (setReply xid b sz es).map (e :: ·)

/-- `add_reply`. No result means that the client or the call is not there, which is `assert(0)` for the
call. -/
def addReply (t : ReplyTable) (cltNonce xid : UInt32) (b : Option Addr) (sz : Int) :
    Option ReplyTable :=
  match t.replyWindow.lookup cltNonce with
  | none => none
  | some l =>
    if sz = -1 then
      some { t with replyWindow := t.replyWindow.insert cltNonce (l ++ [⟨xid, none, -1⟩]) }
    else
      match setReply xid b sz l with
      | none => none
      | some l => some { t with replyWindow := t.replyWindow.insert cltNonce l }

/-- The floor once a request with `xid_rep` has come. -/
def newFloor (t : ReplyTable) (cltNonce xidRep : UInt32) : UInt32 :=
  match t.rereplyWindow.lookup cltNonce with
  | none => xidRep
  | some r => if xidRep > r then xidRep else r

/-- `checkduplicate_and_update`, with the buffers it frees. No result means that `reply_window_` does not
know the client. -/
def checkduplicateAndUpdate (t : ReplyTable) (cltNonce xid xidRep : UInt32) :
    Option (Rpcstate × ReplyTable × List Addr) :=
  let xidRep := t.newFloor cltNonce xidRep
  let t := { t with rereplyWindow := t.rereplyWindow.insert cltNonce xidRep }
  if xid < xidRep then some (.forgotten, t, [])
  else
    match t.replyWindow.lookup cltNonce with
    | none => none
    | some l =>
      let (kept, freed, hit) := scan xid xidRep l
      let t := { t with replyWindow := t.replyWindow.insert cltNonce kept }
      match hit with
      | some e =>
        if e.sz = -1 then some (.inprogress, t, freed)
        else some (.done e.buf e.sz, t, freed)
      | none => (addReply t cltNonce xid none (-1)).map fun t => (.new, t, freed)

/-- The object `dispatch` creates for a client it has not seen. -/
def create (t : ReplyTable) (cltNonce : UInt32) : ReplyTable :=
  match t.replyWindow.lookup cltNonce with
  | some _ => t
  | none => { t with replyWindow := t.replyWindow.insert cltNonce [] }

/-- `free_reply_window`, with the buffers it frees. -/
def freeReplyWindow (t : ReplyTable) : ReplyTable × List Addr :=
  ({ t with replyWindow := ∅ },
    t.replyWindow.entries.flatMap fun c => c.2.filterMap ReplyT.buf)

/-! ## The view of one client -/

/-- The list of a client; a client that is not known has none. -/
def replies (t : ReplyTable) (cltNonce : UInt32) : List ReplyT :=
  (t.replyWindow.lookup cltNonce).getD []

/-- A call is below its client's floor. -/
def Below (t : ReplyTable) (cltNonce xid : UInt32) : Prop :=
  ∃ f, t.rereplyWindow.lookup cltNonce = some f ∧ xid < f

theorem replies_create (t : ReplyTable) (n m : UInt32) : (t.create n).replies m = t.replies m := by
  unfold create
  split
  · rfl
  · rename_i h
    by_cases hm : m = n
    · subst hm
      simp [replies, h]
    · simp [replies, AList.lookup_insert_ne hm]

theorem rereplyWindow_create (t : ReplyTable) (n : UInt32) :
    (t.create n).rereplyWindow = t.rereplyWindow := by
  unfold create
  split <;> rfl

/-- The client has a list. -/
def Present (t : ReplyTable) (n : UInt32) : Prop := ∃ l, t.replyWindow.lookup n = some l

theorem present_insert {t : ReplyTable} {n m : UInt32} (l : List ReplyT) (h : t.Present m) :
    ∃ l', (t.replyWindow.insert n l).lookup m = some l' := by
  by_cases hm : m = n
  · subst hm
    exact ⟨l, AList.lookup_insert _⟩
  · rw [AList.lookup_insert_ne hm]
    exact h

theorem present_create (t : ReplyTable) (n : UInt32) : (t.create n).Present n := by
  unfold create
  split
  · rename_i l h
    exact ⟨l, h⟩
  · exact ⟨[], AList.lookup_insert _⟩

theorem Present.create {t : ReplyTable} {m : UInt32} (h : t.Present m) (n : UInt32) :
    (t.create n).Present m := by
  unfold ReplyTable.create
  split
  · exact h
  · exact present_insert [] h

/-! ## What the scan does -/

/-- A scan keeps `kept` of the list `l` and frees `freed`. What it removes is below the floor `f`. -/
structure Swept (f : UInt32) (l kept : List ReplyT) (freed : List Addr) (removed : List ReplyT) :
    Prop where
  sub : kept.Sublist l
  perm : l.Perm (kept ++ removed)
  bufs : freed = removed.filterMap ReplyT.buf
  below : ∀ e ∈ removed, e.xid < f

theorem Swept.refl (f : UInt32) (l : List ReplyT) : Swept f l l [] [] :=
  ⟨List.Sublist.refl l, by simp, rfl, by simp⟩

theorem scan_swept {xid f : UInt32} {l kept : List ReplyT} {freed : List Addr}
    {hit : Option ReplyT} (h : scan xid f l = (kept, freed, hit)) :
    ∃ removed, Swept f l kept freed removed ∧ (∀ e ∈ removed, e.xid ≠ xid) ∧
      (∀ e, hit = some e → e ∈ kept ∧ e.xid = xid) ∧ (hit = none → ∀ e ∈ l, e.xid ≠ xid) := by
  induction l generalizing kept freed hit with
  | nil =>
      cases h
      exact ⟨[], .refl _ _, by simp, by simp, by simp⟩
  | cons e es ih =>
      unfold scan at h
      split at h
      · rename_i he
        cases h
        refine ⟨[], .refl _ _, by simp, ?_, by simp⟩
        rintro e' h
        cases h
        exact ⟨by simp, he⟩
      · rename_i he
        cases hs : scan xid f es with
        | mk kept' p =>
            obtain ⟨freed', hit'⟩ := p
            obtain ⟨removed, hsw, hne, hsome, hnone⟩ := ih hs
            rw [hs] at h
            simp only at h
            split at h
            · rename_i hlt
              cases h
              refine ⟨e :: removed, ⟨?_, ?_, ?_, ?_⟩, ?_, hsome, ?_⟩
              · exact hsw.sub.cons e
              · exact (hsw.perm.cons e).trans List.perm_middle.symm
              · rw [hsw.bufs]
                cases hb : e.buf <;> simp [hb]
              · simpa [hlt] using hsw.below
              · simpa [he] using hne
              · simpa [he] using hnone
            · cases h
              refine ⟨removed, ⟨?_, ?_, hsw.bufs, hsw.below⟩, hne, ?_, ?_⟩
              · exact hsw.sub.cons_cons e
              · exact hsw.perm.cons e
              · intro e' he'
                exact ⟨by simp [(hsome e' he').1], (hsome e' he').2⟩
              · simpa [he] using hnone

/-- The entries that the loop passes before it stops. -/
def passed (xid : UInt32) (l : List ReplyT) : List ReplyT := l.takeWhile fun e => e.xid != xid

theorem passed_cons_ne {xid : UInt32} {e : ReplyT} (es : List ReplyT) (h : e.xid ≠ xid) :
    passed xid (e :: es) = e :: passed xid es := by
  simp [passed, h]

theorem scan_keeps {xid f : UInt32} {l : List ReplyT} {e : ReplyT} (he : e ∈ l)
    (hs : e ∈ passed xid l → ¬ e.xid < f) : e ∈ (scan xid f l).1 := by
  induction l with
  | nil => cases he
  | cons e' es ih =>
      unfold scan
      split
      · exact he
      · rename_i hne
        rw [passed_cons_ne es hne] at hs
        rcases List.mem_cons.mp he with rfl | he
        · simp only [if_neg (hs (by simp))]
          simp
        · have hk := ih he fun h => hs (List.mem_cons_of_mem _ h)
          simp only
          split
          · exact hk
          · exact List.mem_cons_of_mem _ hk

theorem scan_miss {xid f : UInt32} {l : List ReplyT} (h : (scan xid f l).2.2 = none) :
    ∀ e ∈ (scan xid f l).1, ¬ e.xid < f := by
  induction l with
  | nil => simp [scan]
  | cons e es ih =>
      rw [scan] at h ⊢
      split at h
      · cases h
      · rename_i hne
        rw [if_neg hne]
        simp only at h ⊢
        split at h
        · rename_i hlt
          rw [if_pos hlt]
          exact ih h
        · rename_i hge
          rw [if_neg hge]
          intro e' he'
          rcases List.mem_cons.mp he' with rfl | he'
          · exact hge
          · exact ih h e' he'

/-! ## What `checkduplicate_and_update` does -/

theorem le_newFloor (t : ReplyTable) (n r : UInt32) : r ≤ t.newFloor n r := by
  unfold newFloor
  split
  · exact UInt32.le_refl r
  · split
    · exact UInt32.le_refl r
    · rename_i h
      exact UInt32.not_lt.mp h

theorem floor_le_newFloor {t : ReplyTable} {n f : UInt32} (r : UInt32)
    (h : t.rereplyWindow.lookup n = some f) : f ≤ t.newFloor n r := by
  rw [newFloor, h]
  simp only
  split
  · rename_i hlt
    exact UInt32.le_of_lt hlt
  · exact UInt32.le_refl f

theorem newFloor_eq (t : ReplyTable) (n r : UInt32) :
    t.newFloor n r = r ∨ t.rereplyWindow.lookup n = some (t.newFloor n r) := by
  unfold newFloor
  split
  · exact .inl rfl
  · rename_i f h
    split
    · exact .inl rfl
    · exact .inr h

/-- The table after a check of client `n` with the list `l`. -/
def withReplies (t : ReplyTable) (n r : UInt32) (l : List ReplyT) : ReplyTable :=
  ⟨t.replyWindow.insert n l, t.rereplyWindow.insert n (t.newFloor n r)⟩

/-- The outcomes of `checkduplicate_and_update` for the call `x` of client `n`, sent with `xid_rep` `r`. -/
inductive Checked (t : ReplyTable) (n x r : UInt32) : Rpcstate → ReplyTable → List Addr → Prop
  | forgotten : x < t.newFloor n r →
      Checked t n x r .forgotten
        { t with rereplyWindow := t.rereplyWindow.insert n (t.newFloor n r) } []
  | inprogress {l kept removed : List ReplyT} {freed : List Addr} {e : ReplyT} :
      t.newFloor n r ≤ x → t.replyWindow.lookup n = some l →
      Swept (t.newFloor n r) l kept freed removed → e ∈ kept → e.xid = x → e.sz = -1 →
      Checked t n x r .inprogress (t.withReplies n r kept) freed
  | done {l kept removed : List ReplyT} {freed : List Addr} {e : ReplyT} :
      t.newFloor n r ≤ x → t.replyWindow.lookup n = some l →
      Swept (t.newFloor n r) l kept freed removed → e ∈ kept → e.xid = x → e.sz ≠ -1 →
      Checked t n x r (.done e.buf e.sz) (t.withReplies n r kept) freed
  | new {l kept removed : List ReplyT} {freed : List Addr} :
      t.newFloor n r ≤ x → t.replyWindow.lookup n = some l →
      Swept (t.newFloor n r) l kept freed removed → (∀ e ∈ l, e.xid ≠ x) →
      Checked t n x r .new (t.withReplies n r (kept ++ [⟨x, none, -1⟩])) freed

theorem checked {t t' : ReplyTable} {n x r : UInt32} {st : Rpcstate} {freed : List Addr}
    (h : t.checkduplicateAndUpdate n x r = some (st, t', freed)) : Checked t n x r st t' freed := by
  simp only [checkduplicateAndUpdate] at h
  split at h
  · rename_i hlt
    cases h
    exact .forgotten hlt
  · rename_i hge
    have hge := UInt32.not_lt.mp hge
    split at h
    · cases h
    · rename_i l hl
      cases hs : scan x (t.newFloor n r) l with
      | mk kept p =>
          obtain ⟨freed', hit⟩ := p
          obtain ⟨removed, hsw, _, hsome, hnone⟩ := scan_swept hs
          rw [hs] at h
          simp only at h
          cases hit with
          | some e =>
              obtain ⟨he, hx⟩ := hsome e rfl
              simp only at h
              split at h
              · rename_i hsz
                cases h
                exact .inprogress hge hl hsw he hx hsz
              · rename_i hsz
                cases h
                exact .done hge hl hsw he hx hsz
          | none =>
              simp only [addReply, AList.lookup_insert, ↓reduceIte, Option.map_some, Option.some.injEq,
                Prod.mk.injEq, AList.insert_insert] at h
              obtain ⟨rfl, rfl, rfl⟩ := h
              exact .new hge hl hsw (hnone rfl)

/-- After a new call there is no entry below the floor. -/
theorem new_above {t t' : ReplyTable} {n x r : UInt32} {freed : List Addr}
    (h : t.checkduplicateAndUpdate n x r = some (.new, t', freed)) :
    ∀ e ∈ (t'.replyWindow.lookup n).getD [], ¬ e.xid < t.newFloor n r := by
  simp only [checkduplicateAndUpdate] at h
  split at h
  · cases h
  · rename_i hge
    split at h
    · cases h
    · rename_i l hl
      have hmiss := @scan_miss x (t.newFloor n r) l
      generalize scan x (t.newFloor n r) l = res at h hmiss
      obtain ⟨kept, freed', hit⟩ := res
      cases hit with
      | some e =>
          simp only at h
          split at h <;> cases h
      | none =>
          simp only [addReply, AList.lookup_insert, ↓reduceIte, Option.map_some, Option.some.injEq,
            Prod.mk.injEq] at h
          obtain ⟨_, rfl, _⟩ := h
          simp only [AList.lookup_insert, Option.getD_some]
          intro e he
          rcases List.mem_append.mp he with he | he
          · exact hmiss rfl e he
          · rw [List.mem_singleton.mp he]
            exact hge

theorem checkduplicateAndUpdate_ne_none {t : ReplyTable} {n x r : UInt32} {l : List ReplyT}
    (h : t.replyWindow.lookup n = some l) : t.checkduplicateAndUpdate n x r ≠ none := by
  simp only [checkduplicateAndUpdate, h]
  split
  · simp
  · cases scan x (t.newFloor n r) l with
    | mk kept p =>
        obtain ⟨freed, hit⟩ := p
        cases hit with
        | some e =>
            simp only
            split <;> simp
        | none => simp [addReply]

/-- A check erases no entry that satisfies `P`. -/
def Spares (P : ReplyT → Prop) (t : ReplyTable) (n x r : UInt32) : Prop :=
  x < t.newFloor n r ∨ ∀ e ∈ passed x (t.replies n), P e → ¬ e.xid < t.newFloor n r

instance (P : ReplyT → Prop) [DecidablePred P] (t : ReplyTable) (n x r : UInt32) :
    Decidable (Spares P t n x r) :=
  inferInstanceAs (Decidable (_ ∨ _))

@[simp] theorem replies_withReplies (t : ReplyTable) (n r : UInt32) (l : List ReplyT) :
    (t.withReplies n r l).replies n = l := by
  simp [withReplies, replies]

theorem replies_withReplies_ne (t : ReplyTable) {n m : UInt32} (r : UInt32) (l : List ReplyT)
    (h : m ≠ n) : (t.withReplies n r l).replies m = t.replies m := by
  simp [withReplies, replies, AList.lookup_insert_ne h]

theorem Spares.mem {P : ReplyT → Prop} {t t' : ReplyTable} {n x r : UInt32} {st : Rpcstate}
    {freed : List Addr} {e : ReplyT} (hs : Spares P t n x r)
    (h : t.checkduplicateAndUpdate n x r = some (st, t', freed)) (he : e ∈ t.replies n) (hP : P e) :
    e ∈ t'.replies n := by
  simp only [checkduplicateAndUpdate] at h
  split at h
  · cases h
    exact he
  · rename_i hge
    have hspare := hs.resolve_left hge
    split at h
    · cases h
    · rename_i l hl
      have hrep : t.replies n = l := by rw [replies, hl]; rfl
      rw [hrep] at he hspare
      have hk := scan_keeps he fun hp => hspare e hp hP
      generalize scan x (t.newFloor n r) l = res at h hk
      obtain ⟨kept, freed', hit⟩ := res
      cases hit with
      | some e' =>
          simp only at h
          split at h <;> cases h <;> simpa [replies] using hk
      | none =>
          simp only [addReply, AList.lookup_insert, ↓reduceIte, Option.map_some, Option.some.injEq,
            Prod.mk.injEq] at h
          obtain ⟨_, rfl, _⟩ := h
          simpa [replies] using Or.inl hk

/-- A call is below the floor or in the list. -/
def Known (t : ReplyTable) (n x : UInt32) : Prop :=
  t.Below n x ∨ ∃ e ∈ t.replies n, e.xid = x

theorem known_create {t : ReplyTable} (k : UInt32) {n x : UInt32} (h : t.Known n x) :
    (t.create k).Known n x := by
  rw [Known, Below, rereplyWindow_create, replies_create]
  exact h

/-- No call is in a client's list twice. -/
def Distinct (t : ReplyTable) : Prop := ∀ n, ((t.replies n).map ReplyT.xid).Nodup

section Checked

variable {t t' : ReplyTable} {n x r : UInt32} {st : Rpcstate} {freed : List Addr}

theorem Checked.floor (h : Checked t n x r st t' freed) :
    t'.rereplyWindow = t.rereplyWindow.insert n (t.newFloor n r) := by
  cases h <;> rfl

theorem Checked.present (h : Checked t n x r st t' freed) {m : UInt32} (hm : t.Present m) :
    t'.Present m := by
  cases h with
  | forgotten => exact hm
  | inprogress => exact present_insert _ hm
  | done => exact present_insert _ hm
  | new => exact present_insert _ hm

theorem Checked.replies_ne (h : Checked t n x r st t' freed) {m : UInt32} (hm : m ≠ n) :
    t'.replies m = t.replies m := by
  cases h with
  | forgotten => rfl
  | inprogress => exact replies_withReplies_ne t r _ hm
  | done => exact replies_withReplies_ne t r _ hm
  | new => exact replies_withReplies_ne t r _ hm

/-- The list of the client is swept, and a new call gets an entry. -/
theorem Checked.swept (h : Checked t n x r st t' freed) :
    ∃ kept removed, Swept (t.newFloor n r) (t.replies n) kept freed removed ∧
      (st ≠ .new → t'.replies n = kept) ∧
      (st = .new → t'.replies n = kept ++ [⟨x, none, -1⟩] ∧ ∀ e ∈ t.replies n, e.xid ≠ x) := by
  cases h with
  | forgotten => exact ⟨_, _, .refl _ _, fun _ => rfl, fun h => by cases h⟩
  | inprogress _ hl hs => 
      rw [replies, hl]
      exact ⟨_, _, hs, fun _ => replies_withReplies .., fun h => by cases h⟩
  | done _ hl hs =>
      rw [replies, hl]
      exact ⟨_, _, hs, fun _ => replies_withReplies .., fun h => by cases h⟩
  | new _ hl hs hne =>
      rw [replies, hl]
      exact ⟨_, _, hs, fun h => absurd rfl h, fun _ => ⟨replies_withReplies .., hne⟩⟩

theorem Checked.below_mono (h : Checked t n x r st t' freed) {m y : UInt32} (hb : t.Below m y) :
    t'.Below m y := by
  obtain ⟨f, hf, hlt⟩ := hb
  rw [Below, h.floor]
  by_cases hm : m = n
  · subst hm
    exact ⟨_, AList.lookup_insert _, UInt32.lt_of_lt_of_le hlt (floor_le_newFloor r hf)⟩
  · exact ⟨f, by rw [AList.lookup_insert_ne hm]; exact hf, hlt⟩

theorem Checked.mem (h : Checked t n x r st t' freed) {m : UInt32} {e : ReplyT}
    (he : e ∈ t.replies m) (hf : m = n → ¬ e.xid < t.newFloor n r) : e ∈ t'.replies m := by
  by_cases hm : m = n
  · subst hm
    obtain ⟨kept, removed, hs, hold, hnew⟩ := h.swept
    have hk : e ∈ kept := by
      rcases List.mem_append.mp (hs.perm.mem_iff.mp he) with hk | hr
      · exact hk
      · exact absurd (hs.below e hr) (hf rfl)
    by_cases hst : st = .new
    · rw [(hnew hst).1]
      exact List.mem_append_left _ hk
    · rw [hold hst]
      exact hk
  · rw [h.replies_ne hm]
    exact he

theorem Checked.of_mem (h : Checked t n x r st t' freed) {m : UInt32} {e : ReplyT}
    (he : e ∈ t'.replies m) :
    e ∈ t.replies m ∨ (st = .new ∧ m = n ∧ e = ⟨x, none, -1⟩) := by
  by_cases hm : m = n
  · subst hm
    obtain ⟨kept, removed, hs, hold, hnew⟩ := h.swept
    by_cases hst : st = .new
    · rw [(hnew hst).1] at he
      rcases List.mem_append.mp he with hk | he
      · exact .inl (hs.sub.subset hk)
      · exact .inr ⟨hst, rfl, List.mem_singleton.mp he⟩
    · rw [hold hst] at he
      exact .inl (hs.sub.subset he)
  · rw [h.replies_ne hm] at he
    exact .inl he

theorem Checked.known_mono (h : Checked t n x r st t' freed) {m y : UInt32} (hk : t.Known m y) :
    t'.Known m y := by
  rcases hk with hb | ⟨e, he, hy⟩
  · exact .inl (h.below_mono hb)
  · by_cases hf : m = n ∧ e.xid < t.newFloor n r
    · obtain ⟨rfl, hlt⟩ := hf
      rw [hy] at hlt
      exact .inl ⟨_, by rw [h.floor]; exact AList.lookup_insert _, hlt⟩
    · exact .inr ⟨e, h.mem he fun hm hlt => hf ⟨hm, hlt⟩, hy⟩

/-- Only a call that is not known is new. -/
theorem Checked.not_known (h : Checked t n x r .new t' freed) : ¬ t.Known n x := by
  obtain ⟨_, _, _, _, hnew⟩ := h.swept
  rintro (⟨f, hf, hlt⟩ | ⟨e, he, hx⟩)
  · have hle := floor_le_newFloor r hf
    cases h with
    | new hge => exact absurd hlt (UInt32.not_lt.mpr (UInt32.le_trans hle hge))
  · exact (hnew rfl).2 e he hx

/-- Whatever the answer, the call is known afterwards. -/
theorem Checked.known (h : Checked t n x r st t' freed) : t'.Known n x := by
  cases h with
  | forgotten hlt => exact .inl ⟨_, AList.lookup_insert _, hlt⟩
  | inprogress _ _ _ he hx => exact .inr ⟨_, by rw [replies_withReplies]; exact he, hx⟩
  | done _ _ _ he hx => exact .inr ⟨_, by rw [replies_withReplies]; exact he, hx⟩
  | new => exact .inr ⟨⟨x, none, -1⟩, by simp, rfl⟩

theorem Checked.distinct (h : Checked t n x r st t' freed) (hd : t.Distinct) : t'.Distinct := by
  intro m
  by_cases hm : m = n
  · subst hm
    obtain ⟨kept, removed, hs, hold, hnew⟩ := h.swept
    have hk : (kept.map ReplyT.xid).Nodup := (hs.sub.map _).nodup (hd m)
    by_cases hst : st = .new
    · rw [(hnew hst).1, List.map_append, List.nodup_append]
      refine ⟨hk, by simp, fun y hy z hz => ?_⟩
      obtain ⟨e, he, rfl⟩ := List.mem_map.mp hy
      obtain rfl : z = x := by simpa using hz
      exact (hnew hst).2 e (hs.sub.subset he)
    · rw [hold hst]
      exact hk
  · rw [h.replies_ne hm]
    exact hd m

end Checked

/-- A call that has no entry is new, or forgotten for the floor. -/
theorem Checked.of_not_mem {t t' : ReplyTable} {n x r : UInt32} {st : Rpcstate}
    {freed : List Addr} (h : Checked t n x r st t' freed) (hno : ∀ e ∈ t.replies n, e.xid ≠ x) :
    st = .new ∨ st = .forgotten ∧ x < t.newFloor n r := by
  have hlist : ∀ {l kept removed freed} {e : ReplyT}, t.replyWindow.lookup n = some l →
      Swept (t.newFloor n r) l kept freed removed → e ∈ kept → e.xid ≠ x := by
    intro l kept removed freed e hl hs he
    apply hno
    rw [replies, hl]
    exact hs.sub.subset he
  cases h with
  | forgotten hlt => exact .inr ⟨rfl, hlt⟩
  | inprogress _ hl hs he hx => exact absurd hx (hlist hl hs he)
  | done _ hl hs he hx => exact absurd hx (hlist hl hs he)
  | new => exact .inl rfl

/-! ## What `add_reply` does -/

theorem setReply_split {x : UInt32} {b : Option Addr} {sz : Int} {l l' : List ReplyT}
    (h : setReply x b sz l = some l') :
    ∃ pre e post, l = pre ++ e :: post ∧ e.xid = x ∧
      l' = pre ++ { e with buf := b, sz := sz } :: post := by
  induction l generalizing l' with
  | nil => cases h
  | cons e es ih =>
      unfold setReply at h
      split at h
      · rename_i hx
        cases h
        exact ⟨[], e, es, rfl, hx, rfl⟩
      · cases hs : setReply x b sz es with
        | none => simp [hs] at h
        | some es' =>
            obtain ⟨pre, e', post, rfl, hx, rfl⟩ := ih hs
            simp only [hs, Option.map_some, Option.some.injEq] at h
            exact ⟨e :: pre, e', post, rfl, hx, h.symm⟩

theorem setReply_ne_none {x : UInt32} {l : List ReplyT} (b : Option Addr) (sz : Int)
    (h : ∃ e ∈ l, e.xid = x) : setReply x b sz l ≠ none := by
  induction l with
  | nil => simp at h
  | cons e es ih =>
      unfold setReply
      split
      · simp
      · rename_i hx
        obtain ⟨e', he', hx'⟩ := h
        rcases List.mem_cons.mp he' with rfl | he'
        · exact absurd hx' hx
        · have hrest := ih ⟨e', he', hx'⟩
          cases hs : setReply x b sz es with
          | none => exact absurd hs hrest
          | some l => simp

theorem addReply_ne_none {t : ReplyTable} {n x : UInt32} (b : Option Addr) (sz : Int)
    (h : ∃ e ∈ t.replies n, e.xid = x) : t.addReply n x b sz ≠ none := by
  rw [replies] at h
  rw [addReply]
  cases hl : t.replyWindow.lookup n with
  | none => simp [hl] at h
  | some l =>
      rw [hl] at h
      simp only
      split
      · simp
      · cases hs : setReply x b sz l with
        | none => exact absurd hs (setReply_ne_none b sz h)
        | some l => simp

/-- The reply `b` of the call `x` of client `n` was recorded. -/
structure Recorded (t : ReplyTable) (n x : UInt32) (b : Option Addr) (sz : Int) (t' : ReplyTable) :
    Prop where
  floor : t'.rereplyWindow = t.rereplyWindow
  known : t.Present n
  insert : t'.replyWindow = t.replyWindow.insert n (t'.replies n)
  present : ∀ m, t.Present m → t'.Present m
  replies_ne : ∀ m, m ≠ n → t'.replies m = t.replies m
  split : ∃ pre e post, t.replies n = pre ++ e :: post ∧ e.xid = x ∧
    t'.replies n = pre ++ ⟨x, b, sz⟩ :: post

theorem recorded {t t' : ReplyTable} {n x : UInt32} {b : Option Addr} {sz : Int} (hsz : sz ≠ -1)
    (h : t.addReply n x b sz = some t') : Recorded t n x b sz t' := by
  unfold addReply at h
  split at h
  · cases h
  · rename_i l hl
    rw [if_neg hsz] at h
    split at h
    · cases h
    · rename_i l' hs
      obtain ⟨pre, e, post, rfl, rfl, rfl⟩ := setReply_split hs
      cases h
      refine ⟨rfl, ⟨_, hl⟩, by simp [replies], fun m hm => present_insert _ hm, fun m hm => ?_, pre, e,
        post, ?_, rfl, ?_⟩
      · simp [replies, AList.lookup_insert_ne hm]
      · simp [replies, hl]
      · simp [replies]

section Recorded

variable {t t' : ReplyTable} {n x : UInt32} {b : Option Addr} {sz : Int}

theorem Recorded.xids (h : Recorded t n x b sz t') (m : UInt32) :
    (t'.replies m).map ReplyT.xid = (t.replies m).map ReplyT.xid := by
  by_cases hm : m = n
  · subst hm
    obtain ⟨pre, e, post, hl, rfl, hl'⟩ := h.split
    rw [hl, hl']
    simp
  · rw [h.replies_ne m hm]

theorem Recorded.distinct (h : Recorded t n x b sz t') (hd : t.Distinct) : t'.Distinct := fun m => by
  rw [h.xids m]
  exact hd m

theorem Recorded.known_iff (h : Recorded t n x b sz t') {m y : UInt32} :
    t'.Known m y ↔ t.Known m y := by
  have hm : (∃ e ∈ t'.replies m, e.xid = y) ↔ ∃ e ∈ t.replies m, e.xid = y := by
    simpa using (by rw [h.xids m] : y ∈ (t'.replies m).map ReplyT.xid ↔ y ∈ (t.replies m).map ReplyT.xid)
  rw [Known, Known, hm, Below, Below, h.floor]

theorem Recorded.mem_self (h : Recorded t n x b sz t') : (⟨x, b, sz⟩ : ReplyT) ∈ t'.replies n := by
  obtain ⟨pre, e, post, _, _, hl'⟩ := h.split
  rw [hl']
  simp

theorem Recorded.of_mem (h : Recorded t n x b sz t') {m : UInt32} {e : ReplyT}
    (he : e ∈ t'.replies m) : e ∈ t.replies m ∨ (m = n ∧ e = ⟨x, b, sz⟩) := by
  by_cases hm : m = n
  · subst hm
    obtain ⟨pre, e', post, hl, _, hl'⟩ := h.split
    rw [hl'] at he
    rw [hl]
    rcases List.mem_append.mp he with he | he
    · exact .inl (by simp [he])
    · rcases List.mem_cons.mp he with he | he
      · exact .inr ⟨rfl, he⟩
      · exact .inl (by simp [he])
  · rw [h.replies_ne m hm] at he
    exact .inl he

theorem Recorded.mem (h : Recorded t n x b sz t') {m : UInt32} {e : ReplyT} (he : e ∈ t.replies m)
    (hne : m = n → e.xid ≠ x) : e ∈ t'.replies m := by
  by_cases hm : m = n
  · subst hm
    obtain ⟨pre, e', post, hl, hx, hl'⟩ := h.split
    rw [hl] at he
    rw [hl']
    rcases List.mem_append.mp he with he | he
    · simp [he]
    · rcases List.mem_cons.mp he with rfl | he
      · exact absurd hx (hne rfl)
      · simp [he]
  · rw [h.replies_ne m hm]
    exact he

end Recorded

theorem Distinct.eq {t : ReplyTable} (h : t.Distinct) {n : UInt32} {e e' : ReplyT}
    (he : e ∈ t.replies n) (he' : e' ∈ t.replies n) (hx : e.xid = e'.xid) : e = e' :=
  List.inj_on_of_nodup_map (h n) he he' hx

end ReplyTable
end StanDfs
