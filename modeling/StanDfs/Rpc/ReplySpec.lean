import StanDfs.Lib.Lts
import StanDfs.Rpc.ReplyWindow

/-!
# What the reply window promises

A history of the calls of `checkduplicate_and_update`, and of `add_reply` as `dispatch` makes them, for any
clients and in any order. An answer depends on nothing but the client's own part of the history.
-/

namespace StanDfs

/-- A call on the reply window, with its answer. -/
inductive WindowCall
  /-- `dispatch` makes the client known. -/
  | create (n : UInt32)
  | check (n x r : UInt32) (st : Rpcstate)
  | addReply (n x : UInt32) (b : Option Addr) (sz : Int)
  deriving DecidableEq

def WindowCall.client : WindowCall → UInt32
  | .create n | .check n _ _ _ | .addReply n _ _ _ => n

/-- The client and the call that were new. -/
def WindowCall.news : WindowCall → Option (UInt32 × UInt32)
  | .check n x _ .new => some (n, x)
  | _ => none

/-- The client and the call whose reply was recorded. -/
def WindowCall.reply : WindowCall → Option (UInt32 × UInt32)
  | .addReply n x _ _ => some (n, x)
  | _ => none

/-- A reply window with its history, the newest call first. -/
structure Ledger where
  table : ReplyTable
  log : List WindowCall

namespace Ledger

open WindowCall (create check addReply)

def init : Ledger := ⟨.empty, []⟩

def next (s : Ledger) : WindowCall → Ledger
  | .create n => ⟨s.table.create n, .create n :: s.log⟩
  | .check n x r st =>
    match s.table.checkduplicateAndUpdate n x r with
    | some (_, t, _) => ⟨t, .check n x r st :: s.log⟩
    | none => s
  | .addReply n x b sz =>
    match s.table.addReply n x b sz with
    | some t => ⟨t, .addReply n x b sz :: s.log⟩
    | none => s

/-- An earlier call for `x` was new. -/
def Seen (log : List WindowCall) (n x : UInt32) : Prop := ∃ c ∈ log, c.news = some (n, x)

/-- An `add_reply` for `x` followed. -/
def Replied (log : List WindowCall) (n x : UInt32) : Prop := ∃ c ∈ log, c.reply = some (n, x)

def guard (s : Ledger) : WindowCall → Prop
  | .create _ => True
  | .check n x r st => (s.table.checkduplicateAndUpdate n x r).map Prod.fst = some st
  | .addReply n x _ sz =>
    0 ≤ sz ∧ Seen s.log n x ∧ ¬ Replied s.log n x ∧ ∃ e ∈ s.table.replies n, e.xid = x

/-- The histories of a reply window. -/
def lts : Lts Ledger WindowCall where
  init s := s = init
  guard := guard
  next := next

/-- `f` is the largest `xid_rep` the client has presented, that of the call at hand included. -/
structure Largest (log : List WindowCall) (n r f : UInt32) : Prop where
  presented : f = r ∨ ∃ x st, check n x f st ∈ log
  current : r ≤ f
  earlier : ∀ x r' st, check n x r' st ∈ log → r' ≤ f

/-- What the window and its history have to do with each other. -/
structure Faithful (s : Ledger) : Prop where
  distinct : s.table.Distinct
  floor : ∀ n r, Largest s.log n r (s.table.newFloor n r)
  entry : ∀ n, ∀ e ∈ s.table.replies n, Seen s.log n e.xid
  reply : ∀ n, ∀ e ∈ s.table.replies n, ∀ b sz,
    addReply n e.xid b sz ∈ s.log ↔ e.sz ≠ -1 ∧ b = e.buf ∧ sz = e.sz
  known : ∀ n x, Seen s.log n x → s.table.Known n x
  seen : ∀ n x, Replied s.log n x → Seen s.log n x

instance (log : List WindowCall) (n x : UInt32) : Decidable (Seen log n x) :=
  inferInstanceAs (Decidable (∃ _ ∈ _, _))

instance (log : List WindowCall) (n x : UInt32) : Decidable (Replied log n x) :=
  inferInstanceAs (Decidable (∃ _ ∈ _, _))

instance (s : Ledger) (c : WindowCall) : Decidable (s.guard c) := by
  unfold guard
  cases c <;> infer_instance

instance (s : Ledger) (c : WindowCall) : Decidable (lts.guard s c) := inferInstanceAs (Decidable (s.guard c))

theorem seen_cons {c : WindowCall} {log : List WindowCall} {n x : UInt32} :
    Seen (c :: log) n x ↔ c.news = some (n, x) ∨ Seen log n x := by
  simp [Seen]

theorem replied_cons {c : WindowCall} {log : List WindowCall} {n x : UInt32} :
    Replied (c :: log) n x ↔ c.reply = some (n, x) ∨ Replied log n x := by
  simp [Replied]

theorem replied_of_mem {log : List WindowCall} {n x : UInt32} {b : Option Addr} {sz : Int}
    (h : addReply n x b sz ∈ log) : Replied log n x := ⟨_, h, rfl⟩

theorem news_check {n x r n' x' : UInt32} {st : Rpcstate} :
    (check n x r st).news = some (n', x') ↔ st = .new ∧ n = n' ∧ x = x' := by
  cases st <;> simp [WindowCall.news]

theorem faithful_init : Faithful init where
  distinct _ := List.nodup_nil
  floor n r := ⟨.inl rfl, UInt32.le_refl r, fun _ _ _ h => (by cases h)⟩
  entry _ e he := by cases he
  reply _ e he := by cases he
  known n x h := by
    obtain ⟨c, hm, _⟩ := h
    cases hm
  seen n x h := by
    obtain ⟨c, hm, _⟩ := h
    cases hm

/-! ## The answers -/

section Answer

variable {s : Ledger} {n x r : UInt32} {st : Rpcstate}

theorem checked_of_guard (hg : s.guard (.check n x r st)) :
    ∃ t freed, s.table.checkduplicateAndUpdate n x r = some (st, t, freed) ∧
      s.next (.check n x r st) = ⟨t, .check n x r st :: s.log⟩ := by
  simp only [guard, Option.map_eq_some_iff] at hg
  obtain ⟨⟨st', t, freed⟩, hc, rfl⟩ := hg
  exact ⟨t, freed, hc, by rw [next, hc]⟩

theorem forgotten_iff (hg : s.guard (.check n x r st)) :
    st = .forgotten ↔ x < s.table.newFloor n r := by
  obtain ⟨t, freed, hc, _⟩ := checked_of_guard hg
  cases ReplyTable.checked hc with
  | forgotten hlt => exact iff_of_true rfl hlt
  | inprogress hge => exact iff_of_false (by simp) (UInt32.not_lt.mpr hge)
  | done hge => exact iff_of_false (by simp) (UInt32.not_lt.mpr hge)
  | new hge => exact iff_of_false (by simp) (UInt32.not_lt.mpr hge)

theorem Faithful.answer (h : Faithful s) (hg : s.guard (.check n x r st))
    (hx : ¬ x < s.table.newFloor n r) :
    (st = .new ∧ ¬ Seen s.log n x) ∨ (st = .inprogress ∧ Seen s.log n x ∧ ¬ Replied s.log n x) ∨
      ∃ b sz, st = .done b sz ∧ ∀ b' sz', .addReply n x b' sz' ∈ s.log ↔ b' = b ∧ sz' = sz := by
  obtain ⟨t, freed, hc, _⟩ := checked_of_guard hg
  cases ReplyTable.checked hc with
  | forgotten hlt => exact absurd hlt hx
  | new => exact .inl ⟨rfl, fun hs => (ReplyTable.checked hc).not_known (h.known n x hs)⟩
  | @inprogress l kept removed _ e _ hl hsw he hex hsz =>
      have hm : e ∈ s.table.replies n := by
        rw [ReplyTable.replies, hl]
        exact hsw.sub.subset he
      subst hex
      refine .inr (.inl ⟨rfl, h.entry n e hm, ?_⟩)
      rintro ⟨c, hin, hrep⟩
      cases c with
      | addReply n' x' b sz =>
          cases hrep
          exact ((h.reply n e hm b sz).mp hin).1 hsz
      | create n' => cases hrep
      | check n' x' r' st' => cases hrep
  | @done l kept removed _ e _ hl hsw he hex hsz =>
      have hm : e ∈ s.table.replies n := by
        rw [ReplyTable.replies, hl]
        exact hsw.sub.subset he
      subst hex
      refine .inr (.inr ⟨_, _, rfl, fun b' sz' => ?_⟩)
      rw [h.reply n e hm b' sz']
      exact and_iff_right hsz

end Answer

/-! ## Every history is kept -/

theorem Faithful.create {s : Ledger} (h : Faithful s) (n : UInt32) : Faithful (s.next (.create n)) := by
  have hseen : ∀ m x, Seen (.create n :: s.log) m x ↔ Seen s.log m x := fun m x => by
    simp [seen_cons, WindowCall.news]
  refine ⟨fun m => ?_, fun m r => ?_, fun m e he => ?_, fun m e he b sz => ?_, fun m x hs => ?_, fun m x hr => ?_⟩
  · rw [next, ReplyTable.replies_create]
    exact h.distinct m
  · have hf := h.floor m r
    have hfl : (s.table.create n).newFloor m r = s.table.newFloor m r := by
      simp only [ReplyTable.newFloor, ReplyTable.rereplyWindow_create]
    rw [next, hfl]
    refine ⟨?_, hf.current, fun x r' st hm => hf.earlier x r' st (by simpa using hm)⟩
    rcases hf.presented with hp | ⟨x, st, hm⟩
    · exact .inl hp
    · exact .inr ⟨x, st, List.mem_cons_of_mem _ hm⟩
  · rw [next, ReplyTable.replies_create] at he
    exact (hseen m _).mpr (h.entry m e he)
  · rw [next, ReplyTable.replies_create] at he
    rw [← h.reply m e he b sz, next]
    simp
  · exact ReplyTable.known_create n (h.known m x ((hseen m x).mp hs))
  · refine (hseen m x).mpr (h.seen m x ?_)
    simpa [replied_cons, WindowCall.reply, next] using hr

theorem Largest.cons {log : List WindowCall} {n r f : UInt32} {c : WindowCall} (h : Largest log n r f)
    (hc : ∀ x r' st, c ≠ check n x r' st) : Largest (c :: log) n r f where
  presented := h.presented.imp_right fun ⟨x, st, hm⟩ => ⟨x, st, List.mem_cons_of_mem _ hm⟩
  current := h.current
  earlier x r' st hm := by
    rcases List.mem_cons.mp hm with heq | hm
    · exact absurd heq.symm (hc x r' st)
    · exact h.earlier x r' st hm

theorem Largest.check {t t' : ReplyTable} {log : List WindowCall} {n x r : UInt32} {st : Rpcstate}
    (h : ∀ n r, Largest log n r (t.newFloor n r))
    (ht : t'.rereplyWindow = t.rereplyWindow.insert n (t.newFloor n r)) (m r' : UInt32) :
    Largest (.check n x r st :: log) m r' (t'.newFloor m r') := by
  by_cases hm : m = n
  · subst hm
    have hl : t'.rereplyWindow.lookup m = some (t.newFloor m r) := by rw [ht, AList.lookup_insert]
    have hf := h m r
    have hle := ReplyTable.floor_le_newFloor r' hl
    refine ⟨?_, ReplyTable.le_newFloor _ _ _, fun y r₀ st₀ hin => ?_⟩
    · rcases ReplyTable.newFloor_eq t' m r' with heq | heq
      · exact .inl heq
      · rw [hl, Option.some.injEq] at heq
        rw [← heq]
        rcases hf.presented with hr | ⟨y, st₀, hin⟩
        · exact .inr ⟨x, st, by rw [hr]; exact List.mem_cons_self⟩
        · exact .inr ⟨y, st₀, List.mem_cons_of_mem _ hin⟩
    · rcases List.mem_cons.mp hin with heq | hin
      · cases heq
        exact UInt32.le_trans hf.current hle
      · exact UInt32.le_trans (hf.earlier y r₀ st₀ hin) hle
  · have hfl : t'.newFloor m r' = t.newFloor m r' := by
      simp only [ReplyTable.newFloor, ht, AList.lookup_insert_ne hm]
    rw [hfl]
    refine (h m r').cons fun y r₀ st₀ heq => hm ?_
    cases heq
    rfl

theorem Faithful.check {s : Ledger} {n x r : UInt32} {st : Rpcstate} (h : Faithful s)
    (hg : s.guard (.check n x r st)) : Faithful (s.next (.check n x r st)) := by
  obtain ⟨t, freed, hc, hn⟩ := checked_of_guard hg
  have hck := ReplyTable.checked hc
  have hmem : ∀ m y b sz, addReply m y b sz ∈ WindowCall.check n x r st :: s.log ↔ addReply m y b sz ∈ s.log :=
    fun m y b sz => by simp
  rw [hn]
  refine ⟨hck.distinct h.distinct, Largest.check h.floor hck.floor, fun m e he => ?_, fun m e he b sz => ?_,
    fun m y hs => ?_, fun m y hr => ?_⟩
  · rcases hck.of_mem he with he | ⟨hnew, rfl, rfl⟩
    · exact seen_cons.mpr (.inr (h.entry m e he))
    · exact seen_cons.mpr (.inl (news_check.mpr ⟨hnew, rfl, rfl⟩))
  · rw [hmem]
    rcases hck.of_mem he with he | ⟨rfl, rfl, rfl⟩
    · exact h.reply m e he b sz
    · refine iff_of_false (fun hin => ?_) fun hne => hne.1 rfl
      exact hck.not_known (h.known m x (h.seen m x (replied_of_mem hin)))
  · rcases seen_cons.mp hs with hnews | hs
    · obtain ⟨-, rfl, rfl⟩ := news_check.mp hnews
      exact hck.known
    · exact hck.known_mono (h.known m y hs)
  · rcases replied_cons.mp hr with hrep | hr
    · cases hrep
    · exact seen_cons.mpr (.inr (h.seen m y hr))

theorem Faithful.addReply {s : Ledger} {n x : UInt32} {b : Option Addr} {sz : Int} (h : Faithful s)
    (hg : s.guard (.addReply n x b sz)) : Faithful (s.next (.addReply n x b sz)) := by
  obtain ⟨hsz, hseen, hrep, hent⟩ := hg
  have hseen_iff : ∀ m y, Seen (.addReply n x b sz :: s.log) m y ↔ Seen s.log m y := fun m y => by
    simp [seen_cons, WindowCall.news]
  cases ht : s.table.addReply n x b sz with
  | none => exact absurd ht (ReplyTable.addReply_ne_none b sz hent)
  | some t =>
      have hne : sz ≠ -1 := by omega
      have hrec := ReplyTable.recorded hne ht
      simp only [next, ht]
      refine ⟨hrec.distinct h.distinct, fun m r => ?_, fun m e he => ?_, fun m e he b' sz' => ?_,
        fun m y hs => ?_, fun m y hr => ?_⟩
      · have hfl : t.newFloor m r = s.table.newFloor m r := by simp only [ReplyTable.newFloor, hrec.floor]
        rw [hfl]
        exact (h.floor m r).cons fun _ _ _ heq => by cases heq
      · rw [hseen_iff]
        rcases hrec.of_mem he with he | ⟨rfl, rfl⟩
        · exact h.entry m e he
        · exact hseen
      · by_cases hself : m = n ∧ e.xid = x
        · obtain ⟨rfl, hx⟩ := hself
          obtain rfl := (hrec.distinct h.distinct).eq he hrec.mem_self hx
          constructor
          · intro hin
            rcases List.mem_cons.mp hin with heq | hin
            · cases heq
              exact ⟨hne, rfl, rfl⟩
            · exact absurd (replied_of_mem hin) hrep
          · rintro ⟨-, rfl, rfl⟩
            exact List.mem_cons_self
        · rcases hrec.of_mem he with he | ⟨rfl, rfl⟩
          · rw [← h.reply m e he b' sz', List.mem_cons]
            refine or_iff_right fun heq => hself ?_
            cases heq
            exact ⟨rfl, rfl⟩
          · exact absurd ⟨rfl, rfl⟩ hself
      · exact hrec.known_iff.mpr (h.known m y ((hseen_iff m y).mp hs))
      · rw [hseen_iff]
        rcases replied_cons.mp hr with heq | hr
        · cases heq
          exact hseen
        · exact h.seen m y hr

theorem faithful_of_run {tr : List WindowCall} {s : Ledger} (h : lts.Run tr s) : Faithful s := by
  refine h.invariant (I := fun _ s => Faithful s) ?_ ?_
  · rintro s rfl
    exact faithful_init
  · intro tr s c _ hi hg
    cases c with
    | create n => exact hi.create n
    | check n x r st => exact hi.check hg
    | addReply n x b sz => exact hi.addReply hg

/-! ## The list after a new call -/

/-- A new call leaves the calls that were new and are not below the floor, once each. -/
theorem Faithful.list {s : Ledger} {n x r : UInt32} (h : Faithful s) (hg : s.guard (.check n x r .new)) :
    (((s.next (.check n x r .new)).table.replies n).map ReplyT.xid).Nodup ∧
      ∀ y, y ∈ ((s.next (.check n x r .new)).table.replies n).map ReplyT.xid ↔
        s.table.newFloor n r ≤ y ∧ (Seen s.log n y ∨ y = x) := by
  obtain ⟨t, freed, hc, hn⟩ := checked_of_guard hg
  have hck := ReplyTable.checked hc
  have hge : ¬ x < s.table.newFloor n r := fun hlt => by
    have := (forgotten_iff hg).mpr hlt
    cases this
  rw [hn]
  refine ⟨hck.distinct h.distinct n, fun y => ⟨fun hy => ?_, fun ⟨hf, hy⟩ => ?_⟩⟩
  · obtain ⟨e, he, rfl⟩ := List.mem_map.mp hy
    refine ⟨UInt32.not_lt.mp (ReplyTable.new_above hc e he), ?_⟩
    rcases hck.of_mem he with he | ⟨_, _, rfl⟩
    · exact .inl (h.entry n e he)
    · exact .inr rfl
  · rcases hy with hs | rfl
    · rcases h.known n y hs with ⟨f, hl, hlt⟩ | ⟨e, he, rfl⟩
      · exact absurd (UInt32.lt_of_lt_of_le hlt (ReplyTable.floor_le_newFloor r hl)) (UInt32.not_lt.mpr hf)
      · exact List.mem_map_of_mem (hck.mem he fun _ => UInt32.not_lt.mpr hf)
    · obtain ⟨_, _, _, _, hnew⟩ := hck.swept
      rw [(hnew rfl).1]
      simp

/-! ## Clients do not affect each other -/

/-- What the table has for a client. -/
structure SameFor (n : UInt32) (t t₀ : ReplyTable) : Prop where
  list : t.replyWindow.lookup n = t₀.replyWindow.lookup n
  floor : t.rereplyWindow.lookup n = t₀.rereplyWindow.lookup n

theorem SameFor.newFloor {n : UInt32} {t t₀ : ReplyTable} (h : SameFor n t t₀) (r : UInt32) :
    t₀.newFloor n r = t.newFloor n r := by
  simp only [ReplyTable.newFloor, h.floor]

theorem SameFor.replies {n : UInt32} {t t₀ : ReplyTable} (h : SameFor n t t₀) :
    t₀.replies n = t.replies n := by
  simp only [ReplyTable.replies, h.list]

theorem SameFor.create {n : UInt32} {t t₀ : ReplyTable} (h : SameFor n t t₀) :
    SameFor n (t.create n) (t₀.create n) := by
  refine ⟨?_, by rw [ReplyTable.rereplyWindow_create, ReplyTable.rereplyWindow_create, h.floor]⟩
  cases hl : t.replyWindow.lookup n with
  | none =>
      have hl₀ := h.list.symm.trans hl
      simp only [ReplyTable.create, hl, hl₀, AList.lookup_insert]
  | some l =>
      have hl₀ := h.list.symm.trans hl
      simp only [ReplyTable.create, hl, hl₀]

theorem SameFor.check {n x r : UInt32} {t t₀ t' : ReplyTable} {st : Rpcstate} {freed : List Addr}
    (h : SameFor n t t₀) (hc : t.checkduplicateAndUpdate n x r = some (st, t', freed)) :
    ∃ t₀', t₀.checkduplicateAndUpdate n x r = some (st, t₀', freed) ∧ SameFor n t' t₀' := by
  simp only [ReplyTable.checkduplicateAndUpdate, h.newFloor, ← h.list] at hc ⊢
  split at hc
  · rename_i hlt
    cases hc
    rw [if_pos hlt]
    exact ⟨_, rfl, h.list, by simp only [AList.lookup_insert]⟩
  · rename_i hge
    rw [if_neg hge]
    cases hl : t.replyWindow.lookup n with
    | none => simp [hl] at hc
    | some l =>
        simp only [hl] at hc ⊢
        generalize ReplyTable.scan x (t.newFloor n r) l = res at hc ⊢
        obtain ⟨kept, freed', hit⟩ := res
        cases hit with
        | some e =>
            simp only at hc ⊢
            split at hc
            · rename_i hsz
              cases hc
              rw [if_pos hsz]
              exact ⟨_, rfl, by simp only [AList.lookup_insert], by simp only [AList.lookup_insert]⟩
            · rename_i hsz
              cases hc
              rw [if_neg hsz]
              exact ⟨_, rfl, by simp only [AList.lookup_insert], by simp only [AList.lookup_insert]⟩
        | none =>
            simp only [ReplyTable.addReply, AList.lookup_insert, ↓reduceIte, Option.map_some, Option.some.injEq,
              Prod.mk.injEq] at hc ⊢
            obtain ⟨rfl, rfl, rfl⟩ := hc
            exact ⟨_, ⟨rfl, rfl, rfl⟩, by simp only [AList.lookup_insert], by simp only [AList.lookup_insert]⟩

theorem SameFor.addReply {n x : UInt32} {b : Option Addr} {sz : Int} {t t₀ t' : ReplyTable}
    (h : SameFor n t t₀) (hsz : sz ≠ -1) (hc : t.addReply n x b sz = some t') :
    ∃ t₀', t₀.addReply n x b sz = some t₀' ∧ SameFor n t' t₀' := by
  simp only [ReplyTable.addReply, ← h.list, if_neg hsz] at hc ⊢
  cases hl : t.replyWindow.lookup n with
  | none => simp [hl] at hc
  | some l =>
      simp only [hl] at hc ⊢
      cases hs : ReplyTable.setReply x b sz l with
      | none => simp [hs] at hc
      | some l' =>
          simp only [hs] at hc ⊢
          cases hc
          exact ⟨_, rfl, by simp only [AList.lookup_insert], h.floor⟩

theorem sameFor_next {s : Ledger} {c : WindowCall} {n : UInt32} (hg : s.guard c) (hc : c.client ≠ n) :
    SameFor n (s.next c).table s.table := by
  have hne : n ≠ c.client := Ne.symm hc
  cases c with
  | create m =>
      refine ⟨?_, by rw [next, ReplyTable.rereplyWindow_create]⟩
      simp only [next, ReplyTable.create]
      split
      · rfl
      · exact AList.lookup_insert_ne hne
  | check m x r st =>
      obtain ⟨t, freed, hch, hn⟩ := checked_of_guard hg
      have hck := ReplyTable.checked hch
      rw [hn]
      refine ⟨?_, by rw [hck.floor]; exact AList.lookup_insert_ne hne⟩
      cases hck with
      | forgotten => rfl
      | inprogress => exact AList.lookup_insert_ne hne
      | done => exact AList.lookup_insert_ne hne
      | new => exact AList.lookup_insert_ne hne
  | addReply m x b sz =>
      cases ht : s.table.addReply m x b sz with
      | none => exact absurd ht (ReplyTable.addReply_ne_none b sz hg.2.2.2)
      | some t =>
          have hrec := ReplyTable.recorded (show sz ≠ -1 by have := hg.1; omega) ht
          simp only [next, ht]
          refine ⟨?_, by rw [hrec.floor]⟩
          rw [hrec.insert]
          exact AList.lookup_insert_ne hne

/-- The view of a client: its part of the table and of the history. -/
structure View (n : UInt32) (s s₀ : Ledger) : Prop where
  table : SameFor n s.table s₀.table
  log : s.log.filter (fun c => c.client = n) = s₀.log.filter fun c => c.client = n

theorem exists_filter_iff {log : List WindowCall} {n : UInt32} {P : WindowCall → Prop}
    (hP : ∀ c, P c → c.client = n) :
    (∃ c ∈ log.filter (fun c => c.client = n), P c) ↔ ∃ c ∈ log, P c := by
  constructor
  · rintro ⟨c, hm, hc⟩
    exact ⟨c, (List.mem_filter.mp hm).1, hc⟩
  · rintro ⟨c, hm, hc⟩
    exact ⟨c, List.mem_filter.mpr ⟨hm, decide_eq_true (hP c hc)⟩, hc⟩

theorem seen_filter {log : List WindowCall} {n x : UInt32} :
    Seen (log.filter fun c => c.client = n) n x ↔ Seen log n x := by
  have hclient : ∀ c : WindowCall, c.news = some (n, x) → c.client = n := by
    intro c hc
    cases c with
    | check n' x' r st => exact (news_check.mp hc).2.1
    | _ => cases hc
  exact exists_filter_iff hclient

theorem replied_filter {log : List WindowCall} {n x : UInt32} :
    Replied (log.filter fun c => c.client = n) n x ↔ Replied log n x := by
  have hclient : ∀ c : WindowCall, c.reply = some (n, x) → c.client = n := by
    intro c hc
    cases c with
    | addReply n' x' b sz =>
        cases hc
        rfl
    | _ => cases hc
  exact exists_filter_iff hclient

theorem log_next {s : Ledger} {c : WindowCall} (hg : s.guard c) : (s.next c).log = c :: s.log := by
  cases c with
  | create n => rfl
  | check n x r st =>
      obtain ⟨t, freed, _, hn⟩ := checked_of_guard hg
      rw [hn]
  | addReply n x b sz =>
      cases ht : s.table.addReply n x b sz with
      | none => exact absurd ht (ReplyTable.addReply_ne_none b sz hg.2.2.2)
      | some t => simp only [next, ht]

theorem log_of_run {tr : List WindowCall} {s : Ledger} (h : lts.Run tr s) : s.log = tr := by
  refine h.invariant (I := fun tr s => s.log = tr) ?_ ?_
  · rintro s rfl
    rfl
  · rintro tr s c _ rfl hg
    exact log_next hg

theorem View.seen {n x : UInt32} {s s₀ : Ledger} (h : View n s s₀) : Seen s₀.log n x ↔ Seen s.log n x := by
  rw [← seen_filter, ← h.log, seen_filter]

theorem View.replied {n x : UInt32} {s s₀ : Ledger} (h : View n s s₀) :
    Replied s₀.log n x ↔ Replied s.log n x := by
  rw [← replied_filter, ← h.log, replied_filter]

theorem View.out {n : UInt32} {s s₀ : Ledger} {c : WindowCall} (h : View n s s₀) (hg : s.guard c)
    (hc : c.client ≠ n) : View n (s.next c) s₀ := by
  have hs := sameFor_next hg hc
  refine ⟨⟨hs.list.trans h.table.list, hs.floor.trans h.table.floor⟩, ?_⟩
  rw [log_next hg, List.filter_cons_of_neg (by simpa using hc)]
  exact h.log

theorem View.grow {n : UInt32} {s s₀ : Ledger} {c : WindowCall} (h : View n s s₀) (hg : s.guard c)
    (hg₀ : s₀.guard c) (ht : SameFor n (s.next c).table (s₀.next c).table) :
    View n (s.next c) (s₀.next c) := by
  refine ⟨ht, ?_⟩
  rw [log_next hg, log_next hg₀, List.filter_cons, List.filter_cons, h.log]

theorem View.inside {n : UInt32} {s s₀ : Ledger} {c : WindowCall} (h : View n s s₀) (hg : s.guard c)
    (hc : c.client = n) : s₀.guard c ∧ View n (s.next c) (s₀.next c) := by
  subst hc
  cases c with
  | create n => exact ⟨trivial, h.grow hg trivial h.table.create⟩
  | check n x r st =>
      have h : View n s s₀ := h
      obtain ⟨t, freed, hch, _⟩ := checked_of_guard hg
      obtain ⟨t₀, hch₀, ht⟩ := h.table.check hch
      have hg₀ : s₀.guard (.check n x r st) := by simp only [guard, hch₀, Option.map_some]
      refine ⟨hg₀, h.grow hg hg₀ ?_⟩
      simp only [next, hch, hch₀]
      exact ht
  | addReply n x b sz =>
      have h : View n s s₀ := h
      obtain ⟨hsz, hseen, hrep, hent⟩ := hg
      have hg₀ : s₀.guard (.addReply n x b sz) := by
        refine ⟨hsz, h.seen.mpr hseen, fun hr => hrep (h.replied.mp hr), ?_⟩
        rw [SameFor.replies h.table]
        exact hent
      refine ⟨hg₀, h.grow ⟨hsz, hseen, hrep, hent⟩ hg₀ ?_⟩
      cases ht : s.table.addReply n x b sz with
      | none => exact absurd ht (ReplyTable.addReply_ne_none b sz hent)
      | some t =>
          obtain ⟨t₀, ht₀, hsame⟩ := SameFor.addReply h.table (by omega) ht
          simp only [next, ht, ht₀]
          exact hsame

/-- A client's calls alone give it the same table and the same answers. -/
theorem run_of_client {tr : List WindowCall} {s : Ledger} (h : lts.Run tr s) (n : UInt32) :
    ∃ s₀, lts.Run (tr.filter fun c => c.client = n) s₀ ∧ View n s s₀ := by
  refine h.filter (fun s _ => ⟨⟨rfl, rfl⟩, rfl⟩) (fun s s₀ c hv hg hc => ?_) fun s s₀ c hv hg hc => ?_
  · exact hv.out hg (of_decide_eq_false hc)
  · exact hv.inside hg (of_decide_eq_true hc)

/-! ## The specification -/

theorem Faithful.inprogress_iff {s : Ledger} {n x r : UInt32} {st : Rpcstate} (h : Faithful s)
    (hg : s.guard (.check n x r st)) (hx : ¬ x < s.table.newFloor n r) :
    st = .inprogress ↔ Seen s.log n x ∧ ¬ Replied s.log n x := by
  rcases h.answer hg hx with ⟨rfl, hs⟩ | ⟨rfl, hs⟩ | ⟨b, sz, rfl, hin⟩
  · exact iff_of_false (by simp) fun hs' => hs hs'.1
  · exact iff_of_true rfl hs
  · exact iff_of_false (by simp) fun hs => hs.2 (replied_of_mem ((hin b sz).mpr ⟨rfl, rfl⟩))

theorem Faithful.done_iff {s : Ledger} {n x r : UInt32} {st : Rpcstate} (h : Faithful s)
    (hg : s.guard (.check n x r st)) (hx : ¬ x < s.table.newFloor n r) (b : Option Addr) (sz : Int) :
    st = .done b sz ↔ .addReply n x b sz ∈ s.log := by
  rcases h.answer hg hx with ⟨rfl, hs⟩ | ⟨rfl, hs⟩ | ⟨b', sz', rfl, hin⟩
  · exact iff_of_false (by simp) fun hin => hs (h.seen n x (replied_of_mem hin))
  · exact iff_of_false (by simp) fun hin => hs.2 (replied_of_mem hin)
  · rw [hin b sz, Rpcstate.done.injEq, eq_comm, @eq_comm _ sz']

theorem Faithful.new_iff {s : Ledger} {n x r : UInt32} {st : Rpcstate} (h : Faithful s)
    (hg : s.guard (.check n x r st)) (hx : ¬ x < s.table.newFloor n r) :
    st = .new ↔ ¬ Seen s.log n x := by
  rcases h.answer hg hx with ⟨rfl, hs⟩ | ⟨rfl, hs⟩ | ⟨b, sz, rfl, hin⟩
  · exact iff_of_true rfl hs
  · exact iff_of_false (by simp) fun hn => hn hs.1
  · exact iff_of_false (by simp) fun hn => hn (h.seen n x (replied_of_mem ((hin b sz).mpr ⟨rfl, rfl⟩)))

theorem Largest.unique {log : List WindowCall} {n r f f' : UInt32} (h : Largest log n r f)
    (h' : Largest log n r f') : f = f' := by
  have hle : ∀ {f f'}, Largest log n r f → Largest log n r f' → f ≤ f' := by
    intro f f' h h'
    rcases h.presented with rfl | ⟨x, st, hm⟩
    · exact h'.current
    · exact h'.earlier x f st hm
  exact UInt32.le_antisymm (hle h h') (hle h' h)

/-- What the list of a client is after a new call. -/
structure Kept (log : List WindowCall) (n f : UInt32) (l : List ReplyT) : Prop where
  nodup : (l.map ReplyT.xid).Nodup
  above : ∀ e ∈ l, f ≤ e.xid
  all : ∀ y, Seen log n y → f ≤ y → ∃ e ∈ l, e.xid = y

theorem Faithful.kept {s : Ledger} {n x r : UInt32} (h : Faithful s) (hg : s.guard (.check n x r .new)) :
    Kept s.log n (s.table.newFloor n r) ((s.next (.check n x r .new)).table.replies n) := by
  obtain ⟨hnd, hmem⟩ := h.list hg
  refine ⟨hnd, fun e he => ((hmem e.xid).mp (List.mem_map_of_mem he)).1, fun y hs hf => ?_⟩
  obtain ⟨e, he, hy⟩ := List.mem_map.mp ((hmem y).mpr ⟨hf, .inl hs⟩)
  exact ⟨e, he, hy⟩

/-- A known client gets an answer, and it is the one that its own calls determine. -/
theorem reply_table_spec {tr : List WindowCall} {s : Ledger} (h : lts.Run tr s) (n x r : UInt32) :
    (s.table.Present n → ∃ st, s.guard (.check n x r st)) ∧
    ∀ st, s.guard (.check n x r st) → ∃ f, Largest tr n r f ∧
      (st = .forgotten ↔ x < f) ∧
      (¬ x < f →
        (st = .inprogress ↔ Seen tr n x ∧ ¬ Replied tr n x) ∧
        (∀ b sz, st = .done b sz ↔ .addReply n x b sz ∈ tr) ∧
        (st = .new ↔ ¬ Seen tr n x)) ∧
      (st = .new → Kept tr n f ((s.next (.check n x r st)).table.replies n)) ∧
      ∃ s₀, lts.Run (tr.filter fun c => c.client = n) s₀ ∧ s₀.guard (.check n x r st) ∧
        View n (s.next (.check n x r st)) (s₀.next (.check n x r st)) := by
  have hfaith := faithful_of_run h
  obtain rfl := log_of_run h
  refine ⟨?_, fun st hg => ⟨_, hfaith.floor n r, forgotten_iff hg, fun hx => ?_, ?_, ?_⟩⟩
  · rintro ⟨l, hl⟩
    obtain ⟨⟨st, t, freed⟩, hc⟩ := Option.ne_none_iff_exists'.mp
      (ReplyTable.checkduplicateAndUpdate_ne_none (x := x) (r := r) hl)
    exact ⟨st, by simp only [guard, hc, Option.map_some]⟩
  · exact ⟨hfaith.inprogress_iff hg hx, hfaith.done_iff hg hx, hfaith.new_iff hg hx⟩
  · rintro rfl
    exact hfaith.kept hg
  · obtain ⟨s₀, hr, hv⟩ := run_of_client h n
    exact ⟨s₀, hr, hv.inside hg rfl⟩

/-- The reply to a call is recorded, and then a duplicate comes. -/
theorem reply_table_spec_done : ∃ tr s, lts.Run tr s ∧ s.guard (.check 5 2 1 (.done (some 0) 24)) ∧
    ∃ f, Largest tr 5 1 f ∧ ¬ 2 < f := by
  obtain ⟨s, hr, hs⟩ := Lts.run_of_exec (M := lts) (s := init)
    (l := [.create 5, .check 5 2 0 .new, .create 6, .check 6 9 2 .new, .addReply 5 2 (some 0) 24])
    (f := fun s => decide (lts.guard s (.check 5 2 1 (.done (some 0) 24)))) rfl (by decide +kernel)
  have hg := of_decide_eq_true hs
  obtain ⟨f, hf, hforg, _⟩ := (reply_table_spec hr 5 2 1).2 _ hg
  exact ⟨_, s, hr, hg, f, hf, fun hlt => by cases hforg.mpr hlt⟩

end Ledger
end StanDfs
