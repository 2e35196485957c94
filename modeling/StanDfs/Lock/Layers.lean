import StanDfs.Lock.Exclusion
import StanDfs.Rpc.Layers

/-!
# Locks over connections

The lock clients and their server with the connections between them. The bytes of a call may come in parts,
late or not at all; still at most one thread holds a lock.
-/

namespace StanDfs

/-- The parties and their connections, with what `LockNet` adds to the parties. -/
structure LockStack (κ : Type*) where
  stack : Stack κ Unit
  locks : LockMap
  stages : Worker → Stage
  held : List (κ × Tid × UInt64)
  served : List (UInt32 × UInt32)

namespace LockStack

variable {κ : Type*}

inductive Act (κ : Type*)
  | call (k : κ) (t : Tid) (op : LockOp) (lid : UInt64)
  | serve (w : Worker) (j : Job (Conn κ Unit))
  | stack (a : Stack.Act κ Unit)

def init : LockStack κ := ⟨Stack.init, ∅, fun _ => .entered, [], []⟩

/-- The parties alone. -/
def net (s : LockStack κ) : LockNet κ := ⟨s.stack.net, s.locks, s.stages, s.held, s.served⟩

/-- The step of a party that a step is, if it is one that neither sends nor receives. -/
def own : Stack.Act κ Unit → Option (RpcNet.Act κ Unit)
  | .own a => some a
  | .send _ _ _ | .conn _ _ _ | .arrive _ _ _ | .read _ _ _ _ _ => none

variable [DecidableEq κ]

def next (g : Config κ Unit) (s : LockStack κ) : Act κ → LockStack κ
  | .call k t op lid =>
    { s with
      stack := s.stack.next g (.own (LockNet.rpc g k t op lid))
      held := if op = .release then s.held.filter (· ≠ (k, t, lid)) else s.held }
  | .serve w j =>
    let n := s.net.serve w j
    { s with locks := n.locks, stages := n.stages, served := n.served }
  | .stack a =>
    { s with
      stack := s.stack.next g a
      stages := (own a).elim s.stages fun b => LockNet.entered b s.stages
      held := (own a).elim s.held fun b => LockNet.acquired b s.held }

/-- What a party does it does by the rules of `LockNet`. -/
def guard (g : Config κ Unit) (s : LockStack κ) : Act κ → Prop
  | .call k t op lid => s.stack.guard g (.own (LockNet.rpc g k t op lid)) ∧ s.net.guard g (.call k t op lid)
  | .serve w j => s.stack.alive (.inr ()) = true ∧ s.net.guard g (.serve w j)
  | .stack a => s.stack.guard g a ∧ ∀ b ∈ own a, s.net.guard g (.net b)

/-- The runs of lock clients and their server over their connections. -/
def lts (g : Config κ Unit) : Lts (LockStack κ) (Act κ) where
  init s := s = init
  guard := guard g
  next := next g

instance (g : Config κ Unit) (s : LockStack κ) (a : Act κ) : Decidable ((lts g).guard s a) := by
  have (b : LockNet.Act κ) : Decidable (s.net.guard g b) :=
    inferInstanceAs (Decidable ((LockNet.lts g).guard s.net b))
  unfold lts guard
  cases a <;> infer_instance

/-! ## The layers below -/

/-- What a step is to the connections. -/
def stackAct (g : Config κ Unit) : Act κ → Option (Stack.Act κ Unit)
  | .call k t op lid => some (.own (LockNet.rpc g k t op lid))
  | .serve _ _ => none
  | .stack a => some a

theorem stack_component (g : Config κ Unit) :
    Lts.Component (lts g) (Stack.lts g) (fun s => s.stack) (stackAct g) where
  init s h := by cases h; rfl
  moves s a b hg hp := by
    cases a with
    | call k t op lid =>
        cases hp
        exact ⟨hg.1, rfl⟩
    | serve w j => cases hp
    | stack a =>
        cases hp
        exact ⟨hg.1, rfl⟩
  stays s a _ hp := by
    cases a with
    | call k t op lid => cases hp
    | serve w j => rfl
    | stack a => cases hp

/-- What a step is to the lock clients and their server over the network. -/
def view (s : LockStack κ) : Act κ → List (LockNet.Act κ)
  | .call k t op lid => [.call k t op lid]
  | .serve w j => [.serve w j]
  | .stack a => (s.stack.events a).map .net

/-- The parties are joined to the network, and hold the same locks. -/
structure Locked (s : LockStack κ) (n : LockNet κ) : Prop where
  joined : Stack.Joined s.stack n.net
  locks : n.locks = s.locks
  stages : n.stages = s.stages
  held : n.held = s.held
  served : n.served = s.served

variable {g : Config κ Unit} {s : LockStack κ} {n : LockNet κ}

omit [DecidableEq κ] in
theorem Locked.eq (h : Locked s n) : n = { s.net with net := n.net } := by
  obtain ⟨_, h₁, h₂, h₃, h₄⟩ := h
  obtain ⟨net, locks, stages, held, served⟩ := n
  simp only at h₁ h₂ h₃ h₄
  rw [h₁, h₂, h₃, h₄]
  rfl

omit [DecidableEq κ] in
/-- The steps that send and receive are no concern of the lock clients and handlers. -/
theorem silent_of_quiet {b : RpcNet.Act κ Unit} (h : Stack.quiet b = false) (f : Worker → Stage)
    (l : List (κ × Tid × UInt64)) : LockNet.entered b f = f ∧ LockNet.acquired b l = l := by
  rcases b with ⟨k, b⟩ | ⟨i, b⟩
  · cases b <;> first | cases h; done | exact ⟨rfl, rfl⟩
  · cases b <;> first | cases h; done | exact ⟨rfl, rfl⟩

theorem guard_of_loud {b : RpcNet.Act κ Unit} (h : Stack.quiet b = false) (hg : RpcNet.guard g n.net b) :
    n.guard g (.net b) := by
  refine ⟨hg, ?_⟩
  rcases b with ⟨k, b⟩ | ⟨i, b⟩
  · cases b <;> first | cases h; done | trivial
  · cases b <;> first | cases h; done | trivial

/-- Steps of the network that are no concern of the lock clients and handlers. -/
theorem run_of_loud {l : List (LockNet.Act κ)} (hl : (LockNet.lts g).Run l n) {m : List (RpcNet.Act κ Unit)}
    (hm : ∀ b ∈ m, Stack.quiet b = false) {n' : RpcNet κ Unit}
    (h : (RpcNet.lts g).Run (m ++ l.filterMap (LockNet.netAct g)) n') :
    (LockNet.lts g).Run (m.map .net ++ l) { n with net := n' } := by
  induction m generalizing n' with
  | nil =>
      have heq : n' = n.net := h.unique (fun _ _ h₁ h₂ => Eq.trans h₁ (Eq.symm h₂)) (LockNet.net_run hl)
      rw [heq]
      exact hl
  | cons b m ih =>
      obtain ⟨n₀, h₀, hg, rfl⟩ := h.uncons
      have hq := hm b List.mem_cons_self
      have hrun := ih (fun b' hb' => hm b' (List.mem_cons_of_mem _ hb')) h₀
      have hn : (LockNet.lts g).next { n with net := n₀ } (.net b) =
          { n with net := (RpcNet.lts g).next n₀ b } := by
        show LockNet.next g { n with net := n₀ } (.net b) = _
        obtain ⟨he, ha⟩ := silent_of_quiet hq n.stages n.held
        rw [LockNet.next, he, ha]
        rfl
      rw [← hn]
      exact .step hrun (guard_of_loud hq hg)

omit [DecidableEq κ] in
theorem loud_of_own {s : Stack κ Unit} {a : Stack.Act κ Unit} (h : own a = none) {b : RpcNet.Act κ Unit}
    (hb : b ∈ s.events a) : Stack.quiet b = false := by
  obtain ⟨⟨σ, c⟩, e, ht⟩ : ∃ x e, Stack.touch a = some (x, e) := by
    cases a with
    | own a => cases h
    | send x b r => exact ⟨_, _, rfl⟩
    | conn σ c a => exact ⟨_, _, rfl⟩
    | arrive σ c item => exact ⟨_, _, rfl⟩
    | read σ c errno accept keep => exact ⟨_, _, rfl⟩
  rw [Stack.events_touch ht, List.mem_append, List.mem_append] at hb
  rcases hb with hb | hb | hb
  · split at hb
    · rw [List.mem_singleton.mp hb]
      cases σ <;> rfl
    · cases hb
  · rw [Option.mem_toList, Option.bind_eq_some_iff] at hb
    obtain ⟨x, _, hb⟩ := hb
    simp only [Stack.ended] at hb
    split at hb
    · cases hb
      cases x <;> rfl
    · split at hb
      · cases hb
        cases x <;> rfl
      · cases hb
  · unfold Stack.taken at hb
    split at hb
    · rename_i σ' _ _ _
      obtain ⟨p, _, rfl⟩ := List.mem_map.mp hb
      cases σ' <;> rfl
    · cases hb

/-! ## What the layer adds to the parties -/

theorem guard_net {n : LockNet κ} {m : RpcNet κ Unit} {b : RpcNet.Act κ Unit} (h : n.guard g (.net b))
    (hm : RpcNet.guard g m b) : ({ n with net := m } : LockNet κ).guard g (.net b) :=
  ⟨hm, h.2⟩

omit [DecidableEq κ] in
theorem serve_net (n : LockNet κ) (m : RpcNet κ Unit) (w : Worker) (j : Job (Conn κ Unit)) :
    ({ n with net := m } : LockNet κ).serve w j = { n.serve w j with net := m } := by
  unfold LockNet.serve
  cases lockCall j.req with
  | none => rfl
  | some x =>
      obtain ⟨op, clt, lid⟩ := x
      cases op with
      | acquire =>
          cases ha : LockServer.acquire n.locks clt lid with
          | none => simp only [ha]
          | some l =>
              simp only [ha]
              rfl
      | release => rfl

omit [DecidableEq κ] in
theorem held_serve (n : LockNet κ) (w : Worker) (j : Job (Conn κ Unit)) : (n.serve w j).held = n.held := by
  unfold LockNet.serve
  split
  · split <;> rfl
  · rfl
  · rfl

/-- A step of the parties that the network follows. -/
theorem run_of_own {b : RpcNet.Act κ Unit} {l : List (LockNet.Act κ)} {n' : RpcNet κ Unit}
    (hl : (LockNet.lts g).Run l n) (h : (RpcNet.lts g).Run (b :: l.filterMap (LockNet.netAct g)) n') :
    RpcNet.guard g n.net b ∧ n' = RpcNet.next g n.net b :=
  (LockNet.net_run hl).step_of_cons (fun _ _ h₁ h₂ => Eq.trans h₁ (Eq.symm h₂)) h

/-- What a party does over the connections it does over the network. -/
theorem lockSimulation (g : Config κ Unit) : Lts.Simulation (lts g) (LockNet.lts g) view Locked where
  init s h := by
    cases h
    obtain ⟨n, rfl, hj⟩ := (Stack.layersSimulation g).init Stack.init rfl
    exact ⟨LockNet.init, rfl, hj, rfl, rfl, rfl, rfl⟩
  step {tr s l n a} hr hl hk hg := by
    have hstack := hr.component (stack_component g)
    have hnet := LockNet.net_run hl
    have heq := hk.eq
    cases a with
    | call k t op lid =>
        obtain ⟨n', hrun, hj⟩ :=
          (Stack.layersSimulation g).step (a := .own (LockNet.rpc g k t op lid)) hstack hnet hk.joined hg.1
        obtain ⟨hgb, rfl⟩ := run_of_own hl hrun
        have hguard : n.guard g (.call k t op lid) := by
          refine ⟨hgb, ?_, ?_⟩
          · rw [← hk.joined.like.clt]
            exact hg.2.2.1
          · rw [hk.held]
            exact hg.2.2.2
        refine ⟨_, .step hl hguard, hj, hk.locks, hk.stages, ?_, hk.served⟩
        show (if op = .release then n.held.filter (· ≠ (k, t, lid)) else n.held) = _
        rw [hk.held]
        rfl
    | serve w j =>
        have hguard : n.guard g (.serve w j) := by
          obtain ⟨_, hab, hw, hst, hc⟩ := hg
          refine ⟨?_, ?_, by rw [hk.stages]; exact hst, hc⟩
          · rw [← hk.joined.like.srv]
            exact hab
          · rw [← hk.joined.like.srv]
            exact hw
        have hn : LockNet.next g n (.serve w j) = { s.net.serve w j with net := n.net } := by
          rw [LockNet.next, heq, serve_net]
        refine ⟨_, .step hl hguard, ?_⟩
        show Locked (next g s (.serve w j)) (LockNet.next g n (.serve w j))
        rw [hn]
        exact ⟨hk.joined, rfl, rfl, held_serve _ w j, rfl⟩
    | stack a =>
        obtain ⟨n', hrun, hj⟩ := (Stack.layersSimulation g).step (a := a) hstack hnet hk.joined hg.1
        cases ho : own a with
        | none =>
            refine ⟨{ n with net := n' }, run_of_loud hl (fun b hb => loud_of_own ho hb) hrun, hj, hk.locks,
              ?_, ?_, hk.served⟩
            · show n.stages = (own a).elim s.stages _
              rw [ho]
              exact hk.stages
            · show n.held = (own a).elim s.held _
              rw [ho]
              exact hk.held
        | some b =>
            obtain rfl : a = .own b := by
              cases a <;> cases ho
              rfl
            obtain ⟨hgb, rfl⟩ := run_of_own hl hrun
            have hguard : n.guard g (.net b) := by
              rw [heq]
              exact guard_net (hg.2 b rfl) hgb
            refine ⟨_, .step hl hguard, hj, hk.locks, ?_, ?_, hk.served⟩
            · exact congrArg (LockNet.entered b) hk.stages
            · exact congrArg (LockNet.acquired b) hk.held

/-- As long as no client makes 2³² calls, what callers hold over the connections nobody else holds, and the
server has it locked for their client. -/
theorem exclusive_over_connections {tr : List (Act κ)} (h : (lts g).Run tr s) (hn : ∀ k, g.cltNonce k ≠ 0)
    (hf : s.stack.net.FewCalls) {k : κ} {t : Tid} {lid : UInt64} (hm : (k, t, lid) ∈ s.held) :
    LockServer.LockedBy s.locks (g.cltNonce k).toInt32 lid ∧
      ∀ k' t', (k', t', lid) ∈ s.held → (k', t') = (k, t) := by
  obtain ⟨l, hl⟩ := h.sees view
  obtain ⟨n, hrun, hk⟩ := (lockSimulation g).run hl
  have hfew : n.net.FewCalls := fun k => by
    rw [← hk.joined.like.clt]
    exact hf k
  have he := LockNet.exclusive_of_run (LockNet.unwrapped_of_fewCalls hrun hfew) hn
  rw [← hk.held] at hm ⊢
  rw [← hk.locks]
  exact ⟨he.locked k t lid (.inl hm), fun k' t' hm' => he.unique k' t' k t lid (.inl hm') (.inl hm)⟩

/-- A client binds and acquires the lock 9, over a connection whose ends send and receive in parts. -/
def soloRun : List (Act Unit) :=
  let j : Job (Conn Unit Unit) := ⟨Solo.conn 0, LockNet.soloReq 2 1⟩
  let l := Solo.callOver 0 0 j.req 1 [0, 0, 0, 0] ⟨reqPdu j.req.hdr j.req.args, by decide +kernel⟩
    ⟨(Result.mk j 0 [0, 0, 0, 0]).buf, by decide +kernel⟩
  (Solo.bindCallOver.take 24).map .stack ++ .call () 0 .acquire 9 :: ((l.drop 1).take 12).map .stack ++
    .serve 0 j :: (l.drop 13).map .stack

theorem exclusive_over_connections_solo : ∃ tr s, (lts Solo.config).Run tr s ∧ ((), 0, 9) ∈ s.held ∧
    LockServer.LockedBy s.locks 5 9 ∧ ∀ t, ((), t, 9) ∈ s.held → ((), t) = ((), 0) := by
  obtain ⟨s, hr, hs⟩ := Lts.run_of_exec (M := lts Solo.config) (s := init) (l := soloRun)
    (f := fun s => decide (((), 0, 9) ∈ s.held ∧ (s.stack.clt ()).issued.length < 2 ^ 32)) rfl
    (by decide +kernel)
  obtain ⟨hheld, hf⟩ := of_decide_eq_true hs
  have hn : ∀ k, Solo.config.cltNonce k ≠ 0 := fun _ => show (5 : UInt32) ≠ 0 by decide
  obtain ⟨hl, hall⟩ := exclusive_over_connections hr hn (fun _ => hf) hheld
  exact ⟨_, s, hr, hheld, hl, fun t ht => hall () t ht⟩

end LockStack
end StanDfs
