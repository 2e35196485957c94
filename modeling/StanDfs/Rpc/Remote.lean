import StanDfs.Marshall.RoundTrip
import StanDfs.Rpc.CallM
import StanDfs.Rpc.Lemmas.Replies
import StanDfs.Rpc.Reg

/-!
# Calls of methods

`call` marshals its arguments, and `call_m` unmarshals the result. Where the methods registered at the
servers have the types that their callers use, a call is one of the method.
-/

namespace StanDfs

open Reading (Took Whole)

/-- What is known of a procedure: the types of its arguments and its result, and what its method may
return for them. A method returns a value `dispatch` accepts as good. -/
structure Service where
  args : List Ty
  ret : Ty
  meth : Args args → Int32 × ret.Val → Prop
  nonneg : ∀ a v, meth a v → 0 ≤ v.1

namespace Rpcc

/-- `m << a1; m << a2; …` -/
def putArgs : (ts : List Ty) → Marshall → Args ts → Marshall
  | [], m, _ => m
  | t :: ts, m, (a, as) => putArgs ts (Marshall.put t m a) as

section Call

variable (A1 A2 A3 A4 A5 A6 A7 : Ty)

/-! What the eight copies of `call` give to `call_m`. -/

def callOf0 : Marshall := putArgs [] .new ()

def callOf1 (a1 : A1.Val) : Marshall := putArgs [A1] .new (a1, ())

def callOf2 (a1 : A1.Val) (a2 : A2.Val) : Marshall := putArgs [A1, A2] .new (a1, a2, ())

def callOf3 (a1 : A1.Val) (a2 : A2.Val) (a3 : A3.Val) : Marshall :=
  putArgs [A1, A2, A3] .new (a1, a2, a3, ())

def callOf4 (a1 : A1.Val) (a2 : A2.Val) (a3 : A3.Val) (a4 : A4.Val) : Marshall :=
  putArgs [A1, A2, A3, A4] .new (a1, a2, a3, a4, ())

def callOf5 (a1 : A1.Val) (a2 : A2.Val) (a3 : A3.Val) (a4 : A4.Val) (a5 : A5.Val) : Marshall :=
  putArgs [A1, A2, A3, A4, A5] .new (a1, a2, a3, a4, a5, ())

def callOf6 (a1 : A1.Val) (a2 : A2.Val) (a3 : A3.Val) (a4 : A4.Val) (a5 : A5.Val) (a6 : A6.Val) : Marshall :=
  putArgs [A1, A2, A3, A4, A5, A6] .new (a1, a2, a3, a4, a5, a6, ())

def callOf7 (a1 : A1.Val) (a2 : A2.Val) (a3 : A3.Val) (a4 : A4.Val) (a5 : A5.Val) (a6 : A6.Val)
    (a7 : A7.Val) : Marshall :=
  putArgs [A1, A2, A3, A4, A5, A6, A7] .new (a1, a2, a3, a4, a5, a6, a7, ())

end Call

theorem wrote_putArgs {ts : List Ty} (a : Args ts) {m : Marshall} (h : m.Ok) (hc : 0 < m.capa) :
    Marshall.Wrote m (Rpcs.argsBytes ts a) (putArgs ts m a) := by
  induction ts generalizing m with
  | nil => exact .refl h
  | cons t ts ih =>
      obtain ⟨x, xs⟩ := a
      have hx := Marshall.wrote_put t x h hc
      exact hx.trans (ih xs hx.ok (Nat.lt_of_lt_of_le hc hx.mono))

/-- The marshalled arguments, without the room for the header. -/
theorem args_putArgs {ts : List Ty} (a : Args ts) :
    (putArgs ts .new a).cstr.drop rpcHeaderSz = Rpcs.argsBytes ts a := by
  rw [(wrote_putArgs a Marshall.new_ok (by decide)).cstr]
  exact List.drop_left' rfl

end Rpcc

namespace Rpcs

theorem length_pdu (q : Request) : q.pdu.length = rpcHeaderSz + q.args.length := by
  obtain ⟨size, hs, hf⟩ := frame_append (p := List.replicate 4 0) (b := q.hdr.bytes ++ q.args) rfl
  have hpdu : q.pdu = size ++ (q.hdr.bytes ++ q.args) := by
    unfold Request.pdu
    rw [reqPdu_eq, List.append_assoc, hf]
  rw [hpdu, List.length_append, List.length_append, hs]
  show 4 + (20 + q.args.length) = 24 + q.args.length
  omega

/-- What `dispatch` passes to a handler. -/
def handlerArgs (q : Request) : Unmarshall := (Unmarshall.ofBuf q.pdu).unpackReqHeader.2

/-- The handler finds the arguments of the request after the header. -/
theorem handlerArgs_spec (q : Request) (hsz : rpcHeaderSz + q.args.length < 2 ^ 31) :
    Whole ⟨handlerArgs q, []⟩ ∧ (handlerArgs q).ok = true ∧ (handlerArgs q).ind ≤ (handlerArgs q).sz ∧
      (handlerArgs q).buf.drop (handlerArgs q).ind = q.args := by
  have hlen := length_pdu q
  have hdec := decodeReq_pdu q
  unfold decodeReq at hdec
  cases hp : (Unmarshall.ofBuf q.pdu).unpackReqHeader with
  | mk h u =>
      rw [hp] at hdec
      have hok : u.ok = true := by
        by_contra hno
        simp [hno] at hdec
      have hargs : u.buf.drop u.ind = q.args := by
        simp only [hok, ↓reduceIte, Option.some.injEq] at hdec
        exact congrArg Request.args hdec
      obtain ⟨hu, hle⟩ := args_of_header (by rw [hlen]; exact hsz) (by rw [hp]; exact hok)
      rw [hp] at hu
      obtain rfl : u = _ := hu
      rw [handlerArgs, hp]
      exact ⟨⟨rfl, by simpa [hlen] using hsz⟩, rfl, hle, hargs⟩

/-- A handler that finds an encoding of arguments calls its method with them. -/
theorem fn_of_args {ts : List Ty} {R : Ty} (meth : Args ts → Int32 × R.Val) {u : Unmarshall} {a : Args ts}
    (ret : Marshall) (hw : Whole ⟨u, []⟩) (hok : u.ok = true) (hi : u.ind ≤ u.sz)
    (ha : u.buf.drop u.ind = argsBytes ts a) :
    fn ts R meth u ret = ⟨some a, (meth a).1, Marshall.put R ret (meth a).2⟩ := by
  have hr : Reading.rest ⟨u, []⟩ = argsBytes ts a ++ [] := by
    rw [List.append_nil, ← ha]
    rfl
  obtain ⟨hv, ta⟩ := getArgs_of_rest hw hok hr
  have hle : (getArgs ts ⟨u, []⟩).2.u.ind ≤ (getArgs ts ⟨u, []⟩).2.u.sz := by
    have hl := congrArg List.length ha
    have hsz : u.sz = u.buf.length := hw.sz
    rw [List.length_drop, ← hsz] at hl
    rw [ta.ind, ta.sz]
    show u.ind + _ ≤ u.sz
    omega
  have hend := (rest_eq_nil_iff (ta.whole hw) hle).mp (ta.rest_eq hr)
  simp only [fn, Unmarshall.okdone, ta.ok, hend, hv]
  simp

/-- What the method gave, as the handler marshals it. -/
theorem body_put (R : Ty) (y : R.Val) : (Marshall.put R .new y).cstr.drop rpcHeaderSz = R.bytes y := by
  rw [(Marshall.wrote_put R y Marshall.new_ok (by decide)).cstr]
  exact List.drop_left' rfl

end Rpcs

namespace RpcNet

variable {κ ι : Type*} [DecidableEq κ] [DecidableEq ι] {g : Config κ ι} {s : RpcNet κ ι}

/-- Callers of the services pass arguments of their types to `call`, and their handlers are those that
`reg` makes of the methods. The sizes of messages are `int`s. -/
def Serves (svc : Int32 → Option Service) : Act κ ι → Prop
  | .clt _ (.call1 _ proc args) => ∀ P ∈ svc proc.toInt32, rpcHeaderSz + args.length < 2 ^ 31 ∧
    ∃ a : Args P.args, args = (Rpcc.putArgs P.args .new a).cstr.drop rpcHeaderSz
  | .srv _ (.handled _ j ret body) => ∀ P ∈ svc j.req.hdr.proc, rpcHeaderSz + body.length < 2 ^ 31 ∧
    ∃ meth : Args P.args → Int32 × P.ret.Val,
      let o := Rpcs.fn P.args P.ret meth (Rpcs.handlerArgs j.req) .new
      (∀ a ∈ o.call, P.meth a (meth a)) ∧ ret = o.intret ∧ body = o.ret.cstr.drop rpcHeaderSz
  | _ => True

variable {svc : Int32 → Option Service}

theorem issued_typed {tr : List (Act κ ι)} (h : ((lts g).restrict fun _ a => Serves svc a).Run tr s)
    {k : κ} {q : Request} (hq : q ∈ (s.clt k).issued) {P : Service} (hP : P ∈ svc q.hdr.proc) :
    rpcHeaderSz + q.args.length < 2 ^ 31 ∧ ∃ a : Args P.args, q.args = Rpcs.argsBytes P.args a := by
  refine h.invariant (I := fun _ s => ∀ k, ∀ q ∈ (s.clt k).issued, ∀ P ∈ svc q.hdr.proc,
    rpcHeaderSz + q.args.length < 2 ^ 31 ∧ ∃ a : Args P.args, q.args = Rpcs.argsBytes P.args a)
    ?_ ?_ k q hq P hP
  · rintro s rfl k q hq
    cases hq
  · rintro tr s a hr hs ⟨hg, ha⟩ k q hq P hP
    have hc := callStep hg
    have hnew : q ∈ ((next g s a).clt k).issued := hq
    generalize next g s a = s' at hc hnew
    cases hc with
    | other _ _ hi _ => exact hs k q (hi k ▸ hnew) P hP
    | ends _ _ _ hi => exact hs k q (hi k ▸ hnew) P hP
    | @begins k' t proc args q' _ heq _ _ _ hi =>
        rcases (hi k q).mp hnew with hold | ⟨rfl, rfl⟩
        · exact hs k q hold P hP
        · subst heq
          obtain ⟨hsz, a, rfl⟩ := ha P hP
          exact ⟨hsz, a, Rpcc.args_putArgs a⟩

/-- What a handler returned is what the method gave for the caller's arguments. -/
theorem result_typed {tr : List (Act κ ι)} (h : ((lts g).restrict fun _ a => Serves svc a).Run tr s)
    {i : ι} {res : Result (Conn κ ι)} (hres : res ∈ (s.srv i).results) {P : Service}
    (hP : P ∈ svc res.job.req.hdr.proc) {a : Args P.args}
    (ha : res.job.req.args = Rpcs.argsBytes P.args a) (hsz : rpcHeaderSz + res.job.req.args.length < 2 ^ 31) :
    rpcHeaderSz + res.body.length < 2 ^ 31 ∧ ∃ y, P.meth a (res.ret, y) ∧ res.body = P.ret.bytes y := by
  refine h.invariant (I := fun _ s => ∀ i, ∀ res ∈ (s.srv i).results, ∀ P ∈ svc res.job.req.hdr.proc,
    ∀ a, res.job.req.args = Rpcs.argsBytes P.args a → rpcHeaderSz + res.job.req.args.length < 2 ^ 31 →
      rpcHeaderSz + res.body.length < 2 ^ 31 ∧ ∃ y, P.meth a (res.ret, y) ∧ res.body = P.ret.bytes y)
    ?_ ?_ i res hres P hP a ha hsz
  · rintro s rfl i res hres
    cases hres
  · rintro tr s b hr hs ⟨hg, hb⟩ i res hres P hP a ha hsz
    cases b with
    | clt k b => exact hs i res hres P hP a ha hsz
    | srv i' b =>
        by_cases hi : i = i'
        · subst hi
          have hres : res ∈ ((s.srv i).next (g.srv i) b).results := by
            simpa [Lts.restrict, lts, next] using hres
          rcases Rpcs.results_next (e := g.srv i) (s.srv i) b with heq | ⟨w, j, ret, body, rfl, heq⟩
          · exact hs i res (heq ▸ hres) P hP a ha hsz
          · rw [heq] at hres
            rcases List.mem_append.mp hres with hold | hnew
            · exact hs i res hold P hP a ha hsz
            · obtain rfl := List.mem_singleton.mp hnew
              obtain ⟨hbody, meth, hmeth, hret, rfl⟩ := hb P hP
              obtain ⟨hw, hok, hind, hargs⟩ := Rpcs.handlerArgs_spec j.req hsz
              have hfn := Rpcs.fn_of_args meth .new hw hok hind (hargs.trans ha)
              simp only [hfn] at hbody hmeth hret ⊢
              rw [Rpcs.body_put] at hbody ⊢
              subst hret
              exact ⟨hbody, (meth a).2, hmeth a rfl, rfl⟩
        · apply hs i res ?_ P hP a ha hsz
          simpa [Lts.restrict, lts, next, Function.update_of_ne hi] using hres

/-- `call1` returns the value of a handler that was called for this very call, with its body left to read;
or it timed out, or was cancelled, or the request came to an instance that it does not name. It does not
return `atmostonce_failure` as long as no client makes 2³² calls. -/
theorem call1_returns {tr : List (Act κ ι)} (h : (lts g).Run tr s) (hf : s.FewCalls) {k : κ} {t : Tid}
    {f : Call (Conn κ ι)} {r : Int32} (hg : guard g s (.clt k (.ret t f r))) :
    r ≠ RpcConst.atmostonceFailure ∧
    (r = RpcConst.timeoutFailure ∨ (r = RpcConst.cancelFailure ∧ (s.clt k).destroyWait = true) ∨
      (r = RpcConst.oldsrvFailure ∧ ∃ i, f.req.hdr.srvNonce ≠ 0 ∧ f.req.hdr.srvNonce ≠ g.srvNonce i) ∨
      ((0 ≤ r ∨ r = RpcConst.unmarshalArgsFailure) ∧ ∃ i, ∃ res ∈ (s.srv i).results,
        res.job.conn.clt = k ∧ res.job.req = f.req ∧ res.ret = r ∧
          res.body = ((s.clt k).callers t).un.buf.drop ((s.clt k).callers t).un.ind)) := by
  replace h := hf.run h
  have hv := valid_clt h k
  have hq := (hv.inCall t f.req (by rw [hg.1.1]; rfl)).1
  rcases told_of_ret h hg.1 with rfl | hc | ⟨body, hret | ⟨rfl, q, hq', hx, hmis⟩, _, _, _, hb⟩
  · exact ⟨by decide, .inl rfl⟩
  · exact ⟨by rw [hc.1]; decide, .inr (.inl hc)⟩
  · obtain ⟨i, res, hres, hc, hreq, hv, hbody, hr⟩ := hret.res h hq
    refine ⟨?_, .inr (.inr (.inr ⟨hr, i, res, hres, hc, hreq, hv, by rw [hbody, hb]⟩))⟩
    rcases hr with hr | rfl
    · rintro rfl
      exact absurd hr (by decide)
    · decide
  · rw [hv.unique hq' hq hx] at hmis
    exact ⟨by decide, .inr (.inr (.inl ⟨rfl, hmis⟩))⟩

/-- A bound client's call that timed out. -/
theorem call1_returns_solo : ∃ tr s, (lts Solo.config).Run tr s ∧
    guard Solo.config s (.clt () (.ret 0 ⟨Solo.req 2 1, none⟩ (-1))) ∧
    (-1 : Int32) ≠ RpcConst.atmostonceFailure := by
  obtain ⟨s, hr, hs⟩ := Lts.run_of_exec (M := lts Solo.config) (s := init)
    (l := Solo.bind ++ [.clt () (.call1 0 2 []), .clt () (.die (Solo.conn 0)),
      .clt () (.getRefconn 0 ⟨Solo.req 2 1, none⟩ none), .clt () (.giveup 0 ⟨Solo.req 2 1, none⟩),
      .clt () (.leave 0 ⟨Solo.req 2 1, none⟩)])
    (f := fun s => decide (guard Solo.config s (.clt () (.ret 0 ⟨Solo.req 2 1, none⟩ (-1))) ∧
      (s.clt ()).issued.length < 2 ^ 32)) rfl (by decide +kernel)
  obtain ⟨hg, hf⟩ := of_decide_eq_true hs
  exact ⟨_, s, hr, hg, (call1_returns hr (fun _ => hf) hg).1⟩

/-- A call of a method, where no client makes 2³² calls: its caller gets what the method returned for the
caller's arguments, or one of three errors that leaves its variable alone. -/
theorem call_transparent {tr : List (Act κ ι)} (h : ((lts g).restrict fun _ a => Serves svc a).Run tr s)
    (hf : s.FewCalls) {k : κ} {t : Tid} {f : Call (Conn κ ι)} {r : Int32}
    (hg : guard g s (.clt k (.ret t f r))) {P : Service} (hP : P ∈ svc f.req.hdr.proc) (old : P.ret.Val)
    (hold : P.ret.Replaces ∨ old = P.ret.default) :
    ∃ a : Args P.args, f.req.args = Rpcs.argsBytes P.args a ∧
      ((∃ y, P.meth a (r, y) ∧ callM P.ret r ((s.clt k).callers t).un old = (r, y) ∧
        ∃ i, ∃ res ∈ (s.srv i).results, res.job.conn.clt = k ∧ res.job.req = f.req ∧ res.ret = r ∧
          res.body = P.ret.bytes y) ∨
      (r = RpcConst.timeoutFailure ∨ r = RpcConst.cancelFailure ∨ r = RpcConst.oldsrvFailure) ∧
        callM P.ret r ((s.clt k).callers t).un old = (r, old)) := by
  have hrun := hf.run h.of_restrict
  have hq := ((valid_clt hrun k).inCall t f.req (by rw [hg.1.1]; rfl)).1
  obtain ⟨hsz, a, ha⟩ := issued_typed h hq hP
  refine ⟨a, ha, ?_⟩
  have herror : ∀ r : Int32, r < 0 → callM P.ret r ((s.clt k).callers t).un old = (r, old) :=
    fun r hr => if_pos hr
  rcases told_of_ret hrun hg.1 with rfl | ⟨rfl, _⟩ | ⟨body, hret | ⟨rfl, _⟩, hok, hwhole, hlen, hb⟩
  · exact .inr ⟨.inl rfl, herror _ (by decide)⟩
  · exact .inr ⟨.inr (.inl rfl), herror _ (by decide)⟩
  · obtain ⟨i, res, hres, hc, hreq, hv, hbody, _⟩ := hret.res hrun hq
    rw [← hreq] at hP ha hsz
    obtain ⟨hsize, y, hm, hy⟩ := result_typed h hres hP ha hsz
    have hr : ¬ r < 0 := not_neg_of_nonneg (hv ▸ P.nonneg _ _ hm)
    have hw : Whole ⟨((s.clt k).callers t).un, []⟩ := by
      refine ⟨hwhole, ?_⟩
      show ((s.clt k).callers t).un.sz < 2 ^ 31
      rw [hwhole, hlen, ← hbody]
      exact hsize
    have hcall := (callM_of_rest old hr hw hok (by rw [hb, ← hbody, hy])).mpr hold
    exact .inl ⟨y, hv ▸ hm, hcall, i, res, hres, hc, hreq, hv, hy⟩
  · exact .inr ⟨.inr (.inr rfl), herror _ (by decide)⟩

/-- A method without arguments that returns 0 and gives the byte 3. -/
def soloService : Service := ⟨[], .uchar, fun _ v => v = ((0 : Int32), (3 : UInt8)), by rintro _ _ rfl; decide⟩

theorem call_transparent_solo : ∃ tr s,
    ((lts Solo.config).restrict fun _ a => Serves (fun p => if p = 2 then some soloService else none) a).Run
      tr s ∧
    guard Solo.config s (.clt () (.ret 0 ⟨Solo.req 2 1, some (Solo.conn 0)⟩ 0)) ∧
    callM .uchar 0 ((s.clt ()).callers 0).un (7 : UInt8) = ((0 : Int32), (3 : UInt8)) := by
  obtain ⟨s, hr, hs⟩ := Lts.run_of_exec (M := lts Solo.config) (s := init)
    (l := Solo.bind ++ (Solo.call 0 0 (Solo.req 2 1) 1 [3]).dropLast)
    (f := fun s => decide (guard Solo.config s (.clt () (.ret 0 ⟨Solo.req 2 1, some (Solo.conn 0)⟩ 0)) ∧
      (s.clt ()).issued.length < 2 ^ 32)) rfl (by decide +kernel)
  obtain ⟨hg, hf⟩ := of_decide_eq_true hs
  have hserves : ∀ a ∈ (Solo.bind ++ (Solo.call 0 0 (Solo.req 2 1) 1 [3]).dropLast).reverse,
      ∀ _ : RpcNet Unit Unit, Serves (fun p => if p = 2 then some soloService else none) a := by
    intro a ha _
    rw [List.mem_reverse] at ha
    revert a
    simp only [Solo.bind, Solo.call, Solo.transmit, Solo.dispatch, Solo.reply, Solo.finish,
      List.cons_append, List.nil_append, List.dropLast, List.forall_mem_cons]
    have hbind : ∀ P, P ∉ if Solo.bindReq.hdr.proc = 2 then some soloService else none := by
      intro P hP
      cases hP
    and_intros <;> try trivial
    · exact fun P hP => absurd hP (hbind P)
    · exact fun P hP => absurd hP (hbind P)
    · rintro P ⟨⟩
      exact ⟨by decide, (), by decide +kernel⟩
    · rintro P ⟨⟩
      refine ⟨by decide, fun _ => ((0 : Int32), (3 : UInt8)), fun _ _ => rfl, ?_⟩
      constructor <;> decide +kernel
    · exact fun a ha => absurd ha List.not_mem_nil
  obtain ⟨_, _, ⟨y, hy, hcall, _⟩ | ⟨herr, _⟩⟩ :=
    call_transparent (hr.restrict_of_forall hserves) (fun _ => hf) hg (P := soloService) rfl (7 : UInt8)
      (.inl trivial)
  · cases hy
    exact ⟨_, s, hr.restrict_of_forall hserves, hg, hcall⟩
  · exact absurd herr (by decide)

end RpcNet
end StanDfs
