import StanDfs.Marshall.Decode
import StanDfs.Rpc.Rpcs

/-!
# Handlers

What `reg` makes of a method: unmarshal the arguments, call the method if they are all there, and marshal
what it gives.
-/

namespace StanDfs

/-- The arguments of a method. -/
def Args : List Ty → Type
  | [] => Unit
  | t :: ts => t.Val × Args ts

/-- What a handler does: the arguments its method is called with, if it is called, and what `fn` returns
and leaves in `ret`. -/
structure Outcome (α : Type) where
  call : Option α
  intret : Int32
  ret : Marshall

namespace Rpcs

/-- `A1 a1; …; args >> a1; …` -/
def getArgs : (ts : List Ty) → Reading → Args ts × Reading
  | [], r => ((), r)
  | t :: ts, r =>
    let (a, r) := Reading.get t r t.default
    let (as, r) := getArgs ts r
    ((a, as), r)

/-- `h1::fn` of the seven copies of `reg`. -/
def fn (ts : List Ty) (R : Ty) (meth : Args ts → Int32 × R.Val) (args : Unmarshall) (ret : Marshall) :
    Outcome (Args ts) :=
  let (a, args) := getArgs ts ⟨args, []⟩
  if !args.u.okdone then ⟨none, RpcConst.unmarshalArgsFailure, ret⟩
  else
    let (b, r) := meth a
    ⟨some a, b, Marshall.put R ret r⟩

section Reg

variable (A1 A2 A3 A4 A5 A6 A7 R : Ty)

def reg1 (meth : A1.Val → Int32 × R.Val) := fn [A1] R fun (a1, _) => meth a1

def reg2 (meth : A1.Val → A2.Val → Int32 × R.Val) := fn [A1, A2] R fun (a1, a2, _) => meth a1 a2

def reg3 (meth : A1.Val → A2.Val → A3.Val → Int32 × R.Val) :=
  fn [A1, A2, A3] R fun (a1, a2, a3, _) => meth a1 a2 a3

def reg4 (meth : A1.Val → A2.Val → A3.Val → A4.Val → Int32 × R.Val) :=
  fn [A1, A2, A3, A4] R fun (a1, a2, a3, a4, _) => meth a1 a2 a3 a4

def reg5 (meth : A1.Val → A2.Val → A3.Val → A4.Val → A5.Val → Int32 × R.Val) :=
  fn [A1, A2, A3, A4, A5] R fun (a1, a2, a3, a4, a5, _) => meth a1 a2 a3 a4 a5

def reg6 (meth : A1.Val → A2.Val → A3.Val → A4.Val → A5.Val → A6.Val → Int32 × R.Val) :=
  fn [A1, A2, A3, A4, A5, A6] R fun (a1, a2, a3, a4, a5, a6, _) => meth a1 a2 a3 a4 a5 a6

def reg7 (meth : A1.Val → A2.Val → A3.Val → A4.Val → A5.Val → A6.Val → A7.Val → Int32 × R.Val) :=
  fn [A1, A2, A3, A4, A5, A6, A7] R fun (a1, a2, a3, a4, a5, a6, a7, _) => meth a1 a2 a3 a4 a5 a6 a7

end Reg

/-- The encodings of the arguments, one after the other. -/
def argsBytes : (ts : List Ty) → Args ts → Bytes
  | [], _ => []
  | t :: ts, (a, as) => t.bytes a ++ argsBytes ts as

open Reading (Took Whole)

theorem getArgs_of_rest {ts : List Ty} {a : Args ts} {r : Reading} {l : Bytes} (hw : r.Whole)
    (hok : r.u.ok = true) (h : r.rest = argsBytes ts a ++ l) :
    (getArgs ts r).1 = a ∧ Took r (argsBytes ts a) (getArgs ts r).2 := by
  induction ts generalizing r with
  | nil => exact ⟨rfl, .refl hok⟩
  | cons t ts ih =>
      obtain ⟨x, xs⟩ := a
      rw [argsBytes, List.append_assoc] at h
      obtain ⟨hx, tx⟩ := Reading.get_of_rest t hw hok h
      obtain ⟨hxs, txs⟩ := ih (tx.whole hw) tx.ok (tx.rest_eq h)
      refine ⟨?_, tx.trans txs⟩
      show (_, (getArgs ts _).1) = (x, xs)
      rw [hx, hxs]

theorem getArgs_of_ok {ts : List Ty} {r : Reading} (hts : ∀ t ∈ ts, t.Exact) (hw : r.Whole)
    (hok : (getArgs ts r).2.u.ok = true) :
    Took r (argsBytes ts (getArgs ts r).1) (getArgs ts r).2 := by
  induction ts generalizing r with
  | nil => exact .refl hok
  | cons t ts ih =>
      have txs := ih (fun t ht => hts t (List.mem_cons_of_mem _ ht)) (Reading.get_whole t t.default hw) hok
      have tx := Reading.get_of_ok t (hts t List.mem_cons_self) hw txs.before
      exact tx.trans txs

/-- The buffer is used up just when nothing is left to read. -/
theorem rest_eq_nil_iff {r : Reading} (hw : r.Whole) (hi : r.u.ind ≤ r.u.sz) :
    r.rest = [] ↔ r.u.ind = r.u.sz := by
  rw [Reading.rest, List.drop_eq_nil_iff, ← hw.sz]
  omega

/-- The method is called with arguments whose encodings are all that is left, if there are such, and not
at all otherwise. -/
theorem fn_spec {ts : List Ty} {R : Ty} (meth : Args ts → Int32 × R.Val) {args : Unmarshall}
    (ret : Marshall) (hts : ∀ t ∈ ts, t.Exact) (hw : Whole ⟨args, []⟩) (hok : args.ok = true)
    (hi : args.ind ≤ args.sz) :
    (∀ a, argsBytes ts a = args.buf.drop args.ind →
      fn ts R meth args ret = ⟨some a, (meth a).1, Marshall.put R ret (meth a).2⟩) ∧
    ((∀ a, argsBytes ts a ≠ args.buf.drop args.ind) →
      fn ts R meth args ret = ⟨none, RpcConst.unmarshalArgsFailure, ret⟩) := by
  constructor
  · intro a ha
    have hr : Reading.rest ⟨args, []⟩ = argsBytes ts a ++ [] := by
      rw [List.append_nil, ha]
      rfl
    obtain ⟨hv, ta⟩ := getArgs_of_rest hw hok hr
    have hle : (getArgs ts ⟨args, []⟩).2.u.ind ≤ (getArgs ts ⟨args, []⟩).2.u.sz := by
      have hl := congrArg List.length ha
      have hsz : args.sz = args.buf.length := hw.sz
      rw [List.length_drop, ← hsz] at hl
      rw [ta.ind, ta.sz]
      show args.ind + _ ≤ args.sz
      omega
    have hend := (rest_eq_nil_iff (ta.whole hw) hle).mp (ta.rest_eq hr)
    simp only [fn, Unmarshall.okdone, ta.ok, hend, hv]
    simp
  · intro hno
    have hdone : (getArgs ts ⟨args, []⟩).2.u.okdone = false := by
      by_contra hd
      simp only [Unmarshall.okdone, Bool.not_eq_false, Bool.and_eq_true, beq_iff_eq] at hd
      have ta := getArgs_of_ok hts hw hd.1
      have hnil := (rest_eq_nil_iff (ta.whole hw) (Nat.le_of_eq hd.2)).mpr hd.2
      have hr := ta.rest
      rw [hnil, List.append_nil] at hr
      exact hno _ hr.symm
    simp only [fn, hdone]
    simp

/-- What `dispatch` hands to a handler: a good header is all there. -/
theorem args_of_header {buf : Bytes} (hb : buf.length < 2 ^ 31)
    (hok : (Unmarshall.ofBuf buf).unpackReqHeader.2.ok = true) :
    (Unmarshall.ofBuf buf).unpackReqHeader.2 = ⟨buf, buf.length, rpcHeaderSz, true⟩ ∧
      rpcHeaderSz ≤ buf.length := by
  have hw : Whole ((Reading.ofBuf buf).seek rpcSz) := ⟨rfl, hb⟩
  have hu : (Unmarshall.ofBuf buf).unpackReqHeader.2 = (Reading.ofBuf buf).unpackReqHeader.2.u :=
    congrArg Prod.snd (Reading.unpackReqHeader_u (.ofBuf buf))
  rw [hu] at hok ⊢
  have hwi : ∀ {r : Reading}, r.Whole → r.getInt.2.Whole := fun h =>
    Reading.getUint_preserves (P := Whole) (fun _ h => h.rawbyte) h
  have t₅ := Reading.getUint_of_ok (hwi (hwi (hwi (hwi hw)))) hok
  have t₄ := Reading.getUint_of_ok (hwi (hwi (hwi hw))) t₅.before
  have t₃ := Reading.getUint_of_ok (hwi (hwi hw)) t₄.before
  have t₂ := Reading.getUint_of_ok (hwi hw) t₃.before
  have t₁ := Reading.getUint_of_ok hw t₂.before
  have t := (((t₁.trans t₂).trans t₃).trans t₄).trans t₅
  have hlen := congrArg List.length t.rest
  simp only [Reading.rest, List.length_drop, List.length_append, BigEndian.length_bytes] at hlen
  have hu : ∀ u : Unmarshall, u.buf = buf → u.sz = buf.length → u.ind = rpcHeaderSz → u.ok = true →
      u = ⟨buf, buf.length, rpcHeaderSz, true⟩ := by
    rintro ⟨b, sz, ind, ok⟩ h₁ h₂ h₃ h₄
    rw [Unmarshall.mk.injEq]
    exact ⟨h₁, h₂, h₃, h₄⟩
  refine ⟨hu _ t.buf t.sz rfl hok, ?_⟩
  have hl : buf.length - 4 = _ := hlen
  show 24 ≤ buf.length
  omega

/-- A handler calls its method just on the bodies that are encodings of arguments, and with these. -/
theorem handler_exact {ts : List Ty} {R : Ty} (meth : Args ts → Int32 × R.Val) {buf : Bytes}
    (ret : Marshall) (hts : ∀ t ∈ ts, t.Exact) (hb : buf.length < 2 ^ 31)
    (hok : (Unmarshall.ofBuf buf).unpackReqHeader.2.ok = true) :
    (∀ a, argsBytes ts a = buf.drop rpcHeaderSz →
      fn ts R meth (Unmarshall.ofBuf buf).unpackReqHeader.2 ret
        = ⟨some a, (meth a).1, Marshall.put R ret (meth a).2⟩) ∧
    ((∀ a, argsBytes ts a ≠ buf.drop rpcHeaderSz) →
      fn ts R meth (Unmarshall.ofBuf buf).unpackReqHeader.2 ret
        = ⟨none, RpcConst.unmarshalArgsFailure, ret⟩) := by
  obtain ⟨hu, hle⟩ := args_of_header hb hok
  rw [hu]
  have hw : Whole ⟨⟨buf, buf.length, rpcHeaderSz, true⟩, []⟩ := ⟨rfl, hb⟩
  exact fn_spec meth ret hts hw rfl hle

/-- A method of a `char` and a `std::vector<short>`. -/
theorem handler_exact_char_vec :
    let meth : Args [.char, .vec .short] → Int32 × Ty.Val .int := fun _ => (0, (7 : Int32))
    (fn [.char, .vec .short] .int meth
      (Unmarshall.ofBuf (List.replicate 24 0 ++ [255, 0, 0, 0, 1, 1, 2])).unpackReqHeader.2 .new).call
        = some ((-1 : Int8), ([258] : List Int16), ()) := by
  intro meth
  have h := (@handler_exact [.char, .vec .short] .int meth
    (List.replicate 24 0 ++ [255, 0, 0, 0, 1, 1, 2]) .new (by simp [Ty.Exact]) (by decide)
    (by decide +kernel)).1 ((-1 : Int8), ([258] : List Int16), ()) (by decide +kernel)
  exact congrArg Outcome.call h

/-- The handler of `bind` is made of a method of an `int`. -/
theorem rpcbind_eq (nonce : UInt32) (args : Bytes) :
    let o := reg1 .int .int (fun _ => ((0 : Int32), nonce.toInt32)) (Unmarshall.ofBuf args) .new
    rpcbind nonce args = (o.intret, o.ret.cstr.drop rpcHeaderSz) := by
  have hu := Reading.getInt_u ⟨Unmarshall.ofBuf args, []⟩
  have hbody : (Marshall.put .int .new nonce.toInt32).cstr.drop rpcHeaderSz = BigEndian.bytes nonce := by
    rw [(Marshall.wrote_put .int nonce.toInt32 Marshall.new_ok (by decide)).cstr]
    have hd : (Marshall.new.cstr ++ Ty.bytes .int nonce.toInt32).drop rpcHeaderSz =
        Ty.bytes .int nonce.toInt32 := List.drop_left' rfl
    exact hd.trans (congrArg BigEndian.bytes (UInt32.toUInt32_toInt32 nonce))
  simp only [rpcbind, reg1, fn, getArgs, Reading.get, hu]
  by_cases hd : (Reading.getInt ⟨Unmarshall.ofBuf args, []⟩).2.u.okdone = true
  · simp [hd, hbody]
  · have hnew : Marshall.new.cstr.drop rpcHeaderSz = [] := rfl
    simp [hd, hnew]

end Rpcs
end StanDfs
