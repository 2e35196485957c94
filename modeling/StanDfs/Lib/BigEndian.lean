import Mathlib.Data.Nat.Bitwise
import Mathlib.Tactic.Common

/-!
# Big-endian words

The bytes of a word, most significant first, and the word such bytes stand for.
-/

namespace BigEndian

/-- The four bytes of `n`, most significant first. -/
def bytes (n : UInt32) : List UInt8 :=
  [(n >>> 24).toUInt8, (n >>> 16).toUInt8, (n >>> 8).toUInt8, n.toUInt8]

/-- The word the bytes `a b c d` stand for, most significant first. -/
def word (a b c d : UInt8) : UInt32 :=
  a.toUInt32 <<< 24 ||| b.toUInt32 <<< 16 ||| c.toUInt32 <<< 8 ||| d.toUInt32

@[simp] theorem length_bytes (n : UInt32) : (bytes n).length = 4 := rfl

theorem getLsbD_byte (n k : UInt32) (i : Nat) :
    (n >>> k).toUInt8.toBitVec.getLsbD i
      = (decide (i < 8) && n.toBitVec.getLsbD (k.toNat % 32 + i)) := by
  simp

theorem getLsbD_low_byte (n : UInt32) (i : Nat) :
    n.toUInt8.toBitVec.getLsbD i = (decide (i < 8) && n.toBitVec.getLsbD i) := by
  simp

theorem getLsbD_word (a b c d : UInt8) (i : Nat) : (word a b c d).toBitVec.getLsbD i =
    (decide (i < 32) && ((decide (24 ≤ i) && a.toBitVec.getLsbD (i - 24))
      || (decide (16 ≤ i ∧ i < 24) && b.toBitVec.getLsbD (i - 16))
      || (decide (8 ≤ i ∧ i < 16) && c.toBitVec.getLsbD (i - 8)) || d.toBitVec.getLsbD i)) := by
  have hout : ∀ (x : UInt8) (j : Nat), 8 ≤ j → x.toBitVec.getLsbD j = false :=
    fun x _ h => BitVec.getLsbD_of_ge _ _ h
  simp only [word, UInt32.toBitVec_or, UInt32.toBitVec_shiftLeft, BitVec.getLsbD_or]
  simp only [UInt32.toBitVec_ofNat, BitVec.shiftLeft_eq', BitVec.toNat_umod, BitVec.toNat_ofNat,
    BitVec.getLsbD_shiftLeft, UInt8.toBitVec_toUInt32, BitVec.getLsbD_setWidth, Nat.reducePow,
    Nat.reduceMod]
  by_cases h8 : i < 8 <;> by_cases h16 : i < 16 <;> by_cases h24 : i < 24 <;>
    by_cases h32 : i < 32 <;> grind

theorem word_bytes (n : UInt32) :
    word (n >>> 24).toUInt8 (n >>> 16).toUInt8 (n >>> 8).toUInt8 n.toUInt8 = n := by
  apply UInt32.toBitVec_inj.mp
  apply BitVec.eq_of_getLsbD_eq
  intro i hi
  rw [getLsbD_word, getLsbD_byte, getLsbD_byte, getLsbD_byte, getLsbD_low_byte n]
  simp only [show (24 : UInt32).toNat = 24 from rfl, show (16 : UInt32).toNat = 16 from rfl,
    show (8 : UInt32).toNat = 8 from rfl, hi]
  by_cases h8 : i < 8 <;> by_cases h16 : i < 16 <;> by_cases h24 : i < 24 <;> grind

theorem bytes_word (a b c d : UInt8) : bytes (word a b c d) = [a, b, c, d] := by
  have hout : ∀ (x : UInt8) (j : Nat), 8 ≤ j → x.toBitVec.getLsbD j = false :=
    fun x _ h => BitVec.getLsbD_of_ge _ _ h
  simp only [bytes, List.cons.injEq, and_true]
  refine ⟨?_, ?_, ?_, ?_⟩
  all_goals
    apply UInt8.toBitVec_inj.mp
    apply BitVec.eq_of_getLsbD_eq
    intro i hi
    simp only [getLsbD_byte, getLsbD_low_byte (word a b c d), getLsbD_word, show (24 : UInt32).toNat = 24 from rfl,
      show (16 : UInt32).toNat = 16 from rfl, show (8 : UInt32).toNat = 8 from rfl]
    grind

/-! ## Eight-byte words -/

/-- The two halves of a 64-bit word make it up again. -/
theorem halves_eq (n : UInt64) :
    n.toUInt32.toUInt64 ||| (n >>> 32).toUInt32.toUInt64 <<< 32 = n := by
  apply UInt64.toBitVec_inj.mp
  apply BitVec.eq_of_getLsbD_eq
  intro i hi
  simp only [UInt64.toBitVec_or, UInt64.toBitVec_shiftLeft, UInt32.toBitVec_toUInt64,
    UInt64.toBitVec_toUInt32, UInt64.toBitVec_shiftRight, BitVec.getLsbD_or]
  by_cases h : i < 32
  · simp [h, hi]
  · have hsum : 32 + (i - 32) = i := by omega
    have hlt : i - 32 < 32 := by omega
    simp [h, hi, hsum, hlt]

theorem halves_or (h l : UInt32) : ((l.toUInt64 ||| h.toUInt64 <<< 32) >>> 32).toUInt32 = h ∧
    (l.toUInt64 ||| h.toUInt64 <<< 32).toUInt32 = l := by
  constructor
  all_goals
    apply UInt32.toBitVec_inj.mp
    apply BitVec.eq_of_getLsbD_eq
    intro i hi
    have hlt : ¬ 32 + i < 32 := by omega
    have h64 : 32 + i < 64 ∧ i < 64 := by omega
    simp [hi, hlt, h64]

/-! ## Two-byte words -/

/-- The two bytes of `n`, most significant first. -/
def bytes16 (n : UInt16) : List UInt8 := [(n >>> 8).toUInt8, n.toUInt8]

/-- The word the bytes `a b` stand for, most significant first. -/
def word16 (a b : UInt8) : UInt16 := a.toUInt16 <<< 8 ||| b.toUInt16

theorem getLsbD_word16 (a b : UInt8) {i : Nat} (hi : i < 16) : (word16 a b).toBitVec.getLsbD i =
    ((decide (8 ≤ i) && a.toBitVec.getLsbD (i - 8)) || b.toBitVec.getLsbD i) := by
  simp only [word16, UInt16.toBitVec_or, UInt16.toBitVec_shiftLeft, BitVec.getLsbD_or]
  simp only [UInt16.toBitVec_ofNat, BitVec.shiftLeft_eq', BitVec.toNat_umod, BitVec.toNat_ofNat,
    BitVec.getLsbD_shiftLeft, UInt8.toBitVec_toUInt16, BitVec.getLsbD_setWidth, Nat.reducePow,
    Nat.reduceMod]
  by_cases h8 : i < 8 <;> grind

theorem word16_bytes (n : UInt16) : word16 (n >>> 8).toUInt8 n.toUInt8 = n := by
  apply UInt16.toBitVec_inj.mp
  apply BitVec.eq_of_getLsbD_eq
  intro i hi
  rw [getLsbD_word16 _ _ hi]
  by_cases h8 : i < 8
  · have hlt : ¬ 8 ≤ i := by omega
    simp [h8, hlt]
  · have hlt : i - 8 < 8 := by omega
    have hsum : 8 + (i - 8) = i := by omega
    have hge : 8 ≤ i := by omega
    simp [hlt, hsum, hge]

theorem bytes16_word (a b : UInt8) : bytes16 (word16 a b) = [a, b] := by
  have hout : ∀ (x : UInt8) (j : Nat), 8 ≤ j → x.toBitVec.getLsbD j = false :=
    fun x _ h => BitVec.getLsbD_of_ge _ _ h
  simp only [bytes16, List.cons.injEq, and_true]
  constructor
  · apply UInt8.toBitVec_inj.mp
    apply BitVec.eq_of_getLsbD_eq
    intro i hi
    have hb := getLsbD_word16 a b (i := 8 + i) (by omega)
    have ha := hout b (8 + i) (by omega)
    have hsub : 8 + i - 8 = i := by omega
    simp only [hsub, ha, Bool.or_false, show 8 ≤ 8 + i by omega, decide_true, Bool.true_and] at hb
    simpa [hi] using hb
  · apply UInt8.toBitVec_inj.mp
    apply BitVec.eq_of_getLsbD_eq
    intro i hi
    have hb := getLsbD_word16 a b (i := i) (by omega)
    simp only [show ¬ 8 ≤ i by omega, decide_false, Bool.false_and, Bool.false_or] at hb
    simpa [hi] using hb

end BigEndian
