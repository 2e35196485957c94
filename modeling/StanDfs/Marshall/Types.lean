import StanDfs.Lib.SortedMap
import StanDfs.Marshall

/-!
# Values

The types that have an `operator<<` and an `operator>>`, and their values.
-/

namespace StanDfs

inductive Ty
  | bool
  | char
  | uchar
  | short
  | ushort
  | int
  | uint
  | ulonglong
  | string
  | vec (t : Ty)
  | map (a b : Ty)
  deriving DecidableEq, Repr

/-- The values of a type, with the `operator<` that orders the keys of a `std::map`. -/
structure Values where
  carrier : Type
  order : LinearOrder carrier

namespace Values

/-- Values that are ordered as integers. -/
def byInt (α : Type) (f : α → Int) (h : Function.Injective f) : Values := ⟨α, LinearOrder.lift' f h⟩

end Values

namespace Ty

/-- A `char` is signed; the characters of a `std::string` compare as unsigned. -/
def values : Ty → Values
  | .bool => ⟨Bool, inferInstance⟩
  | .char => .byInt Int8 Int8.toInt fun _ _ h => Int8.toInt_inj.mp h
  | .uchar => .byInt UInt8 (fun x => x.toNat) fun _ _ h => UInt8.toNat_inj.mp (Int.ofNat.inj h)
  | .short => .byInt Int16 Int16.toInt fun _ _ h => Int16.toInt_inj.mp h
  | .ushort => .byInt UInt16 (fun x => x.toNat) fun _ _ h => UInt16.toNat_inj.mp (Int.ofNat.inj h)
  | .int => .byInt Int32 Int32.toInt fun _ _ h => Int32.toInt_inj.mp h
  | .uint => .byInt UInt32 (fun x => x.toNat) fun _ _ h => UInt32.toNat_inj.mp (Int.ofNat.inj h)
  | .ulonglong => .byInt UInt64 (fun x => x.toNat) fun _ _ h => UInt64.toNat_inj.mp (Int.ofNat.inj h)
  | .string =>
    ⟨Bytes, LinearOrder.lift' (List.map UInt8.toNat)
      (List.map_injective_iff.mpr fun _ _ h => UInt8.toNat_inj.mp h)⟩
  | .vec t =>
    let _ := t.values.order
    ⟨List t.values.carrier, inferInstance⟩
  | .map a b =>
    let _ := a.values.order
    let _ := b.values.order
    ⟨SortedMap a.values.carrier b.values.carrier, inferInstance⟩

/-- A value of the type. -/
abbrev Val (t : Ty) : Type := t.values.carrier

instance (t : Ty) : LinearOrder t.Val := t.values.order

/-- What a fresh variable of the type holds. That of an integer is indeterminate; it reads as 0 here. -/
def default : (t : Ty) → t.Val
  | .bool => false
  | .char => (0 : Int8)
  | .uchar => (0 : UInt8)
  | .short => (0 : Int16)
  | .ushort => (0 : UInt16)
  | .int => (0 : Int32)
  | .uint => (0 : UInt32)
  | .ulonglong => (0 : UInt64)
  | .string => ([] : Bytes)
  | .vec t => ([] : List t.Val)
  | .map a b => (SortedMap.empty : SortedMap a.Val b.Val)

end Ty
end StanDfs
