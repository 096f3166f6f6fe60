import Nanom.Common.BitView
import Nanom.Common.Loop
import Nanom.Nom.Bits

/-!
# Described structs

The types a described struct is made of: scalars, scalars in a byte order of
their own (`be` and `le`), bit fields, arrays and structs. `Ty.bits` is the size
on the wire, the fields of a struct lie end to end, and `layoutOk` is the check
at compile time. `Ty.Compiles` says that every check passes.
-/

namespace Nanom.Layout

open Nom

/-- The sizes of the fixed-width integers. -/
inductive Size
  | one
  | two
  | four
  | eight
deriving DecidableEq

def Size.bytes : Size → ℕ
  | .one => 1
  | .two => 2
  | .four => 4
  | .eight => 8

def uintForBytes (n : ℕ) : Size :=
  if n ≤ 1 then .one else if n ≤ 2 then .two else if n ≤ 4 then .four else .eight

def uintForBits (n : ℕ) : Size := uintForBytes ((n + 7) / 8)

theorem le_uintForBits {n : ℕ} (h : n ≤ 64) : n ≤ 8 * (uintForBits n).bytes := by
  rw [uintForBits, uintForBytes]
  split_ifs <;> rw [Size.bytes] <;> omega

/-! ## Scalars -/

/-- The arithmetic types: `float` and `double` are told apart by a flag. -/
inductive Scalar
  | bool
  | int (signed : Bool) (size : Size)
  | float (double : Bool)
deriving DecidableEq

namespace Scalar

/-- `sizeof`. -/
def size : Scalar → ℕ
  | .bool => 1
  | .int _ s => s.bytes
  | .float double => if double then 8 else 4

/-- A number is its bits. -/
def Value : Scalar → Type
  | .bool => Bool
  | .int signed s => BitVec (8 * (int signed s).size)
  | .float double => BitVec (8 * (float double).size)

/-- `std::bit_cast` from the unsigned integer of the same size. A byte other than
0 and 1 is no `bool`; what is made of it here is not used by any result. -/
def ofBits : (s : Scalar) → ℕ → s.Value
  | .bool, u => u != 0
  | .int signed s, u => BitVec.ofNat (8 * (int signed s).size) u
  | .float double, u => BitVec.ofNat (8 * (float double).size) u

/-- `std::bit_cast` to the unsigned integer of the same size. -/
def toBits : (s : Scalar) → s.Value → ℕ
  | .bool, v => Bool.toNat v
  | .int _ _, v => BitVec.toNat v
  | .float _, v => BitVec.toNat v

variable {s : Scalar}

theorem toBits_lt (s : Scalar) (v : s.Value) : s.toBits v < 2 ^ (8 * s.size) := by
  cases s with
  | bool => exact lt_of_le_of_lt (Bool.toNat_le v) (by decide)
  | int signed s | float double => exact BitVec.isLt v

theorem ofBits_toBits (s : Scalar) (v : s.Value) : s.ofBits (s.toBits v) = v := by
  cases s with
  | bool => cases v <;> rfl
  | int signed s | float double => exact BitVec.ofNat_toNat _ v |>.trans (BitVec.setWidth_eq v)

theorem toBits_ofBits (hs : s ≠ .bool) {u : ℕ} (hu : u < 2 ^ (8 * s.size)) :
    s.toBits (s.ofBits u) = u := by
  cases s with
  | bool => exact absurd rfl hs
  | int signed s | float double => exact (BitVec.toNat_ofNat u _).trans (Nat.mod_eq_of_lt hu)

end Scalar

/-! ## Types -/

/-- The member types of a described struct. A bit field is `ubits` or `ibits`. -/
inductive Ty
  | scalar (s : Scalar)
  | endian (order : Endian) (s : Scalar)
  | bits (signed : Bool) (n : ℕ) (order : BitOrder) (le_n : 1 + signed.toNat ≤ n) (n_le : n ≤ 64)
  | array (n : ℕ) (elem : Ty)
  | struct (n : ℕ) (name : String) (field : Fin n → String) (types : Fin n → Ty)

namespace Ty

/-- The values of a member: `be` and `le` keep the bytes of the wire. -/
def Value : Ty → Type
  | .scalar s => s.Value
  | .endian _ s => Fin s.size → UInt8
  | .bits _ n _ _ _ => BitVec (8 * (uintForBits n).bytes)
  | .array n elem => Fin n → elem.Value
  | .struct n _ _ types => (k : Fin n) → (types k).Value

/-- `wire<F>::bits`. -/
def wireBits : Ty → ℕ
  | .scalar s => 8 * s.size
  | .endian _ s => 8 * s.size
  | .bits _ n _ _ _ => n
  | .array n elem => n * elem.wireBits
  | .struct _ _ _ types => (List.ofFn fun k => (types k).wireBits).sum

/-- `wire_size_v`. -/
def wireSize (T : Ty) : ℕ := T.wireBits / 8

/-- `bit_order_of`: `none` is no bit field. -/
def bitOrder : Ty → Option BitOrder
  | .bits _ _ order _ _ => some order
  | _ => none

def isBits (T : Ty) : Bool := T.bitOrder.isSome

end Ty

section Fields

variable {n : ℕ} (types : Fin n → Ty)

/-- The sizes of the fields. -/
def widths : List ℕ := List.ofFn fun k => (types k).wireBits

def fieldBitOffsets (k : Fin n) : ℕ := startOf (widths types) k

/-- What `layout_ok` knows between two fields. -/
structure LayoutScan where
  ok : Bool
  prevOrder : Option BitOrder
  prevEnd : ℕ

/-- Two bit fields of different orders. -/
def ordersDiffer : Option BitOrder → Option BitOrder → Bool
  | some o, some o' => o != o'
  | _, _ => false

/-- The body of the loop of `layout_ok`. -/
def layoutStep (s : LayoutScan) (k : Fin n) : LayoutScan where
  ok := s.ok && ((types k).isBits || fieldBitOffsets types k % 8 == 0)
    && (!ordersDiffer (types k).bitOrder s.prevOrder || s.prevEnd % 8 == 0)
  prevOrder := (types k).bitOrder
  prevEnd := fieldBitOffsets types k + (types k).wireBits

def layoutOk : Bool :=
  ((List.finRange n).foldl (layoutStep types) ⟨(widths types).sum % 8 == 0, none, 0⟩).ok

end Fields

/-- The layout is valid at every depth: an array has no bit fields as elements,
and `layout_ok` holds for every struct. -/
def Ty.Compiles : Ty → Prop
  | .array _ elem => elem.isBits = false ∧ elem.Compiles
  | .struct _ _ _ types => layoutOk types = true ∧ ∀ k, (types k).Compiles
  | _ => True

/-! ## What `layout_ok` checks -/

/-- A member as a layout has it: the bit order of a bit field, and its bits. -/
structure Leaf where
  order : Option BitOrder
  width : ℕ

def Ty.leaf (T : Ty) : Leaf := ⟨T.bitOrder, T.wireBits⟩

/-- Members end to end, behind one of a bit order: one that is no bit field starts
at a byte, and so does a bit field in another order than the one in front of it. -/
def Tidy : Option BitOrder → ℕ → List Leaf → Prop
  | _, _, [] => True
  | prev, off, f :: l => (f.order.isSome = true ∨ off % 8 = 0) ∧
    (ordersDiffer f.order prev = true → off % 8 = 0) ∧ Tidy f.order (off + f.width) l

section LayoutOk

open List

variable {n : ℕ} {types : Fin n → Ty}

@[simp] theorem length_widths : (widths types).length = n := length_ofFn

/-- A field ends where the next one starts. -/
theorem startOf_widths_succ (k : Fin n) :
    startOf (widths types) (k + 1) = fieldBitOffsets types k + (types k).wireBits := by
  have hk : k.1 < (widths types).length := by rw [length_widths]; exact k.2
  have hget : (widths types)[k.1] = (types k).wireBits := List.getElem_ofFn hk
  rw [startOf_succ hk, hget]
  rfl

theorem fieldBitOffsets_add_le_sum (k : Fin n) :
    fieldBitOffsets types k + (types k).wireBits ≤ (widths types).sum := by
  rw [← startOf_widths_succ, ← startOf_length, length_widths]
  exact startOf_mono _ k.2

/-- The loop of `layout_ok` from field `m` on finds out whether the fields are tidy. -/
theorem tidy_of_scan {m : ℕ} {s : LayoutScan} (hend : s.prevEnd = startOf (widths types) m)
    (h : (((finRange n).drop m).foldl (layoutStep types) s).ok = true) :
    s.ok = true ∧
      Tidy s.prevOrder s.prevEnd (((finRange n).drop m).map fun k => (types k).leaf) := by
  induction hk : n - m generalizing m s with
  | zero =>
    rw [drop_of_length_le (by rw [length_finRange]; omega)] at h ⊢
    exact ⟨h, trivial⟩
  | succ d ih =>
    have hm : m < n := by omega
    rw [drop_eq_getElem_cons (by rw [length_finRange]; exact hm), getElem_finRange,
      Fin.cast_mk] at h ⊢
    obtain ⟨hok, htidy⟩ := ih (startOf_widths_succ ⟨m, hm⟩).symm h (by omega)
    have hat : fieldBitOffsets types ⟨m, hm⟩ = s.prevEnd := hend.symm
    simp only [layoutStep, Bool.and_eq_true, Bool.or_eq_true, beq_iff_eq, Bool.not_eq_true',
      hat] at hok htidy
    exact ⟨hok.1.1, hok.1.2, fun hd => hok.2.resolve_left (Bool.ne_false_iff.2 hd), htidy⟩

/-- **What `layout_ok` promises**: whole bytes in all, and fields that are tidy. -/
theorem tidy_of_layoutOk (h : layoutOk types = true) :
    (widths types).sum % 8 = 0 ∧ Tidy none 0 ((finRange n).map fun k => (types k).leaf) :=
  (tidy_of_scan (m := 0) (startOf_zero _).symm h).imp_left of_decide_eq_true

end LayoutOk

end Nanom.Layout
