import Nanom.Layout.Strct
import Nanom.Tagged.Writer

/-!
# Writing a described struct

`Ty.emitField` writes a member at a bit offset, the reverse of `assign_field`, and
says why it could not: the value of a bit field can be too wide for it.
`emitStruct` is a struct without computed fields.
-/

namespace Nanom.Layout

open Nom

/-! ## Bits -/

/-- A byte after a round of `write_bits`: `use` bits of `v` go to it, behind `bit`
others, when `got` of the `n` bits are written. -/
def putPiece (order : BitOrder) (v n got bit use : ℕ) (x : UInt8) : UInt8 :=
  let mask := 2 ^ use - 1
  let piece := match order with
    | .msb0 => (v >>> (n - got - use)) &&& mask
    | .lsb0 => (v >>> got) &&& mask
  let shift := match order with
    | .msb0 => 8 - bit - use
    | .lsb0 => bit
  (x &&& ~~~UInt8.ofNat (mask <<< shift)) ||| UInt8.ofNat (piece <<< shift)

/-- The loop of `write_bits` at bit `bit` of byte `q`, with `k` rounds to go at
most. -/
def writeBitsFrom (order : BitOrder) (v n : ℕ) : ℕ → ℕ → ℕ → ℕ → Bytes → Bytes
  | 0, _, _, _, p => p
  | k + 1, got, q, bit, p =>
    if got < n then
      let use := min (8 - bit) (n - got)
      let p := p.set q (putPiece order v n got bit use (p.getD q 0))
      if bit + use = 8 then writeBitsFrom order v n k (got + use) (q + 1) 0 p
      else writeBitsFrom order v n k (got + use) q (bit + use) p
    else p

def writeBits (p : Bytes) (off n v : ℕ) (order : BitOrder) : Bytes :=
  writeBitsFrom order v n n 0 (off / 8) (off % 8) p

/-- The bits of a bit field's value, or what is wrong with it. -/
def fieldBits (signed : Bool) (n : ℕ) (v : BitVec (8 * (uintForBits n).bytes)) : Except String ℕ :=
  if signed then
    let raw := (v.toInt % 2 ^ 64).toNat
    if n < 64 then
      if v.toInt < -2 ^ (n - 1) ∨ 2 ^ (n - 1) - 1 < v.toInt then
        .error "a value outside its signed bit field"
      else .ok (raw &&& (2 ^ n - 1))
    else .ok raw
  else if n < 64 ∧ v.toNat >>> n ≠ 0 then .error "a value wider than its bit field"
  else .ok v.toNat

/-! ## Members -/

/-- The bytes of an unsigned integer in an order. -/
def uintBytes (order : Endian) (n u : ℕ) : Bytes :=
  match order with
  | .big => (leBytes n u).reverse
  | .little => leBytes n u

@[simp] theorem length_uintBytes (order : Endian) (n u : ℕ) : (uintBytes order n u).length = n := by
  cases order with
  | big => rw [uintBytes, List.length_reverse, length_leBytes]
  | little => rw [uintBytes, length_leBytes]

theorem toNat_uintBytes (order : Endian) (n u : ℕ) :
    order.toNat (uintBytes order n u) = u % 256 ^ n := by
  cases order with
  | big | little => exact leNat_leBytes n u

theorem pow_size (n : ℕ) : 256 ^ n = 2 ^ (8 * n) := by
  rw [Nat.pow_mul]

theorem Scalar.ofBits_uintBytes (s : Scalar) (order : Endian) (v : s.Value) :
    s.ofBits (order.toNat (uintBytes order s.size (s.toBits v))) = v := by
  rw [toNat_uintBytes, pow_size, Nat.mod_eq_of_lt (s.toBits_lt v), s.ofBits_toBits]

def storeUint (p : Bytes) (q u n : ℕ) (order : Endian) : Bytes := putAt p q (uintBytes order n u)

/-- The buffer, and why not everything is in it. -/
structure Emitted where
  bytes : Bytes
  err : Option String

/-- Writes one after another, up to the first that fails. -/
def emitAll {n : ℕ} (write : Fin n → Bytes → Emitted) (p : Bytes) : Emitted :=
  (List.finRange n).foldl (fun s k => if s.err.isSome then s else write k s.bytes) ⟨p, none⟩

def Ty.emitField (dflt : Endian) : (T : Ty) → T.Value → ℕ → Bytes → Emitted
  | .scalar s, v, off, p => ⟨storeUint p (off / 8) (s.toBits v) s.size dflt, none⟩
  | .endian _ _, v, off, p => ⟨putAt p (off / 8) (List.ofFn v), none⟩
  | .bits signed n order _ _, v, off, p =>
    match fieldBits signed n v with
    | .ok raw => ⟨writeBits p off n raw order, none⟩
    | .error e => ⟨p, some e⟩
  | .array _ elem, v, off, p =>
    emitAll (fun i p => elem.emitField dflt (v i) (off + i * elem.wireBits) p) p
  | .struct _ _ _ types, v, off, p =>
    emitAll (fun k p => (types k).emitField dflt (v k) (off + fieldBitOffsets types k) p) p

/-! ## Structs -/

section Struct

variable {n : ℕ} (dflt : Endian) (name : String) (field : Fin n → String) (types : Fin n → Ty)
  (v : (k : Fin n) → (types k).Value)

/-- `first_bad_field`: the fields are written to a buffer that is thrown away. -/
def firstBadField : String :=
  let scratch := List.replicate ((widths types).sum / 8) 0
  let s := (List.finRange n).foldl (fun (s : Bytes × String) k =>
    if s.2.isEmpty then
      let e := (types k).emitField dflt (v k) (fieldBitOffsets types k) s.1
      (e.bytes, if e.err.isSome then field k else "")
    else s) (scratch, "")
  s.2

/-- `emit_struct` without computed fields: the buffer after it, and the size or
the error. -/
def emitStruct (p : Bytes) : Bytes × Except Tagged.EncodeError ℕ :=
  let size := (widths types).sum / 8
  let p := putAt p 0 (List.replicate size 0)
  let e := emitAll (fun k p => (types k).emitField dflt (v k) (fieldBitOffsets types k) p) p
  match e.err with
  | some err => (e.bytes, .error ⟨err, name, firstBadField dflt field types v⟩)
  | none => (e.bytes, .ok size)

def toBytes : Except Tagged.EncodeError Bytes :=
  match emitStruct dflt name field types v (List.replicate ((widths types).sum / 8) 0) with
  | (out, .ok _) => .ok out
  | (_, .error e) => .error e

def emit (out : Bytes) : Bytes × Except Tagged.EncodeError ℕ :=
  if out.length < (widths types).sum / 8 then
    (out, .error ⟨"an output buffer smaller than the struct", name, ""⟩)
  else emitStruct dflt name field types v out

end Struct

end Nanom.Layout
