import Nanom.Layout.Schema

/-!
# Reading a described struct

`Ty.assignField` makes a member of the bytes at a bit offset, and `strct` is the
parser of a struct. A bit field comes out of one word where it fits, else out of
`read_bits`, and a signed one is extended by its sign.
-/

namespace Nanom.Layout

open Nom

/-- The bits of a field from bit `off` on, as `decode_field` reads them. -/
def rawBits (n : ℕ) (order : BitOrder) (p : Bytes) (off : ℕ) : ℕ :=
  if order = .msb0 ∧ 7 + n ≤ 64 then
    -- The bytes that cover the field, as one word.
    let nbytes := (off % 8 + n + 7) / 8
    let w := u64 (beNat (subspan p (off / 8) nbytes))
    (w >>> (nbytes * 8 - off % 8 - n)) &&& (2 ^ n - 1)
  else
    let fake : Input := ⟨subspan p (off / 8) ((off + n + 7) / 8 - off / 8), off / 8, false⟩
    match readBits n order ⟨fake, off % 8⟩ with
    | .done raw _ => raw
    | _ => 0

/-- The value of a bit field, in the integer that holds it. -/
def bitsValue (signed : Bool) (n raw : ℕ) : BitVec (8 * (uintForBits n).bytes) :=
  let u := BitVec.ofNat (8 * (uintForBits n).bytes) raw
  let sign := 1#(8 * (uintForBits n).bytes) <<< (n - 1)
  if signed ∧ u &&& sign ≠ 0 then u ||| ~~~((sign <<< 1) - 1) else u

def Ty.assignField (dflt : Endian) (p : Bytes) : (T : Ty) → ℕ → T.Value
  | .scalar s, off => s.ofBits (dflt.toNat (subspan p (off / 8) s.size))
  | .endian _ _, off => fun i => p.getD (off / 8 + i) 0
  | .bits signed n order _ _, off => bitsValue signed n (rawBits n order p off)
  | .array _ elem, off => fun i => elem.assignField dflt p (off + i * elem.wireBits)
  | .struct _ _ _ types, off => fun k =>
    (types k).assignField dflt p (off + fieldBitOffsets types k)

def strct (dflt : Endian) (T : Ty) : Nom.Parser T.Value :=
  exactly T.wireSize fun s => .ok (T.assignField dflt s.data 0)

end Nanom.Layout
