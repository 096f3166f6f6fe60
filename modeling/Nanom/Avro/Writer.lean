import Nanom.Soa.Model

/-!
# Avro object container files

A file is a list of blocks, each with a number of rows in Avro's binary encoding.
There are two encoders: `avro_encode_row` walks the members of a row, and
`write_chunk` walks the columns of a chunk by their kinds. The header of the file
is not modelled.
-/

namespace Nanom.Avro

open Layout Soa

/-! ## Numbers -/

/-- `avro_put_varint`. -/
def putVarint (u : ℕ) : Bytes :=
  if u < 0x80 then [UInt8.ofNat u]
  else UInt8.ofNat ((u &&& 0x7f) ||| 0x80) :: putVarint (u >>> 7)
termination_by u
decreasing_by
  rw [Nat.shiftRight_eq_div_pow]
  omega

/-- `avro_put_long`. -/
def putLong (v : BitVec 64) : Bytes := putVarint ((v <<< 1) ^^^ v.sshiftRight 63).toNat

/-- `avro_put_float` and `avro_put_double`, for four and eight bytes. -/
def putFloat (n bits : ℕ) : Bytes :=
  (List.range n).map fun i => UInt8.ofNat ((bits >>> (8 * i)) &&& 0xff)

/-- A decoded scalar: `std::int64_t(d)` for what is no float. -/
def putScalar : (s : Scalar) → s.Value → Bytes
  | .bool, v => putLong (BitVec.ofNat 64 (Bool.toNat v))
  | .int signed _, v => putLong (if signed then BitVec.signExtend 64 v else BitVec.setWidth 64 v)
  | .float double, v => putFloat (if double then 8 else 4) (BitVec.toNat v)

/-! ## Rows -/

/-- `std::uint8_t(ED(x))` for an element that is a single byte. -/
def byteValue : (T : Ty) → T.Value → UInt8
  | .scalar s, v => UInt8.ofNat (s.toBits v)
  | .endian order s, v => UInt8.ofNat (s.toBits (s.ofBits (order.toNat (List.ofFn v))))
  | .bits _ _ _ _ _, v => UInt8.ofNat (BitVec.toNat v)
  | .array _ _, _ => 0
  | .struct _ _ _ _, _ => 0

/-- `avro_field_value`. -/
def fieldValue (abi : Abi) : (T : Ty) → T.Value → Bytes
  | .struct n _ _ types, v => (List.finRange n).flatMap fun k => fieldValue abi (types k) (v k)
  | .array n elem, v =>
    if byteElem abi elem then (List.finRange n).map fun k => byteValue elem (v k)
    else putLong (BitVec.ofNat 64 n)
      ++ ((List.finRange n).flatMap fun k => fieldValue abi elem (v k)) ++ putLong 0
  | .scalar s, v => putScalar s v
  | .endian order s, v => putScalar s (s.ofBits (order.toNat (List.ofFn v)))
  | .bits signed n _ _ _, v => putScalar (.int signed (uintForBits n)) v

/-- `avro_encode_row`. -/
def encodeRow (abi : Abi) (T : Ty) (row : T.Value) : Bytes := fieldValue abi T row

/-! ## Chunks -/

variable {abi : Abi} {T : Ty}

/-- A scalar copied out of a column. -/
def putCell (abi : Abi) (s : Scalar) (col : Bytes) (p : ℕ) : Bytes :=
  putScalar s (s.ofBits (abi.host.toNat (subspan col p s.size)))

def encodeColumnValue (abi : Abi) (info : ColumnInfo) (col : Bytes) (row : ℕ) : Bytes :=
  let p := row * info.elemBytes
  match info.kind with
  | .u8 => putCell abi (.int false .one) col p
  | .i8 => putCell abi (.int true .one) col p
  | .u16 => putCell abi (.int false .two) col p
  | .i16 => putCell abi (.int true .two) col p
  | .u32 => putCell abi (.int false .four) col p
  | .i32 => putCell abi (.int true .four) col p
  | .u64 => putCell abi (.int false .eight) col p
  | .i64 => putCell abi (.int true .eight) col p
  | .f32 => putCell abi (.float false) col p
  | .f64 => putCell abi (.float true) col p
  | .fixedBin | .list => subspan col p info.elemBytes
  | .record => []

/-- A row of a chunk, column by column. -/
def encodeChunkRow (ch : Chunk abi T) (r : ℕ) : Bytes :=
  (List.zipWith (fun info col => encodeColumnValue abi info col r) (buildColumns abi T "" "")
    ch.cols).flatten

/-- The objects that `write_chunk` puts in a block. -/
def chunkObjects (ch : Chunk abi T) : Bytes := (List.range ch.rows).flatMap (encodeChunkRow ch)

/-- `AvroOcfWriter`: the file so far, and whether the stream is good. -/
structure Writer where
  out : Bytes
  ok : Bool
  sync : Bytes

def Writer.writeBlock (w : Writer) (count : ℕ) (objects : Bytes) : Writer :=
  let hdr := putLong (BitVec.ofNat 64 count) ++ putLong (BitVec.ofNat 64 objects.length)
  { w with out := w.out ++ hdr ++ objects ++ w.sync }

def Writer.writeRow (abi : Abi) (w : Writer) (row : T.Value) : Writer :=
  if w.ok = false then w else w.writeBlock 1 (encodeRow abi T row)

def Writer.writeChunk (w : Writer) (ch : Chunk abi T) : Writer :=
  if w.ok = false ∨ ch.rows = 0 then w else w.writeBlock ch.rows (chunkObjects ch)

end Nanom.Avro
