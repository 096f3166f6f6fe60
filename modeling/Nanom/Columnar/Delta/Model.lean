import Mathlib.Data.Nat.Size
import Nanom.Columnar.Bits
import Nanom.Wire.Varint

/-!
# Columnar pages — DELTA_BINARY_PACKED

The first value of a list in full, then the differences in blocks: the least
difference of the block, the widths of its miniblocks, and the miniblocks,
which hold what each difference has more than the least.

An integer of `w` bits is a `BitVec w`: differences and sums wrap, and only the
least difference is found in the signed order. The decoder takes any shape of
blocks, the encoder writes blocks of 128 values in four miniblocks.
-/

namespace Nanom.Columnar

open Loop

variable {α : Type} {w : ℕ}

/-! ## Reading -/

/-- Why there is no result: the kernel returns `nullopt`, or it goes
wrong. -/
inductive DeltaStop
  | nullopt
  | fault (f : Fault)
  deriving DecidableEq

/-- A step that can only go wrong. -/
def orFault : Except Fault α → Except DeltaStop α
  | .ok a => .ok a
  | .error f => .error (.fault f)

/-- The lambda `rd`: a varint, and what is behind it. -/
def rd (cur : Bytes) : Except DeltaStop (ℕ × Bytes) :=
  match Wire.varintU64 cur with
  | .ok (v, used) => .ok (v, cur.drop used)
  | .error _ => .error .nullopt

/-- The four numbers in front of the blocks. -/
structure DeltaHeader where
  blockSize : ℕ
  minis : ℕ
  total : ℕ
  firstZz : ℕ

def readHeader (cur : Bytes) : Except DeltaStop (DeltaHeader × Bytes) := do
  let (blockSize, cur) ← rd cur
  let (minis, cur) ← rd cur
  let (total, cur) ← rd cur
  let (firstZz, cur) ← rd cur
  return (⟨blockSize, minis, total, firstZz⟩, cur)

/-- Blocks that are not of a shape the format has. -/
def DeltaHeader.misshapen (h : DeltaHeader) : Bool :=
  h.blockSize = 0 ∨ h.blockSize % 128 ≠ 0 ∨ h.minis = 0 ∨ h.blockSize % h.minis ≠ 0 ∨
    h.blockSize / h.minis % 32 ≠ 0 ∨ 1 <<< 20 < h.blockSize

/-- Where decoding is: the bytes left, the last value and the output. -/
structure DeltaReader (w : ℕ) where
  cur : Bytes
  last : BitVec w
  out : List (BitVec w)

/-- One value more. -/
def addDelta (minDelta : BitVec w) (s : DeltaReader w) (unpacked : ℕ) : DeltaReader w :=
  let last := s.last + minDelta + BitVec.ofNat w unpacked
  { s with last := last, out := s.out ++ [last] }

/-- A chunk of at most 1024 values, with how many of the miniblock's are
done. -/
def readChunk (minDelta : BitVec w) (width needVals : ℕ) (c : ℕ × DeltaReader w) :
    Except DeltaStop (ℕ × DeltaReader w) := do
  let k := min 1024 (needVals - c.1)
  let offBytes := c.1 * width / 8
  match ← orFault (unpackBits 64 (c.2.cur.drop offBytes) width k k) with
  | none => .error .nullopt
  | some unpacked => return (c.1 + k, unpacked.foldl (addDelta minDelta) c.2)

/-- A miniblock: as many of its values as are still asked for. -/
def readMini (n perMini : ℕ) (minDelta : BitVec w) (width : ℕ) (s : DeltaReader w) :
    Except DeltaStop (DeltaReader w) :=
  let miniBytes := perMini * width / 8
  let needVals := min perMini (n - s.out.length)
  if w < width then .error .nullopt
  else if s.cur.length < (needVals * width + 7) / 8 then .error .nullopt
  else do
    let (_, s) ← repeatWhile (.fault .unfinished) (fun c => c.1 < needVals)
      (readChunk minDelta width needVals) (needVals + 1) (0, s)
    return { s with cur := s.cur.drop (min miniBytes s.cur.length) }

/-- A block: its miniblocks up to the last value asked for. -/
def readBlock (n minis perMini : ℕ) (s : DeltaReader w) : Except DeltaStop (DeltaReader w) := do
  let (minZz, cur) ← rd s.cur
  let minDelta := (Wire.zigzagDecode (BitVec.ofNat 64 minZz)).setWidth w
  if cur.length < minis then .error .nullopt
  else
    (cur.take minis).foldlM
      (fun s width => if s.out.length < n then readMini n perMini minDelta width.toNat s
        else return s)
      { s with cur := cur.drop minis }

/-- `delta_binary_packed`, into a span of `size` values: the first `n`
values and how many bytes they take. -/
def deltaBinaryPacked (w : ℕ) (input : Bytes) (size n : ℕ) :
    Except DeltaStop (List (BitVec w) × ℕ) :=
  if size < n then .error .nullopt
  else do
    let (h, cur) ← readHeader input
    if h.misshapen then .error .nullopt
    else if h.total < n then .error .nullopt
    else if n = 0 then return ([], input.length - cur.length)
    else
      let first := (Wire.zigzagDecode (BitVec.ofNat 64 h.firstZz)).setWidth w
      let s ← repeatWhile (.fault .unfinished) (fun s => s.out.length < n)
        (readBlock n h.minis (h.blockSize / h.minis)) (n + 1) ⟨cur, first, [first]⟩
      return (s.out, input.length - s.cur.length)

/-! ## Writing -/

/-- The differences of a block. -/
def blockDeltas (values : List (BitVec w)) (start count : ℕ) : Except Fault (List (BitVec w)) :=
  (List.range count).mapM fun k =>
    return (← access values[start + k]?) - (← access values[start + k - 1]?)

/-- The least difference, as signed numbers. -/
def leastDelta (deltas : List (BitVec w)) : BitVec w :=
  deltas.foldl (fun least d => if d.slt least then d else least) (BitVec.intMax w)

/-- The values of a miniblock. -/
def miniValues (adjusted : List (BitVec w)) (m : ℕ) : List (BitVec w) :=
  subspan adjusted (m * 32) 32

/-- The width of a miniblock; those without values have none. -/
def miniWidth (adjusted : List (BitVec w)) (used m : ℕ) : ℕ :=
  if m < used then ((miniValues adjusted m).foldl (· ||| ·) 0#w).toNat.size else 0

/-- A zigzag varint of a signed number. -/
def zigzagBytes (v : BitVec w) : Bytes :=
  Wire.uleb128Encode (Wire.zigzagEncode (v.signExtend 64)).toNat

/-- The bytes of a block, by what its differences have more than the
least, filled up with zeros. -/
def writeBlock (least : BitVec w) (adjusted : List (BitVec w)) (used : ℕ) (out : Bytes) :
    Except Fault Bytes :=
  (List.range used).foldlM
    (fun out m => packBits ((miniValues adjusted m).map BitVec.toNat)
      (miniWidth adjusted used m) out)
    (out ++ zigzagBytes least
      ++ (List.range 4).map fun m => UInt8.ofNat (miniWidth adjusted used m))

/-- A round of the encoder: the block from value `s.1` on. -/
def encodeBlock (values : List (BitVec w)) (s : ℕ × Bytes) : Except Fault (ℕ × Bytes) := do
  let count := min 128 (values.length - s.1)
  let deltas ← blockDeltas values s.1 count
  let least := leastDelta deltas
  let adjusted := deltas.map (· - least) ++ List.replicate (128 - count) 0#w
  let out ← writeBlock least adjusted ((count + 31) / 32) s.2
  return (s.1 + 128, out)

/-- `delta_binary_packed_encode`, appended to `out`. -/
def deltaBinaryPackedEncode (values : List (BitVec w)) (out : Bytes) : Except Fault Bytes :=
  let header := out ++ Wire.uleb128Encode 128 ++ Wire.uleb128Encode 4
    ++ Wire.uleb128Encode (u64 values.length) ++ zigzagBytes (values.headD 0#w)
  if values.length ≤ 1 then return header
  else do
    let (_, out) ← repeatWhile .unfinished (fun s => s.1 < values.length) (encodeBlock values)
      (values.length + 1) (1, header)
    return out

end Nanom.Columnar
