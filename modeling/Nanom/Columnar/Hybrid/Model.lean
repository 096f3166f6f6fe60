import Nanom.Columnar.Bits
import Nanom.Wire.Varint

/-!
# Columnar pages — the RLE / bit-packed hybrid

A stream of runs, each behind a varint: an odd one is the number of groups of
eight packed values that follow, an even one the number of times the one value
that follows is repeated.

`RleBpDecoder` reads it in pieces of the caller's size, by `get`, `skip` and
`nextRunUpTo` over one state: what is left of the run it is in, and the bytes
behind. `rleHybridEncode` writes it. Counts from the wire are reduced as the
64-bit words they are.
-/

namespace Nanom.Columnar

open Loop

structure RleBpDecoder where
  /-- The bytes from `p_` to `e_`. -/
  p : Bytes
  width : ℕ
  ok : Bool
  rleValue : ℕ := 0
  rleLeft : ℕ := 0
  /-- The `bp_bytes_` bytes from `bp_` on. -/
  bp : Bytes := []
  bpPos : ℕ := 0
  bpLeft : ℕ := 0

namespace RleBpDecoder

/-- The constructor. -/
def start (data : Bytes) (width : ℕ) : RleBpDecoder := { p := data, width, ok := width ≤ 32 }

/-! ## Run headers -/

/-- A packed run, as far as its bytes are there. -/
def packedRun (h : ℕ) (d : RleBpDecoder) : RleBpDecoder :=
  let groups := h >>> 1
  let bytesAvail := d.p.length
  let wantBytes := u64 (if bytesAvail < groups then bytesAvail * d.width else groups * d.width)
  let runBytes := min wantBytes bytesAvail
  { d with
    bpLeft := if d.width ≠ 0 then min (u64 (groups * 8)) (u64 (runBytes * 8) / d.width)
      else min (u64 (groups * 8)) (1 <<< 40)
    bp := d.p.take runBytes
    bpPos := 0
    p := d.p.drop runBytes }

/-- A repeated value. -/
def rleRun (h : ℕ) (d : RleBpDecoder) : RleBpDecoder × Bool :=
  let vbytes := (d.width + 7) / 8
  let v := leNat (d.p.take vbytes)
  if d.p.length < vbytes then ({ d with ok := false }, false)
  else if d.width < 32 ∧ v >>> d.width ≠ 0 then ({ d with ok := false }, false)
  else ({ d with p := d.p.drop vbytes, rleValue := v, rleLeft := min (h >>> 1) (1 <<< 40) }, true)

/-- The private `next_run()`: on to the next run, if there is one. -/
def nextRun (d : RleBpDecoder) : RleBpDecoder × Bool :=
  if d.p = [] then (d, false)
  else
    match Wire.varintU64 d.p with
    | .error _ => ({ d with ok := false }, false)
    | .ok (h, used) =>
      let d := { d with p := d.p.drop used }
      if h &&& 1 ≠ 0 then (d.packedRun h, true) else d.rleRun h

/-! ## Reading values -/

/-- Values delivered, and the decoder behind them. -/
structure Taken where
  out : List ℕ
  d : RleBpDecoder

/-- `k` values of the packed run are used. -/
def advance (k : ℕ) (d : RleBpDecoder) : RleBpDecoder :=
  { d with bpPos := d.bpPos + k, bpLeft := d.bpLeft - k }

/-- A round of `take_bitpacked`: whole groups from a group's start on, or
what one group has. Whether unpacking succeeds is not looked at; where it
does not, the values are never written. -/
def takeGroup (n : ℕ) (c : Taken) : Except Fault Taken :=
  let inGroup := c.d.bpPos % 8
  let input := c.d.bp.drop (c.d.bpPos / 8 * c.d.width)
  let left := n - c.out.length
  if inGroup = 0 ∧ 8 ≤ left ∧ 8 ≤ c.d.bpLeft then do
    let groups := min left c.d.bpLeft / 8
    let values ← access (← unpackBits 32 input c.d.width (groups * 8) (groups * 8))
    return ⟨c.out ++ values, c.d.advance (groups * 8)⟩
  else do
    let availInGroup := min 8 (c.d.bpLeft + inGroup)
    let g ← unpackGroups 32 c.d.width input input.length 1
    let k := min (availInGroup - inGroup) left
    return ⟨c.out ++ subspan g inGroup k, c.d.advance k⟩

def takeBitpacked (n : ℕ) (d : RleBpDecoder) : Except Fault Taken :=
  repeatWhile .unfinished (fun c => c.out.length < n ∧ c.d.bpLeft ≠ 0) (takeGroup n)
    (d.bpLeft + 1) ⟨[], d⟩

/-- A round of `get`. -/
def getRound (n : ℕ) (c : Taken) : Round Taken (Except Fault Taken) :=
  let left := n - c.out.length
  if c.out.length < n ∧ c.d.ok then
    if c.d.rleLeft ≠ 0 then
      let k := min c.d.rleLeft left
      .next ⟨c.out ++ List.replicate k c.d.rleValue, { c.d with rleLeft := c.d.rleLeft - k }⟩
    else if c.d.bpLeft ≠ 0 then
      .ofExcept (takeBitpacked left c.d) fun t => .next ⟨c.out ++ t.out, t.d⟩
    else
      match nextRun c.d with
      | (d, true) => .next ⟨c.out, d⟩
      | (d, false) => .stop (.ok ⟨c.out, d⟩)
  else .stop (.ok c)

/-- The result of a loop. -/
def finished {α : Type} : Option (Except Fault α) → Except Fault α
  | some r => r
  | none => .error .unfinished

def get (n : ℕ) (d : RleBpDecoder) : Except Fault Taken :=
  finished (run (getRound n) (n + d.p.length + 1) ⟨[], d⟩)

/-- Values skipped, and the decoder behind them. -/
structure Skipped where
  done : ℕ
  d : RleBpDecoder

/-- A round of `skip`, through a buffer of 256 values. -/
def skipRound (n : ℕ) (c : Skipped) : Round Skipped (Except Fault Skipped) :=
  if c.done < n then
    .ofExcept (get (min 256 (n - c.done)) c.d) fun t =>
      if t.out = [] then .stop (.ok ⟨c.done, t.d⟩) else .next ⟨c.done + t.out.length, t.d⟩
  else .stop (.ok c)

def skip (n : ℕ) (d : RleBpDecoder) : Except Fault Skipped :=
  finished (run (skipRound n) (n + 1) ⟨0, d⟩)

/-- `rle_bp_decoder::run`: a run as it stands in the stream. -/
inductive Run
  | rle (value count : ℕ)
  | packed (bits : Bytes) (bitOffset count : ℕ)

/-- A round of `next_run(r, max_values)`. -/
def runRound (maxValues : ℕ) (d : RleBpDecoder) :
    Round RleBpDecoder (Except Fault (Option Run × RleBpDecoder)) :=
  if d.ok ∧ maxValues ≠ 0 then
    if d.rleLeft ≠ 0 then
      let count := min d.rleLeft maxValues
      .stop (.ok (some (.rle d.rleValue count), { d with rleLeft := d.rleLeft - count }))
    else if d.bpLeft ≠ 0 then
      let count := min d.bpLeft maxValues
      let bit := d.bpPos * d.width
      .ofExcept (access (if bit / 8 ≤ d.bp.length then some (d.bp.drop (bit / 8)) else none))
        fun bits => .stop (.ok (some (.packed bits (bit % 8) count), d.advance count))
    else
      match nextRun d with
      | (d, true) => .next d
      | (d, false) => .stop (.ok (none, d))
  else .stop (.ok (none, d))

/-- `next_run(r, max_values)`: a run, or nothing where it returns false. -/
def nextRunUpTo (maxValues : ℕ) (d : RleBpDecoder) : Except Fault (Option Run × RleBpDecoder) :=
  finished (run (runRound maxValues) (d.p.length + 1) d)

end RleBpDecoder

/-! ## Writing -/

/-- Where encoding is: the values looked at, the literal not yet written
and the output. -/
structure HybridEncoder where
  i : ℕ
  litBegin : ℕ
  litEnd : ℕ
  out : Bytes

namespace HybridEncoder

/-- `flush_literal`: the last group of a stream is padded. -/
def flushLiteral (values : List ℕ) (width : ℕ) (last : Bool) (s : HybridEncoder) :
    Except Fault HybridEncoder :=
  let count := s.litEnd - s.litBegin
  if count = 0 then return s
  else do
    let groups := (count + 7) / 8
    let literal := subspan values s.litBegin count
    let header := s.out ++ Wire.uleb128Encode (u64 (groups <<< 1) ||| 1)
    let out ← packBits
      (if count % 8 = 0 ∨ last = false then literal
        else literal ++ List.replicate (groups * 8 - count) 0) width header
    return { s with out := out, litBegin := s.litEnd }

/-- The end of the run of equal values from `i` on. -/
def runEnd (values : List ℕ) (i : ℕ) : ℕ :=
  i + 1 + ((values.drop (i + 1)).takeWhile fun v => values[i]? = some v).length

/-- A run long enough to be written as one, from `s.i` to `j`. -/
def encodeRle (values : List ℕ) (width j : ℕ) (s : HybridEncoder) : Except Fault HybridEncoder := do
  let s' ← s.flushLiteral values width false
  let value ← access values[s'.i]?
  return {
    i := j
    litBegin := j
    litEnd := j
    out := s'.out ++ Wire.uleb128Encode (u64 ((j - s'.i) <<< 1))
      ++ leBytes ((width + 7) / 8) value }

/-- The values a pending literal takes from a run to finish its last
group. -/
def steal (s : HybridEncoder) : ℕ :=
  let pending := s.litEnd - s.litBegin
  if pending % 8 ≠ 0 then 8 - pending % 8 else 0

/-- A round of the loop: the run from `s.i` on. -/
def encodeRun (values : List ℕ) (width : ℕ) (s : HybridEncoder) : Except Fault HybridEncoder :=
  let j := runEnd values s.i
  if 8 ≤ j - s.i then
    let s' := { s with litEnd := s.litEnd + s.steal, i := s.i + s.steal }
    if 8 ≤ j - s.i - s.steal then s'.encodeRle values width j
    else return { s' with litEnd := j, i := j }
  else
    return { s with
      litBegin := if s.litBegin = s.litEnd then s.i else s.litBegin
      litEnd := j
      i := j }

end HybridEncoder

/-- `rle_hybrid_encode`, appended to `out`. -/
def rleHybridEncode (values : List ℕ) (width : ℕ) (out : Bytes) : Except Fault Bytes := do
  let s ← repeatWhile .unfinished (fun s => s.i < values.length)
    (HybridEncoder.encodeRun values width) (values.length + 1) ⟨0, 0, 0, out⟩
  let s ← s.flushLiteral values width true
  return s.out

end Nanom.Columnar
