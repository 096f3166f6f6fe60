import Nanom.Common.Loop
import Nanom.Common.Window
import Nanom.Wire.Varint

/-!
# The page decompressors

Snappy and LZ4 blocks, decoded into a buffer of a known size. A decoder walks
two cursors, `ip` over the input and `op` over the output, and takes a fast
path where both have headroom: fixed-size block copies that write past the
element and leave it to the next one to overwrite that.

Every access is an operation of `Buffer`, so one outside the two ranges, or a
block copy between ranges that overlap, is `Stop.undefined`. Offsets are from
the start of the input and of the output; sizes are `size_t`, reduced where
they can wrap.
-/

namespace Nanom.Codec

open Loop (Round forBy)

variable {α : Type} {n : ℕ}

/-- `codec_error`: what is wrong, and the input offset where decoding
stopped. -/
structure CodecError where
  what : String
  pos : ℕ
  deriving DecidableEq

/-- Why a decoder has no result: it reports an error, it makes an access
that has none, or it needs more rounds than the input has bytes. -/
inductive Stop
  | fail (e : CodecError)
  | undefined
  | unfinished
  deriving DecidableEq

def fail (what : String) (pos : ℕ) : Except Stop α := .error (.fail ⟨what, pos⟩)

/-- The result of an access. -/
def access : Option α → Except Stop α
  | some a => .ok a
  | none => .error .undefined

/-- The byte of the input at `p`. -/
def u8 (input : Bytes) (p : ℕ) : Except Stop ℕ := access (input[p]?.map UInt8.toNat)

/-- `u8(p) | u8(p + 1) << 8 | …`, over `k` bytes. -/
def orBytes (input : Bytes) (p k : ℕ) : Except Stop ℕ :=
  (List.range k).foldlM (fun v i => do return v ||| (← u8 input (p + i)) <<< (8 * i)) 0

def loadLe32 (input : Bytes) (p : ℕ) : Except Stop ℕ :=
  access (if p + 4 ≤ input.length then some (leNat (subspan input p 4)) else none)

/-- `x - 1` in a `size_t`. -/
def pred64 (x : ℕ) : ℕ := u64 (x + (2 ^ 64 - 1))

/-! ## Back-references -/

def copyMatch (dst offset len : ℕ) (b : Buffer UInt8 n) : Option (Buffer UInt8 n) :=
  if len ≤ offset then b.memcpy dst offset len
  else if 8 ≤ offset then do
    -- whole chunks while eight bytes are left, then byte by byte
    let b ← forBy 8 0 (len / 8 * 8) (fun i => Buffer.memcpy (dst + i) offset 8) b
    forBy 1 (len / 8 * 8) len (fun i => Buffer.assign (dst + i) offset) b
  else forBy 1 0 len (fun i => Buffer.assign (dst + i) offset) b

/-- `copy_match_wild`: up to 15 bytes past `dst + len` are overwritten. -/
def copyMatchWild (dst offset len : ℕ) (b : Buffer UInt8 n) : Option (Buffer UInt8 n) :=
  if 16 ≤ offset then forBy 16 0 len (fun i => Buffer.memcpy (dst + i) offset 16) b
  else if 8 ≤ offset then forBy 8 0 len (fun i => Buffer.memcpy (dst + i) offset 8) b
  else if offset = 0 then none -- the lag divides by the offset
  else do
    let head := if len < 8 then len else 8
    let b ← forBy 1 0 head (fun i => Buffer.assign (dst + i) offset) b
    let lag := offset * ((8 + offset - 1) / offset)
    forBy 8 head len (fun i => Buffer.memcpy (dst + i) lag 8) b

/-! ## Decoders -/

/-- The state of a decoder: its two cursors and the output. -/
structure Cursor (n : ℕ) where
  ip : ℕ
  op : ℕ
  buf : Buffer UInt8 n

/-- A back-reference with the offset checked: wild where there is room
to overshoot, exact where the element just fits. -/
def copyBack (overflow : String) (offset len ip op : ℕ) (b : Buffer UInt8 n) :
    Except Stop (Buffer UInt8 n) :=
  if u64 (len + 16) ≤ n - op then access (copyMatchWild op offset len b)
  else if n - op < len then fail overflow ip
  else access (copyMatch op offset len b)

/-- What a decoder returns: the bytes produced, and the output. -/
abbrev Status (n : ℕ) := Except Stop (ℕ × Buffer UInt8 n)

/-- The rounds of a decoder, with a bound that an input cannot exceed. -/
def decodeLoop (round : Cursor n → Round (Cursor n) (Status n)) (input : Bytes) (c : Cursor n) :
    Status n :=
  (Loop.run round (input.length + 1) c).getD (.error .unfinished)

/-! ## Snappy -/

/-- The entry of `snappy_table` for a tag: the element length in bits
0–7, the high bits of a copy-1 offset in bits 8–10, the number of extra
bytes in bits 11–13. -/
def snappyEntry (tag : ℕ) : ℕ :=
  let t : ℕ × ℕ × ℕ :=
    match tag &&& 3 with
    | 0 => (if (tag >>> 2) + 1 > 60 then 0 else (tag >>> 2) + 1, 0, 0)
    | 1 => (((tag >>> 2) &&& 7) + 4, (tag >>> 5) <<< 8, 1)
    | 2 => ((tag >>> 2) + 1, 0, 2)
    | _ => ((tag >>> 2) + 1, 0, 4)
  (t.1 ||| t.2.1 ||| (t.2.2 <<< 11)) % 2 ^ 16

def snappyExtraMask : List ℕ := [0, 0xff, 0xffff, 0xffffff, 0xffffffff]

/-- The copy offset as the fast path reads it: four bytes at once, masked
down to the extra bytes of the tag. -/
def snappyFastOffset (input : Bytes) (ip entry : ℕ) : Except Stop ℕ := do
  let mask ← access snappyExtraMask[entry >>> 11]?
  let word ← loadLe32 input (ip + 1)
  return u32 ((entry &&& 0x700) + (word &&& mask))

/-- The two eight-byte moves of the branch-free step. -/
def snappyMove16 (input : Bytes) (lit : Bool) (offset : ℕ) (c : Cursor n) :
    Option (Buffer UInt8 n) :=
  if lit then do
    let b ← c.buf.load input c.op (c.ip + 1) 8
    b.load input (c.op + 8) (c.ip + 1 + 8) 8
  else do
    let b ← c.buf.memcpy c.op offset 8
    b.memcpy (c.op + 8) offset 8

/-- The fast path of an element, with the offset read: none where it
leaves the element to the exact path. -/
def snappyFastMove (input : Bytes) (tag offset : ℕ) (c : Cursor n) :
    Except Stop (Option (Cursor n)) :=
  let lit : Bool := tag &&& 3 = 0
  let len := snappyEntry tag &&& 0xff
  let extra := snappyEntry tag >>> 11
  if ¬ (16 ≤ pred64 len ∨ tag &&& 3 = 3 ∨ (¬ lit ∧ (offset < 8 ∨ c.op < offset))) then do
    let buf ← access (snappyMove16 input lit offset c)
    return some ⟨c.ip + if lit then (tag >>> 2) + 2 else (tag &&& 3) + 1, c.op + len, buf⟩
  else if ¬ lit ∧ len ≤ 64 ∧ pred64 offset < c.op then do
    let buf ← access (copyMatchWild c.op offset len c.buf)
    return some ⟨c.ip + (1 + extra), c.op + len, buf⟩
  else return none

/-- The fast path of an element. -/
def snappyFast (input : Bytes) (tag : ℕ) (c : Cursor n) : Except Stop (Option (Cursor n)) := do
  let offset ← snappyFastOffset input c.ip (snappyEntry tag)
  snappyFastMove input tag offset c

/-- The length of a literal, and where its bytes start. -/
def snappyLiteralLength (input : Bytes) (tag ip : ℕ) : Except Stop (ℕ × ℕ) :=
  let len := (tag >>> 2) + 1
  if len > 60 then do
    let nb := len - 60
    if input.length - ip < nb then fail "snappy: truncated literal length" ip
    else return ((← orBytes input ip nb) + 1, ip + nb)
  else return (len, ip)

/-- The exact path of a literal, with `ip` past the tag. -/
def snappyLiteral (input : Bytes) (tag : ℕ) (c : Cursor n) : Except Stop (Cursor n) := do
  let (len, ip) ← snappyLiteralLength input tag c.ip
  if input.length - ip < len then fail "snappy: literal runs past the input" ip
  else if n - c.op < len then fail "snappy: literal overflows the output" ip
  else return ⟨ip + len, c.op + len, ← access (c.buf.load input c.op ip len)⟩

/-- The length and the offset of a copy, and where the next element
starts. -/
def snappyCopyArgs (input : Bytes) (tag ip : ℕ) : Except Stop (ℕ × ℕ × ℕ) :=
  match tag &&& 3 with
  | 1 =>
    if input.length - ip < 1 then fail "snappy: truncated copy" ip
    else return (((tag >>> 2) &&& 7) + 4, ((tag >>> 5) <<< 8) ||| (← u8 input ip), ip + 1)
  | 2 =>
    if input.length - ip < 2 then fail "snappy: truncated copy" ip
    else return ((tag >>> 2) + 1, ← orBytes input ip 2, ip + 2)
  | _ =>
    if input.length - ip < 4 then fail "snappy: truncated copy" ip
    else return ((tag >>> 2) + 1, ← orBytes input ip 4, ip + 4)

/-- The exact path of a copy, with `ip` past the tag. -/
def snappyCopy (input : Bytes) (tag : ℕ) (c : Cursor n) : Except Stop (Cursor n) := do
  let (len, offset, ip) ← snappyCopyArgs input tag c.ip
  if offset = 0 ∨ c.op < offset then fail "snappy: copy offset outside the output" ip
  else
    let buf ← copyBack "snappy: copy overflows the output" offset len ip c.op c.buf
    return ⟨ip, c.op + len, buf⟩

/-- The exact path: every length and offset checked against both ends. -/
def snappyExact (input : Bytes) (tag : ℕ) (c : Cursor n) : Except Stop (Cursor n) :=
  if tag &&& 3 = 0 then snappyLiteral input tag { c with ip := c.ip + 1 }
  else snappyCopy input tag { c with ip := c.ip + 1 }

/-- `ip_fast`: the fast path needs sixteen bytes behind the tag. -/
def ipFast (input : Bytes) : ℕ := if 16 ≤ input.length then input.length - 16 else 0

/-- `op_fast`: the fast path needs room for the longest copy and for its
overshoot. -/
def opFast (n : ℕ) : ℕ := if 80 ≤ n then n - 80 else 0

/-- The fast path, where both cursors have headroom for it. -/
def snappyTryFast (input : Bytes) (tag : ℕ) (c : Cursor n) : Except Stop (Option (Cursor n)) :=
  if c.ip < ipFast input ∧ c.op < opFast n then snappyFast input tag c else .ok none

/-- One element. -/
def snappyElement (input : Bytes) (c : Cursor n) : Except Stop (Cursor n) := do
  let tag ← u8 input c.ip
  match ← snappyTryFast input tag c with
  | some c => return c
  | none => snappyExact input tag c

/-- One round of `snappy_decompress`. -/
def snappyRound (input : Bytes) (c : Cursor n) : Round (Cursor n) (Status n) :=
  if c.ip < input.length then Round.ofExcept (snappyElement input c) .next
  else .stop (if c.op ≠ n then fail "snappy: output shorter than declared" c.ip
    else .ok (n, c.buf))

def snappyDecompress (input : Bytes) (out : Buffer UInt8 n) : Status n :=
  match Wire.varintU32 input with
  | .error _ => fail "snappy: bad length preamble" 0
  | .ok (value, used) =>
    if value ≠ n then fail "snappy: length preamble does not match the page header" 0
    else decodeLoop (snappyRound input) input ⟨used, 0, out⟩

/-! ## LZ4 blocks -/

/-- The loop of `ext_len` over the bytes from `ip` on: the length and
where it ends, or where it breaks off. -/
def extLenFrom : ℕ → ℕ → Bytes → Except ℕ (ℕ × ℕ)
  | _, ip, [] => .error ip
  | len, ip, b :: rest =>
    if 2 ^ 64 - 1 - b.toNat < len then .error (ip + 1)
    else if b.toNat ≠ 255 then .ok (len + b.toNat, ip + 1)
    else extLenFrom (len + b.toNat) (ip + 1) rest

/-- `ext_len`, with the error of the caller. -/
def extLen (what : String) (input : Bytes) (len ip : ℕ) : Except Stop (ℕ × ℕ) :=
  if len ≠ 15 then .ok (len, ip)
  else
    match extLenFrom len ip (input.drop ip) with
    | .ok r => .ok r
    | .error ip => fail what ip

/-- The `memcpy` of literals, left out where there are none: the output
may be empty. -/
def lz4Load (input : Bytes) (op ip lit : ℕ) (b : Buffer UInt8 n) : Except Stop (Buffer UInt8 n) :=
  if lit ≠ 0 then access (b.load input op ip lit) else .ok b

/-- The literals of a sequence, with `ip` past the token. -/
def lz4Literals (input : Bytes) (token : ℕ) (c : Cursor n) : Except Stop (Cursor n) :=
  let lit := token >>> 4
  if lit < 15 ∧ 16 ≤ input.length - c.ip ∧ 16 ≤ n - c.op then
    return ⟨c.ip + lit, c.op + lit, ← access (c.buf.load input c.op c.ip 16)⟩
  else do
    let (lit, ip) ← extLen "lz4: truncated literal length" input lit c.ip
    if input.length - ip < lit then fail "lz4: literals run past the input" ip
    else if n - c.op < lit then fail "lz4: literals overflow the output" ip
    else return ⟨ip + lit, c.op + lit, ← lz4Load input c.op ip lit c.buf⟩

/-- The match of a sequence, with `ip` past the literals. -/
def lz4Match (input : Bytes) (token : ℕ) (c : Cursor n) : Except Stop (Cursor n) :=
  if input.length - c.ip < 2 then fail "lz4: truncated match offset" c.ip
  else do
    let offset ← orBytes input c.ip 2
    if offset = 0 ∨ c.op < offset then fail "lz4: match offset outside the output" (c.ip + 2)
    else
      let (mlen, ip) ← extLen "lz4: truncated match length" input (token &&& 15) (c.ip + 2)
      let mlen := u64 (mlen + 4)
      let buf ← copyBack "lz4: match overflows the output" offset mlen ip c.op c.buf
      return ⟨ip, c.op + mlen, buf⟩

/-- The token of a sequence and its literals. -/
def lz4Head (input : Bytes) (c : Cursor n) : Except Stop (ℕ × Cursor n) :=
  if input.length ≤ c.ip then fail "lz4: truncated sequence" c.ip
  else do
    let token ← u8 input c.ip
    return (token, ← lz4Literals input token { c with ip := c.ip + 1 })

/-- One round of `lz4_block_decompress`: the last sequence carries
literals only. -/
def lz4Round (input : Bytes) (c : Cursor n) : Round (Cursor n) (Status n) :=
  Round.ofExcept (lz4Head input c) fun (token, c) =>
    if c.ip = input.length then .stop (.ok (c.op, c.buf))
    else Round.ofExcept (lz4Match input token c) .next

def lz4BlockDecompress (input : Bytes) (out : Buffer UInt8 n) : Status n :=
  if input = [] then fail "lz4: empty block" 0
  else decodeLoop (lz4Round input) input ⟨0, 0, out⟩

end Nanom.Codec
