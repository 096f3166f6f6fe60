import Mathlib.Logic.Function.Basic
import Nanom.Codec.Model

/-!
# FSST — symbol tables, decoding and compression

A value is compressed to codes by a table of at most 255 symbols of one to
eight bytes: a code stands for its symbol, and 255 escapes the byte behind it.
`SymbolTable` is what a reader parses, `Encoder` what a writer looks symbols up
in: one-byte symbols by the byte, two-byte ones by both bytes, longer ones in a
hash table of one symbol a slot.

An array is the function of its index. Symbols are words, their first byte
lowest; a word loaded near the end is what the bytes left spell. Stores go to a
`Buffer`, so one that leaves it is `Stop.undefined`.
-/

namespace Nanom.Codec.Fsst

open Loop (repeatWhile)

variable {n : ℕ}

/-- The exact size of a serialized table. -/
def kSymbolTableBytes : ℕ := 8 + 256 * 8 + 256

/-- The longest symbol. -/
def kMaxSymbolLength : ℕ := 8

/-- The code that escapes the next byte. -/
def kEscape : ℕ := 255

/-- "FSST" in the header's top 32 bits. -/
def kMagic : ℕ := 0x46535354 <<< 32

def kEncoderSwitchBit : ℕ := 1 <<< 24

/-! ## Reading -/

/-- `symbol_table`: the declared symbols, each its eight bytes, and their
lengths. The entries behind them are never read. -/
structure SymbolTable where
  passthrough : Bool := true
  symbolCount : ℕ := 0
  symbols : List Bytes := []
  lengths : List ℕ := []

def maxDecodedSize (k : ℕ) : ℕ := k * kMaxSymbolLength + kMaxSymbolLength

/-- The length byte at `pos`. -/
def symbolLength (bytes : Bytes) (pos : ℕ) : Except Stop ℕ := do
  let length ← u8 bytes pos
  if length < 1 ∨ length > kMaxSymbolLength then fail "fsst: symbol length is not 1..8" pos
  else return length

/-- `parse_symbol_table`, with the table it fills in. The lengths stand
right behind the declared symbols, not behind all 256 slots. -/
def parseSymbolTable (bytes : Bytes) : Except Stop SymbolTable :=
  if bytes.length ≠ kSymbolTableBytes then
    fail "fsst: symbol table size is not 2312 bytes" bytes.length
  else
    let header := leNat (subspan bytes 0 8)
    let count := header &&& 0xFF
    if header &&& kMagic ≠ kMagic then fail "fsst: symbol table has the wrong magic" 0
    else do
      let lengths ← (List.range count).mapM fun i =>
        symbolLength bytes (8 + count * kMaxSymbolLength + i)
      return {
        passthrough := header &&& kEncoderSwitchBit = 0
        symbolCount := count
        symbols := (List.range count).map fun i =>
          subspan bytes (8 + i * kMaxSymbolLength) kMaxSymbolLength
        lengths := lengths }

/-- Where decoding a value is: the codes read, the bytes produced and the
output. -/
structure Expander (n : ℕ) where
  i : ℕ
  out : ℕ
  buf : Buffer UInt8 n

/-- One code. A symbol is stored as a whole word, of which its length
counts. -/
def expandCode (table : SymbolTable) (input : Bytes) (c : Expander n) :
    Except Stop (Expander n) := do
  let code ← u8 input c.i
  if code = kEscape then
    if input.length ≤ c.i + 1 then fail "fsst: escape at the end of a value has no byte" c.i
    else return ⟨c.i + 2, c.out + 1, ← access (c.buf.load input c.out (c.i + 1) 1)⟩
  else if table.symbolCount ≤ code then fail "fsst: code is not in the symbol table" c.i
  else
    let symbol ← access table.symbols[code]?
    let length ← access table.lengths[code]?
    return ⟨c.i + 1, c.out + length, ← access (c.buf.store c.out symbol)⟩

/-- `decode_unchecked`, from `dst` on: where the output ends. -/
def decodeUnchecked (table : SymbolTable) (input : Bytes) (dst : ℕ) (buf : Buffer UInt8 n) :
    Except Stop (ℕ × Buffer UInt8 n) :=
  if table.passthrough then
    if input.length = 0 then .ok (dst, buf)
    else return (dst + input.length, ← access (buf.load input dst 0 input.length))
  else do
    let c ← repeatWhile .unfinished (fun c => c.i < input.length) (expandCode table input)
      (input.length + 1) ⟨0, dst, buf⟩
    return (c.out, c.buf)

def decode (table : SymbolTable) (input : Bytes) (out : Buffer UInt8 n) : Status n :=
  if n < maxDecodedSize input.length then fail "fsst: output is smaller than max_decoded_size" 0
  else decodeUnchecked table input 0 out

/-! ## The encoder's table -/

/-- A slot of the table of long symbols; length 0 is an empty one. -/
structure Slot where
  value : ℕ := 0
  length : ℕ := 0
  code : ℕ := 0

/-- No code. -/
def kNone : ℕ := 0xFFFF

/-- `encoder`. Symbols and their lengths are read below the count only. -/
structure Encoder where
  symbolCount : ℕ := 0
  symbols : ℕ → ℕ := fun _ => 0
  lengths : ℕ → ℕ := fun _ => 0
  /-- One-byte symbols, by the byte. -/
  byteCodes : Fin 256 → ℕ := fun _ => 0
  /-- Two-byte symbols, by both bytes. -/
  shortCodes : Fin 65536 → ℕ := fun _ => 0
  /-- Longer symbols, by a hash of their first three bytes. -/
  longCodes : Fin 1024 → Slot := fun _ => {}
  /-- By the next two bytes, the length and the code of the best symbol of
  at most two bytes; there once the table is trained. -/
  shortOrByte : Option (Fin 65536 → ℕ) := none

def maxCompressedSize (k : ℕ) : ℕ := 2 * k

def hash3 (word : ℕ) : Fin 1024 :=
  let m := u64 ((word &&& 0xFFFFFF) * 2971215073)
  Fin.ofNat 1024 ((m ^^^ (m >>> 15)) &&& 1023)

def mask (length : ℕ) : ℕ := if 8 ≤ length then 2 ^ 64 - 1 else (1 <<< (8 * length)) - 1

/-- `load`, of the bytes left. -/
def load (p : Bytes) : ℕ := leNat (p.take 8)

/-- The low byte of a word, and the low two. -/
def low8 (word : ℕ) : Fin 256 := Fin.ofNat 256 (word &&& 0xFF)

@[inherit_doc low8]
def low16 (word : ℕ) : Fin 65536 := Fin.ofNat 65536 (word &&& 0xFFFF)

def reset (e : Encoder) : Encoder :=
  { e with
    symbolCount := 0
    byteCodes := fun _ => kNone
    shortCodes := fun _ => kNone
    longCodes := fun _ => {} }

/-- A symbol takes the next code. -/
def Encoder.push (e : Encoder) (value length : ℕ) : Encoder :=
  { e with
    symbols := Function.update e.symbols e.symbolCount value
    lengths := Function.update e.lengths e.symbolCount length
    symbolCount := e.symbolCount + 1 }

/-- `add`: false where the slot of a long symbol is taken. The arrays have
room for 255 symbols. -/
def add (e : Encoder) (value length : ℕ) : Except Stop (Encoder × Bool) :=
  let code := e.symbolCount
  if 255 ≤ code then .error .undefined
  else if length = 1 then
    return ({ e with byteCodes := Function.update e.byteCodes (low8 value) code }.push value length,
      true)
  else if length = 2 then
    return (
      { e with shortCodes := Function.update e.shortCodes (low16 value) code }.push value length,
      true)
  else if (e.longCodes (hash3 value)).length ≠ 0 then return (e, false)
  else
    return (
      { e with longCodes := Function.update e.longCodes (hash3 value)
                ⟨value, length, code⟩ }.push value length,
      true)

/-- `find`, on the bytes left: the code of the longest symbol that
matches, or `kNone`, and its length. -/
def find (e : Encoder) (p : Bytes) : ℕ × ℕ :=
  let word := load p
  let s := e.longCodes (hash3 word)
  if 3 ≤ p.length ∧ s.length ≠ 0 ∧ s.length ≤ p.length ∧ word &&& mask s.length = s.value then
    (s.code, s.length)
  else if 2 ≤ p.length ∧ e.shortCodes (low16 word) ≠ kNone then (e.shortCodes (low16 word), 2)
  else (e.byteCodes (low8 word), 1)

/-! ## Compression -/

/-- Where compressing a value is: the bytes read, the codes written and
the output. -/
structure Packer (n : ℕ) where
  pos : ℕ
  out : ℕ
  buf : Buffer UInt8 n

/-- A code for the next `length` bytes. -/
def emitCode (code length : ℕ) (c : Packer n) : Except Stop (Packer n) :=
  return ⟨c.pos + length, c.out + 1, ← access (c.buf.store c.out [UInt8.ofNat code])⟩

/-- The code of an entry of `short_or_byte`, with the literal byte behind
it; the byte counts only behind an escape. -/
def emitEntry (entry word : ℕ) (c : Packer n) : Except Stop (Packer n) :=
  let code := entry &&& 0xFF
  return ⟨c.pos + (entry >>> 8), c.out + (if code = kEscape then 2 else 1),
    ← access (c.buf.store c.out [UInt8.ofNat code, UInt8.ofNat (word &&& 0xFF)])⟩

/-- The symbol of a slot starts a word. -/
def Slot.starts (s : Slot) (word : ℕ) : Bool :=
  s.length ≠ 0 ∧ u64 ((word ^^^ s.value) <<< (64 - 8 * s.length)) = 0

/-- A round of the loop that runs while eight bytes are left. -/
def packWord (e : Encoder) (shortOrByte : Fin 65536 → ℕ) (input : Bytes) (c : Packer n) :
    Except Stop (Packer n) :=
  let word := load (input.drop c.pos)
  let s := e.longCodes (hash3 word)
  if s.starts word then emitCode s.code s.length c
  else emitEntry (shortOrByte (low16 word)) word c

/-- A round of the loop over the bytes behind: no match may run past the
value. -/
def packTail (e : Encoder) (shortOrByte : Fin 65536 → ℕ) (input : Bytes) (c : Packer n) :
    Except Stop (Packer n) :=
  let word := load (input.drop c.pos)
  let remaining := input.length - c.pos
  let s := e.longCodes (hash3 word)
  if s.starts word ∧ s.length ≤ remaining then emitCode s.code s.length c
  else if 2 ≤ remaining then emitEntry (shortOrByte (low16 word)) word c
  else
    let one := e.byteCodes (low8 word)
    emitEntry ((1 <<< 8) ||| if one ≠ kNone then one else kEscape) word c

/-- A round of the loop without `short_or_byte`. -/
def packPlain (e : Encoder) (input : Bytes) (c : Packer n) : Except Stop (Packer n) :=
  let (code, length) := find e (input.drop c.pos)
  if code = kNone then do
    let literal ← access input[c.pos]?
    return ⟨c.pos + 1, c.out + 2, ← access (c.buf.store c.out [UInt8.ofNat kEscape, literal])⟩
  else emitCode code length c

/-- `compress_unchecked`: the output and how much of it counts. -/
def compressUnchecked (e : Encoder) (input : Bytes) (dst : Buffer UInt8 n) : Status n := do
  let c ← match e.shortOrByte with
    | some shortOrByte => do
        let c ← repeatWhile .unfinished (fun c => c.pos + 8 ≤ input.length)
          (packWord e shortOrByte input) (input.length + 1) ⟨0, 0, dst⟩
        repeatWhile .unfinished (fun c => c.pos < input.length)
          (packTail e shortOrByte input) (input.length + 1) c
    | none =>
      repeatWhile .unfinished (fun c => c.pos < input.length)
        (packPlain e input) (input.length + 1) ⟨0, 0, dst⟩
  return (c.out, c.buf)

/-- `compress`, appended to `out`. -/
def compress (e : Encoder) (input out : Bytes) : Except Stop Bytes := do
  let (written, buf) ← compressUnchecked e input (.zeros (maxCompressedSize input.length))
  return out ++ buf.elems.take written

/-- The bytes of a serialized table before its padding. -/
def serializeBody (e : Encoder) : Bytes :=
  leBytes 8 (kMagic ||| kEncoderSwitchBit ||| e.symbolCount) ++
    ((List.range e.symbolCount).flatMap (fun i => leBytes 8 (e.symbols i)) ++
      (List.range e.symbolCount).map fun i => UInt8.ofNat (e.lengths i))

def serialize (e : Encoder) : Bytes :=
  serializeBody e ++ List.replicate (kSymbolTableBytes - (serializeBody e).length) 0

end Nanom.Codec.Fsst
