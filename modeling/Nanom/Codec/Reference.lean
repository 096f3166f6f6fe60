import Nanom.Common.Loop
import Nanom.Common.Window
import Nanom.Wire.Varint

/-!
# The plain decoders

The two formats as their descriptions have them: the input is consumed from the
front, and the output is a list that grows by one byte at a time. A decoder
gives up where the input breaks off, where a back-reference points before the
start of the output, and where a byte has no room.
-/

namespace Nanom.Codec

open Loop (Round)

/-- The state of a plain decoder: the input that is left and the output
so far. -/
structure Plain where
  rest : Bytes
  produced : Bytes

/-- The next `k` bytes as a number, first byte lowest. -/
def takeLe (k : ℕ) (rest : Bytes) : Option (ℕ × Bytes) :=
  if k ≤ rest.length then some (leNat (rest.take k), rest.drop k) else none

namespace Plain

/-- The next `len` bytes of the input go to the output. -/
def literal (n len : ℕ) (t : Plain) : Option Plain :=
  if len ≤ t.rest.length then do
    return ⟨t.rest.drop len, ← putAll n (t.rest.take len) t.produced⟩
  else none

/-- The `len` bytes from `offset` back go to the output. -/
def copy (n offset len : ℕ) (t : Plain) : Option Plain :=
  if 1 ≤ offset ∧ offset ≤ t.produced.length then do
    return ⟨t.rest, ← copyBytes n offset len t.produced⟩
  else none

end Plain

/-- The rounds of a plain decoder over an input. -/
def plainLoop (round : Plain → Round Plain (Option Bytes)) (input rest : Bytes) : Option Bytes :=
  (Loop.run round (input.length + 1) ⟨rest, []⟩).join

/-! ## Snappy -/

namespace Snappy

/-- An element: a literal, or a copy of what has been produced. -/
inductive Element
  | literal (len : ℕ)
  | copy (offset len : ℕ)

/-- The element that a tag opens, and the input behind it. -/
def element (tag : ℕ) (rest : Bytes) : Option (Element × Bytes) :=
  match tag % 4 with
  | 0 =>
    if tag / 4 < 60 then some (.literal (tag / 4 + 1), rest)
    else (takeLe (tag / 4 - 59) rest).map fun p => (.literal (p.1 + 1), p.2)
  | 1 => (takeLe 1 rest).map fun p => (.copy (tag / 32 * 256 + p.1) (tag / 4 % 8 + 4), p.2)
  | 2 => (takeLe 2 rest).map fun p => (.copy p.1 (tag / 4 + 1), p.2)
  | _ => (takeLe 4 rest).map fun p => (.copy p.1 (tag / 4 + 1), p.2)

/-- What an element does. -/
def execute (n : ℕ) (t : Plain) : Element → Option Plain
  | .literal len => t.literal n len
  | .copy offset len => t.copy n offset len

/-- The next element, with its tag taken off the input. -/
def step (n tag : ℕ) (rest produced : Bytes) : Option Plain := do
  let (e, rest) ← element tag rest
  execute n ⟨rest, produced⟩ e

/-- One round: at the end of the input the output is to be full. -/
def round (n : ℕ) (t : Plain) : Round Plain (Option Bytes) :=
  match t.rest with
  | [] => .stop (if t.produced.length = n then some t.produced else none)
  | tag :: rest => Round.ofOption (step n tag.toNat rest t.produced) .next

/-- **The plain Snappy decoder** for an output of `n` bytes. -/
def decode (n : ℕ) (input : Bytes) : Option Bytes := do
  let (size, used) ← Wire.varint 32 input
  if size = n then plainLoop (round n) input (input.drop used) else none

end Snappy

/-! ## LZ4 blocks -/

namespace Lz4

/-- The bytes that extend a length, up to the first that is not 255. -/
def extended (len : ℕ) : Bytes → Option (ℕ × Bytes)
  | [] => none
  | b :: rest => if b = 255 then extended (len + 255) rest else some (len + b.toNat, rest)

/-- The length that four bits of the token open. -/
def length (nibble : ℕ) (rest : Bytes) : Option (ℕ × Bytes) :=
  if nibble < 15 then some (nibble, rest) else extended 15 rest

/-- The literals of a sequence. -/
def literals (n token : ℕ) (t : Plain) : Option Plain := do
  let (len, rest) ← length (token / 16) t.rest
  Plain.literal n len ⟨rest, t.produced⟩

/-- The match of a sequence: an offset of two bytes, and a length of at
least four. -/
def backReference (n token : ℕ) (t : Plain) : Option Plain := do
  let (offset, rest) ← takeLe 2 t.rest
  let (len, rest) ← length (token % 16) rest
  Plain.copy n offset (len + 4) ⟨rest, t.produced⟩

/-- The token of a sequence and its literals. -/
def head (n : ℕ) (t : Plain) : Option (ℕ × Plain) :=
  match t.rest with
  | [] => none
  | token :: rest => do return (token.toNat, ← literals n token.toNat ⟨rest, t.produced⟩)

/-- One round: the block ends with the literals of a sequence. -/
def round (n : ℕ) (t : Plain) : Round Plain (Option Bytes) :=
  Round.ofOption (head n t) fun (token, t) =>
    if t.rest = [] then .stop (some t.produced)
    else Round.ofOption (backReference n token t) .next

/-- **The plain LZ4 block decoder** for an output of at most `n` bytes. -/
def decode (n : ℕ) (input : Bytes) : Option Bytes := plainLoop (round n) input input

end Lz4

end Nanom.Codec
