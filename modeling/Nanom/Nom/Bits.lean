import Nanom.Nom.Combinators

/-!
# Bit parsers

A bit cursor is an input and how many bits of its first byte are used up.
`readBits` takes bits in one of the two orders, byte by byte. `bits` goes over
to bit mode and back to the next byte.
-/

namespace Nanom.Nom

variable {α β : Type}

/-- `bit_order`: the first field has the highest bits of a byte, or the
lowest. -/
inductive BitOrder
  | msb0
  | lsb0
deriving DecidableEq

structure BitInput where
  input : Input
  bit : ℕ

def BitInput.bitsLeft (bi : BitInput) : ℕ := bi.input.size * 8 - bi.bit

/-- The cursor after so many bits of its byte. -/
def BitInput.step (bi : BitInput) (use : ℕ) : BitInput :=
  if bi.bit + use = 8 then ⟨bi.input.advance 1, 0⟩ else ⟨bi.input, bi.bit + use⟩

/-- `bresult`. -/
abbrev BitResult (α : Type) : Type := Outcome BitInput α

abbrev BitParser (α : Type) : Type := BitInput → BitResult α

/-- What a round of `read_bits` adds to the value: `use` bits of a byte, of
which `bit` are used up, behind `got` others. -/
def addPiece (ord : BitOrder) (byte bit use got out : ℕ) : ℕ :=
  match ord with
  | .msb0 => u64 (out <<< use) ||| ((byte >>> (8 - bit - use)) &&& (2 ^ use - 1))
  | .lsb0 => out ||| u64 (((byte >>> bit) &&& (2 ^ use - 1)) <<< got)

/-- The loop of `read_bits`, with `k` rounds to go at most. -/
def readBitsFrom (ord : BitOrder) (n : ℕ) : ℕ → ℕ → ℕ → BitParser ℕ
  | 0, got, out => fun bi => if got < n then .never else .done out bi
  | k + 1, got, out => fun bi =>
    if got < n then
      let use := min (8 - bi.bit) (n - got)
      readBitsFrom ord n k (got + use)
        (addPiece ord (bi.input.bytes.headD 0).toNat bi.bit use got out) (bi.step use)
    else .done out bi

/-- `detail::read_bits`, which is for at most 64 bits. -/
def readBits (n : ℕ) (ord : BitOrder) : BitParser ℕ := fun bi =>
  if bi.bitsLeft < n then .unexp (makeIncomplete bi.input ((n - bi.bitsLeft + 7) / 8))
  else readBitsFrom ord n n 0 0 bi

/-- `take_bits`: `conv` is the conversion to the type asked for. -/
def takeBits (conv : ℕ → α) (n : ℕ) (ord : BitOrder) : BitParser α := fun bi =>
  (readBits n ord bi).andThen fun v rest => .done (conv v) rest

def tagBits (pattern n : ℕ) (ord : BitOrder) : BitParser ℕ := fun bi =>
  (readBits n ord bi).andThen fun v rest =>
    if v = pattern then .done v rest else .unexp (makeErr bi.input "bit tag")

def boolBit (ord : BitOrder) : BitParser Bool := fun bi =>
  (readBits 1 ord bi).andThen fun v rest => .done (v != 0) rest

/-- `bseq`, for a list that is not empty. -/
def bseq : (αs : List Type) → Tuple BitParser αs → BitParser (Tuple id αs)
  | [], _ => fun bi => .done () bi
  | _ :: αs, (p, ps) => fun bi =>
    (p bi).andThen fun v rest => (bseq αs ps rest).andThen fun vs rest => .done (v, vs) rest

/-- `bits`: what is left of a byte that was begun is dropped. -/
def bits (bp : BitParser α) : Parser α := fun i =>
  (bp ⟨i, 0⟩).andThen fun v rest =>
    .done v (if rest.bit ≠ 0 then rest.input.advance 1 else rest.input)

/-- `bytes_`. -/
def bytes_ (p : Parser α) : BitParser α := fun bi =>
  if bi.bit ≠ 0 then .unexp (makeErr bi.input "bytes(): bit cursor must be byte-aligned")
  else (p bi.input).andThen fun v rest => .done v ⟨rest, 0⟩

end Nanom.Nom
