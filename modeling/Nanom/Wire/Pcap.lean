import Nanom.Common.Bytes
/-!
# Capture blocks

The block parsers of `nanom_shark/pcap.hpp`: one block in, its fields out,
in the byte order its section declares. Phase A, the scan of a file for
its blocks, is not here.

`parse_idb` and `parse_epb` step over the block's 8-byte header before
they look at its size, and the size of a cursor is the distance to the
block's end modulo `2 ^ 64`. A block shorter than its header therefore
reads on past its end, so a block carries the memory behind it (`past`).
-/

namespace Nanom.Wire

open List Option

/-- A block in memory: its bytes, and the memory behind its end. -/
structure Block where
  bytes : Bytes
  past : ℕ → UInt8

namespace Block

/-- The byte at an address, counted from the block's start. -/
def byteAt (b : Block) (i : ℕ) : UInt8 := b.bytes[i]?.getD (b.past (i - b.bytes.length))

/-- `n` bytes from an address on. -/
def read (b : Block) (i n : ℕ) : Bytes := (List.range n).map fun k => b.byteAt (i + k)

/-- `input::size()` of the cursor at an address. -/
def sizeFrom (b : Block) (i : ℕ) : ℕ := (b.bytes.length + (2 ^ 64 - i)) % 2 ^ 64

/-- The window of `n` bytes a struct is read off, where the cursor's size
allows it. -/
def window (b : Block) (i n : ℕ) : Option Bytes :=
  if b.sizeFrom i < n then none else some (b.read i n)

variable {b : Block} {i n : ℕ}

theorem read_eq (h : i + n ≤ b.bytes.length) : b.read i n = subspan b.bytes i n := by
  refine ext_getElem? fun k => ?_
  rw [read, getElem?_subspan, getElem?_map]
  split
  · rename_i hk
    rw [getElem?_range hk, map_some, byteAt, getElem?_eq_getElem (by omega), getD_some]
  · rw [getElem?_eq_none (by rw [length_range]; omega), map_none]

theorem sizeFrom_of_le (h : i ≤ b.bytes.length) (hlen : b.bytes.length < 2 ^ 64) :
    b.sizeFrom i = b.bytes.length - i := by
  rw [sizeFrom]
  omega

theorem window_of_le (h : i + n ≤ b.bytes.length) (hlen : b.bytes.length < 2 ^ 64) :
    b.window i n = some (subspan b.bytes i n) := by
  rw [window, sizeFrom_of_le (by omega) hlen, if_neg (by omega), read_eq h]

theorem window_of_lt (hi : i ≤ b.bytes.length) (h : b.bytes.length < i + n)
    (hlen : b.bytes.length < 2 ^ 64) : b.window i n = none := by
  rw [window, sizeFrom_of_le hi hlen, if_pos (by omega)]

theorem window_some {w : Bytes} (h : b.window i n = some w) (hi : i ≤ b.bytes.length)
    (hn : i + n ≤ 2 ^ 64) : i + n ≤ b.bytes.length ∧ w = subspan b.bytes i n := by
  have hfits : i + n ≤ b.bytes.length := by
    by_contra hshort
    rw [window_of_lt hi (by omega) (by omega)] at h
    cases h
  rw [window] at h
  split at h
  · cases h
  · rw [read_eq hfits] at h
    exact ⟨hfits, (some.inj h).symm⟩

end Block

inductive Kind
  | shb
  | idb
  | epb
  | pcapRecord
  | simplePacket
  | other
deriving DecidableEq, Repr

structure IdbView where
  linkType : ℕ
  snaplen : ℕ
deriving DecidableEq, Repr

structure EpbView where
  interfaceId : ℕ := 0
  tsRaw : ℕ := 0
  caplen : ℕ := 0
  origlen : ℕ := 0
  payloadFileOffset : ℕ := 0
deriving DecidableEq, Repr

def kMagicUsLE : ℕ := 0xA1B2C3D4
def kMagicUsBE : ℕ := 0xD4C3B2A1
def kMagicNsLE : ℕ := 0xA1B23C4D
def kMagicNsBE : ℕ := 0x4D3CB2A1
def kByteOrderMagic : ℕ := 0x1A2B3C4D

/-- A number in the byte order of the section. -/
def ordered (little : Bool) (b : Bytes) : ℕ := if little then leNat b else beNat b

theorem ordered_lt (little : Bool) (b : Bytes) : ordered little b < 256 ^ b.length := by
  have hle := leNat_lt b.reverse
  rw [ordered]
  split
  · exact leNat_lt b
  · rwa [leNat, reverse_reverse, length_reverse] at hle

/-- `shb_byte_order`: the order a section header declares; nothing where
the block is too short to tell. -/
def shbByteOrder (b : Block) : Option Bool :=
  if b.bytes.length < 12 then none
  else some (leNat (b.read 8 4) == kByteOrderMagic)

/-- `parse_idb` over one block that starts at offset 0. A declared length
of 24 may be a classic capture's global header. -/
def parseIdb (b : Block) (length : ℕ) (little : Bool) : Option IdbView :=
  let body := (b.window 8 8).map fun w =>
    ⟨ordered little (subspan w 0 2), ordered little (subspan w 4 4)⟩
  if length = 24 then
    match b.window 0 4 with
    | some m =>
      if leNat m = kMagicUsLE ∨ leNat m = kMagicNsLE ∨ leNat m = kMagicUsBE ∨
          leNat m = kMagicNsBE then
        (b.window 4 20).map fun g =>
          ⟨ordered little (subspan g 16 4) % 2 ^ 16, ordered little (subspan g 12 4)⟩
      else body
    | none => body
  else body

/-- `parse_epb` over one block that starts at offset 0. -/
def parseEpb (b : Block) (length : ℕ) (kind : Kind) (little : Bool) : Option EpbView :=
  match kind with
  | .epb =>
    match b.window 8 20 with
    | none => none
    | some w =>
      let caplen := ordered little (subspan w 12 4)
      if 28 + caplen + 4 > length then none
      else some
        { interfaceId := ordered little (subspan w 0 4)
          tsRaw := ordered little (subspan w 4 4) * 2 ^ 32 + ordered little (subspan w 8 4)
          caplen := caplen
          origlen := ordered little (subspan w 16 4)
          payloadFileOffset := 28 }
  | .pcapRecord =>
    (b.window 0 16).map fun w =>
      { interfaceId := 0
        tsRaw := ordered little (subspan w 0 4) * 2 ^ 32 + ordered little (subspan w 4 4)
        caplen := ordered little (subspan w 8 4)
        origlen := ordered little (subspan w 12 4)
        payloadFileOffset := 16 }
  | _ => none

end Nanom.Wire
