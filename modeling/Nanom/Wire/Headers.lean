import Nanom.Common.Bytes
/-!
# Protocol headers

The header structs of `nanom_shark/protocols.hpp`. A described struct is a
list of fields laid end to end, so a field is read at the sum of the
widths before it; `wireSize` is the sum of them all. Multi-byte fields
are in network order and bit fields fill a byte from the top, so both are
`bitsAt` of the struct's bytes.
-/

namespace Nanom.Wire

/-- A struct with a layout: its size on the wire, and its value read off
that many bytes. -/
class Described (T : Type) where
  wireSize : ℕ
  decode : Bytes → T

export Described (wireSize)

variable {T : Type} [Described T] {b rest : Bytes} {v : T}

/-- `strct<T>()`: the value at the front of the input, and what follows. -/
def strct (T : Type) [Described T] (b : Bytes) : Option (T × Bytes) :=
  if b.length < wireSize T then none
  else some (Described.decode (b.take (wireSize T)), b.drop (wireSize T))

theorem strct_eq_some_iff : strct T b = some (v, rest) ↔
    wireSize T ≤ b.length ∧ v = Described.decode (b.take (wireSize T)) ∧
      rest = b.drop (wireSize T) := by
  unfold strct
  split
  · simp only [false_iff, reduceCtorEq]
    omega
  rw [Option.some.injEq, Prod.mk.injEq]
  constructor
  · rintro ⟨rfl, rfl⟩
    exact ⟨by omega, rfl, rfl⟩
  · rintro ⟨-, rfl, rfl⟩
    exact ⟨rfl, rfl⟩

/-! ## L2 to L4 -/

structure Ethernet where
  dst : Bytes
  src : Bytes
  ethertype : ℕ
deriving DecidableEq, Repr

instance : Described Ethernet where
  wireSize := 14
  decode b := ⟨subspan b 0 6, subspan b 6 6, bitsAt b 96 16⟩

structure VlanTag where
  pcp : ℕ
  dei : ℕ
  vid : ℕ
  innerEthertype : ℕ
deriving DecidableEq, Repr

instance : Described VlanTag where
  wireSize := 4
  decode b := ⟨bitsAt b 0 3, bitsAt b 3 1, bitsAt b 4 12, bitsAt b 16 16⟩

structure Ipv4 where
  version : ℕ
  ihl : ℕ
  dscp : ℕ
  ecn : ℕ
  totalLength : ℕ
  identification : ℕ
  flags : ℕ
  fragOffset : ℕ
  ttl : ℕ
  protocol : ℕ
  checksum : ℕ
  src : Bytes
  dst : Bytes
deriving DecidableEq, Repr

instance : Described Ipv4 where
  wireSize := 20
  decode b :=
    { version := bitsAt b 0 4
      ihl := bitsAt b 4 4
      dscp := bitsAt b 8 6
      ecn := bitsAt b 14 2
      totalLength := bitsAt b 16 16
      identification := bitsAt b 32 16
      flags := bitsAt b 48 3
      fragOffset := bitsAt b 51 13
      ttl := bitsAt b 64 8
      protocol := bitsAt b 72 8
      checksum := bitsAt b 80 16
      src := subspan b 12 4
      dst := subspan b 16 4 }

structure Ipv6 where
  version : ℕ
  trafficClass : ℕ
  flowLabel : ℕ
  payloadLength : ℕ
  nextHeader : ℕ
  hopLimit : ℕ
  src : Bytes
  dst : Bytes
deriving DecidableEq, Repr

instance : Described Ipv6 where
  wireSize := 40
  decode b :=
    { version := bitsAt b 0 4
      trafficClass := bitsAt b 4 8
      flowLabel := bitsAt b 12 20
      payloadLength := bitsAt b 32 16
      nextHeader := bitsAt b 48 8
      hopLimit := bitsAt b 56 8
      src := subspan b 8 16
      dst := subspan b 24 16 }

structure Udp where
  srcPort : ℕ
  dstPort : ℕ
  length : ℕ
  checksum : ℕ
deriving DecidableEq, Repr

instance : Described Udp where
  wireSize := 8
  decode b := ⟨bitsAt b 0 16, bitsAt b 16 16, bitsAt b 32 16, bitsAt b 48 16⟩

structure Tcp where
  srcPort : ℕ
  dstPort : ℕ
  seq : ℕ
  ack : ℕ
  dataOffset : ℕ
  reserved : ℕ
  flags : ℕ
  window : ℕ
  checksum : ℕ
  urgent : ℕ
deriving DecidableEq, Repr

instance : Described Tcp where
  wireSize := 20
  decode b :=
    { srcPort := bitsAt b 0 16
      dstPort := bitsAt b 16 16
      seq := bitsAt b 32 32
      ack := bitsAt b 64 32
      dataOffset := bitsAt b 96 4
      reserved := bitsAt b 100 3
      flags := bitsAt b 103 9
      window := bitsAt b 112 16
      checksum := bitsAt b 128 16
      urgent := bitsAt b 144 16 }

/-! ## IPv6 extension headers -/

/-- Hop-by-Hop and Destination Options, the fixed part. -/
structure Ipv6ExtOpt where
  nextHeader : ℕ
  hdrExtLen : ℕ
deriving DecidableEq, Repr

instance : Described Ipv6ExtOpt where
  wireSize := 2
  decode b := ⟨bitsAt b 0 8, bitsAt b 8 8⟩

/-- The Segment Routing Header, the fixed part. -/
structure Ipv6Srh where
  nextHeader : ℕ
  hdrExtLen : ℕ
  routingType : ℕ
  segmentsLeft : ℕ
  lastEntry : ℕ
  flags : ℕ
  tag : ℕ
deriving DecidableEq, Repr

instance : Described Ipv6Srh where
  wireSize := 8
  decode b := ⟨bitsAt b 0 8, bitsAt b 8 8, bitsAt b 16 8, bitsAt b 24 8, bitsAt b 32 8,
    bitsAt b 40 8, bitsAt b 48 16⟩

structure Ipv6Fragment where
  nextHeader : ℕ
  reserved : ℕ
  /-- Offset (13 bits), reserved (2), more fragments (1). -/
  offsetFlags : ℕ
  identification : ℕ
deriving DecidableEq, Repr

instance : Described Ipv6Fragment where
  wireSize := 8
  decode b := ⟨bitsAt b 0 8, bitsAt b 8 8, bitsAt b 16 16, bitsAt b 32 32⟩

/-- The Authentication Header. -/
structure Ipv6Ah where
  nextHeader : ℕ
  payloadLen : ℕ
  reserved : ℕ
  spi : ℕ
  seq : ℕ
deriving DecidableEq, Repr

instance : Described Ipv6Ah where
  wireSize := 12
  decode b := ⟨bitsAt b 0 8, bitsAt b 8 8, bitsAt b 16 16, bitsAt b 32 32, bitsAt b 64 32⟩

end Nanom.Wire
