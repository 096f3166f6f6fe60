import Nanom.Common.BitPack
import Nanom.Wire.Headers
/-!
# Headers on the wire

A header that can be written: its bytes, and that `strct` reads the header
back from them, whatever follows. A header is `Valid` if its numbers fit
their fields and its addresses have their lengths.
-/

namespace Nanom.Wire

open List

/-- A described struct with its bytes. -/
class Encoded (T : Type) extends Described T where
  encode : T → Bytes
  Valid : T → Prop
  length_encode : ∀ v, Valid v → (encode v).length = wireSize
  decode_encode : ∀ v, Valid v → decode (encode v) = v

export Encoded (encode Valid)

section Strct

variable {T : Type} [Encoded T] {v : T}

/-- **What is written is read back.** -/
theorem strct_encode (h : Valid v) (rest : Bytes) :
    strct T (encode v ++ rest) = some (v, rest) := by
  have hlen := Encoded.length_encode v h
  rw [strct_eq_some_iff, length_append, hlen]
  refine ⟨Nat.le_add_right _ _, ?_, ?_⟩
  · rw [take_left' hlen, Encoded.decode_encode v h]
  · rw [drop_left' hlen]

end Strct

/-! ## Headers that are fields only -/

/-- A header whose members are fields of bits, one after another. -/
@[reducible] def Encoded.ofFields {T : Type} [Described T] (fields : T → List (ℕ × ℕ))
    (width : ∀ v, fieldsWidth (fields v) = 8 * Described.wireSize T)
    (decode_eq : ∀ v b, (∀ i {w x : ℕ}, (fields v)[i]? = some (w, x) →
      bitsAt b (fieldsWidth ((fields v).take i)) w = x) → Described.decode b = v) : Encoded T where
  encode v := fieldBytes (Described.wireSize T) (fields v)
  Valid v := FieldsFit (fields v)
  length_encode _ _ := length_fieldBytes _ _
  decode_encode v h := decode_eq v _ (bitsAt_fieldBytes h (width v))

def VlanTag.fields (v : VlanTag) : List (ℕ × ℕ) :=
  [(3, v.pcp), (1, v.dei), (12, v.vid), (16, v.innerEthertype)]

instance : Encoded VlanTag := .ofFields VlanTag.fields (fun _ => rfl) fun _ _ h =>
  (VlanTag.mk.injEq ..).mpr ⟨h 0 rfl, h 1 rfl, h 2 rfl, h 3 rfl⟩

def Udp.fields (v : Udp) : List (ℕ × ℕ) :=
  [(16, v.srcPort), (16, v.dstPort), (16, v.length), (16, v.checksum)]

instance : Encoded Udp := .ofFields Udp.fields (fun _ => rfl) fun _ _ h =>
  (Udp.mk.injEq ..).mpr ⟨h 0 rfl, h 1 rfl, h 2 rfl, h 3 rfl⟩

def Tcp.fields (v : Tcp) : List (ℕ × ℕ) :=
  [(16, v.srcPort), (16, v.dstPort), (32, v.seq), (32, v.ack), (4, v.dataOffset),
    (3, v.reserved), (9, v.flags), (16, v.window), (16, v.checksum), (16, v.urgent)]

instance : Encoded Tcp := .ofFields Tcp.fields (fun _ => rfl) fun _ _ h =>
  (Tcp.mk.injEq ..).mpr ⟨h 0 rfl, h 1 rfl, h 2 rfl, h 3 rfl, h 4 rfl, h 5 rfl, h 6 rfl, h 7 rfl,
    h 8 rfl, h 9 rfl⟩

def Ipv6ExtOpt.fields (v : Ipv6ExtOpt) : List (ℕ × ℕ) :=
  [(8, v.nextHeader), (8, v.hdrExtLen)]

instance : Encoded Ipv6ExtOpt := .ofFields Ipv6ExtOpt.fields (fun _ => rfl) fun _ _ h =>
  (Ipv6ExtOpt.mk.injEq ..).mpr ⟨h 0 rfl, h 1 rfl⟩

def Ipv6Srh.fields (v : Ipv6Srh) : List (ℕ × ℕ) :=
  [(8, v.nextHeader), (8, v.hdrExtLen), (8, v.routingType), (8, v.segmentsLeft),
    (8, v.lastEntry), (8, v.flags), (16, v.tag)]

instance : Encoded Ipv6Srh := .ofFields Ipv6Srh.fields (fun _ => rfl) fun _ _ h =>
  (Ipv6Srh.mk.injEq ..).mpr ⟨h 0 rfl, h 1 rfl, h 2 rfl, h 3 rfl, h 4 rfl, h 5 rfl, h 6 rfl⟩

def Ipv6Fragment.fields (v : Ipv6Fragment) : List (ℕ × ℕ) :=
  [(8, v.nextHeader), (8, v.reserved), (16, v.offsetFlags), (32, v.identification)]

instance : Encoded Ipv6Fragment := .ofFields Ipv6Fragment.fields (fun _ => rfl) fun _ _ h =>
  (Ipv6Fragment.mk.injEq ..).mpr ⟨h 0 rfl, h 1 rfl, h 2 rfl, h 3 rfl⟩

def Ipv6Ah.fields (v : Ipv6Ah) : List (ℕ × ℕ) :=
  [(8, v.nextHeader), (8, v.payloadLen), (16, v.reserved), (32, v.spi), (32, v.seq)]

instance : Encoded Ipv6Ah := .ofFields Ipv6Ah.fields (fun _ => rfl) fun _ _ h =>
  (Ipv6Ah.mk.injEq ..).mpr ⟨h 0 rfl, h 1 rfl, h 2 rfl, h 3 rfl, h 4 rfl⟩

/-! ## Headers with addresses -/

def Ethernet.bytes (v : Ethernet) : Bytes := v.dst ++ v.src ++ fieldBytes 2 [(16, v.ethertype)]

theorem Ethernet.length_bytes {v : Ethernet} (hdst : v.dst.length = 6) (hsrc : v.src.length = 6) :
    v.bytes.length = 14 := by
  rw [bytes, length_append, length_append, length_fieldBytes, hdst, hsrc]

theorem Ethernet.decode_bytes {v : Ethernet} (hdst : v.dst.length = 6) (hsrc : v.src.length = 6)
    (htype : FieldsFit [(16, v.ethertype)]) : Described.decode v.bytes = v := by
  have haddr : (v.dst ++ v.src).length = 12 := by rw [length_append, hdst, hsrc]
  refine (Ethernet.mk.injEq ..).mpr ⟨?_, ?_, ?_⟩
  · rw [bytes, subspan, drop_zero, append_assoc, take_left' hdst]
  · rw [bytes, subspan, append_assoc, drop_left' hdst, take_left' hsrc]
  · rw [bytes, bitsAt_append_right (by omega) (by rw [haddr, length_fieldBytes]), haddr]
    exact bitsAt_fieldBytes htype rfl 0 rfl

instance : Encoded Ethernet where
  encode := Ethernet.bytes
  Valid v := v.dst.length = 6 ∧ v.src.length = 6 ∧ FieldsFit [(16, v.ethertype)]
  length_encode _ h := Ethernet.length_bytes h.1 h.2.1
  decode_encode _ h := Ethernet.decode_bytes h.1 h.2.1 h.2.2

def Ipv6.fields (v : Ipv6) : List (ℕ × ℕ) :=
  [(4, v.version), (8, v.trafficClass), (20, v.flowLabel), (16, v.payloadLength),
    (8, v.nextHeader), (8, v.hopLimit)]

instance : Encoded Ipv6 where
  encode v := fieldBytes 8 v.fields ++ (v.src ++ v.dst)
  Valid v := v.src.length = 16 ∧ v.dst.length = 16 ∧ FieldsFit v.fields
  length_encode v h := by
    rw [length_append, length_append, length_fieldBytes, h.1, h.2.1]
    rfl
  decode_encode v h := by
    obtain ⟨hsrc, hdst, hfields⟩ := h
    have hfield : ∀ i {w x : ℕ}, v.fields[i]? = some (w, x) →
        bitsAt (fieldBytes 8 v.fields ++ (v.src ++ v.dst)) (fieldsWidth (v.fields.take i)) w
          = x := by
      intro i w x hi
      have hle := fieldsWidth_take hi
      rw [bitsAt_append_left (by rw [length_fieldBytes]; exact hle),
        bitsAt_fieldBytes hfields rfl i hi]
    refine (Ipv6.mk.injEq ..).mpr ⟨hfield 0 rfl, hfield 1 rfl, hfield 2 rfl, hfield 3 rfl,
      hfield 4 rfl, hfield 5 rfl, ?_, ?_⟩
    · rw [subspan, List.drop_left' (length_fieldBytes 8 _), List.take_left' hsrc]
    · rw [subspan, ← List.append_assoc, List.drop_left' (by rw [length_append,
        length_fieldBytes, hsrc]), List.take_of_length_le (le_of_eq hdst)]

end Nanom.Wire
