import Nanom.Someip.Discovery
/-!
# Service Discovery messages on the wire

A Service Discovery message as a value, with its bytes: entries, and
options whose lengths are right. The walk over its payload reports the
entries and options that were written (`sd_faithful`), in whatever parts
the payload lies.
-/

namespace Nanom.Someip

open List Nat

open Wire (Described Encoded wireSize Valid encode)
open Segmented (SegInput)

/-! ## Options -/

inductive EndpointKind
  | unicast
  | multicast
  | sd

inductive IpAddress
  | v4 (a : {b : Bytes // b.length = 4})
  | v6 (a : {b : Bytes // b.length = 16})

/-- An endpoint option. -/
structure EndpointOption where
  kind : EndpointKind
  address : IpAddress
  reserved : UInt8
  reserved2 : UInt8
  l4proto : UInt8
  port : UInt16

/-- An option with its full length. -/
inductive WireOption
  | endpoint (e : EndpointOption)
  | other (type : UInt8) (body : Bytes)
      (not_endpoint : (isV4 type.toNat || isV6 type.toNat) = false)
      (length_lt : body.length < 2 ^ 16)

namespace IpAddress

def bytes : IpAddress → Bytes
  | v4 a => a.1
  | v6 a => a.1

/-- The address in the 16 bytes of a row. -/
def padded : IpAddress → Bytes
  | v4 a => a.1 ++ List.replicate 12 0
  | v6 a => a.1

end IpAddress

namespace EndpointOption

def type (e : EndpointOption) : UInt8 :=
  match e.address, e.kind with
  | .v4 _, .unicast => 0x04
  | .v4 _, .multicast => 0x14
  | .v4 _, .sd => 0x24
  | .v6 _, .unicast => 0x06
  | .v6 _, .multicast => 0x16
  | .v6 _, .sd => 0x26

def body (e : EndpointOption) : Bytes :=
  e.reserved :: (e.address.bytes ++ (e.reserved2 :: e.l4proto :: beBytes 2 e.port.toNat))

def endpoint (e : EndpointOption) : Endpoint := ⟨e.address.padded, e.l4proto.toNat, e.port.toNat⟩

end EndpointOption

namespace WireOption

def type : WireOption → UInt8
  | endpoint e => e.type
  | other type _ _ _ => type

/-- What the length counts. -/
def body : WireOption → Bytes
  | endpoint e => e.body
  | other _ body _ _ => body

def bytes (o : WireOption) : Bytes := beBytes 2 o.body.length ++ (o.type :: o.body)

/-- What is to be reported of it. -/
def reported : WireOption → Endpoint
  | endpoint e => e.endpoint
  | other _ _ _ _ => {}

end WireOption

/-! ## Decoding an option -/

variable (e : EndpointOption)

theorem EndpointOption.length_body : e.body.length = e.address.bytes.length + 5 := by
  rw [body, length_cons, length_append, length_cons, length_cons, length_beBytes]

theorem EndpointOption.addressSize_type :
    (!isV4 e.type.toNat && !isV6 e.type.toNat) = false
      ∧ addressSize e.type.toNat = e.address.bytes.length
      ∧ e.address.bytes ++ replicate (16 - e.address.bytes.length) 0
        = e.address.padded := by
  obtain ⟨kind, address, r, r', l4, port⟩ := e
  cases address with
  | v4 a | v6 a =>
    obtain ⟨b, hb⟩ := a
    cases kind <;> refine ⟨rfl, hb.symm, ?_⟩ <;> simp [IpAddress.bytes, IpAddress.padded, hb]

/-- An endpoint is read back, whatever follows. -/
theorem sdDecodeEndpoint_endpoint (l₀ l₁ : UInt8) (t : Bytes) :
    sdDecodeEndpoint (l₀ :: l₁ :: e.type :: (e.body ++ t)) e.type.toNat = (true, e.endpoint) := by
  obtain ⟨htype, hsize, hpadded⟩ := e.addressSize_type
  have hopt : l₀ :: l₁ :: e.type :: (e.body ++ t)
      = [l₀, l₁, e.type, e.reserved] ++ e.address.bytes
        ++ (e.reserved2 :: e.l4proto :: (beBytes 2 e.port.toNat ++ t)) := by
    simp [EndpointOption.body]
  have hfront : ([l₀, l₁, e.type, e.reserved] ++ e.address.bytes).length
      = 4 + e.address.bytes.length := length_append
  have hlength : (l₀ :: l₁ :: e.type :: (e.body ++ t)).length
      = e.address.bytes.length + 8 + t.length := by
    simp [e.length_body]
    omega
  have haddr : subspan (l₀ :: l₁ :: e.type :: (e.body ++ t)) 4 e.address.bytes.length
      = e.address.bytes := by
    rw [hopt]
    exact take_left
  have hproto : (l₀ :: l₁ :: e.type :: (e.body ++ t))[4 + e.address.bytes.length + 1]?
      = some e.l4proto := by
    rw [hopt, getElem?_append_right (by omega), hfront, Nat.add_sub_cancel_left]
    rfl
  have hport : beNat (subspan (l₀ :: l₁ :: e.type :: (e.body ++ t))
      (4 + e.address.bytes.length + 1 + 1) 2) = e.port.toNat := by
    have hlt := e.port.toNat_lt
    rw [hopt, subspan_append_of_le (by omega), hfront,
      show 4 + e.address.bytes.length + 1 + 1 - (4 + e.address.bytes.length) = 2 by omega]
    show beNat ((beBytes 2 e.port.toNat ++ t).take 2) = _
    rw [take_left' (length_beBytes _ _), beNat_beBytes, mod_eq_of_lt (by omega)]
  rw [sdDecodeEndpoint, htype, if_neg Bool.false_ne_true]
  rw [hsize, if_neg (by omega), haddr, hpadded, hproto, hport]
  rfl

theorem WireOption.length_body_lt (o : WireOption) : o.body.length < 2 ^ 16 := by
  cases o with
  | endpoint e =>
    rw [body, e.length_body]
    cases e.address with
    | v4 a | v6 a => rw [IpAddress.bytes, a.2]; decide
  | other type body htype hlen => exact hlen

theorem WireOption.length_bytes (o : WireOption) : o.bytes.length = 3 + o.body.length := by
  rw [bytes, length_append, length_beBytes, length_cons]
  omega

/-! ## The loop over the options -/

section Options

variable {payload : SegInput} {pre rest : Bytes}

section

variable (o : WireOption) (h : payload.content = pre ++ (o.bytes ++ rest))
include h

theorem lengthAt_bytes : lengthAt payload.content pre.length = o.body.length := by
  have hlt := o.length_body_lt
  rw [lengthAt, h, subspan_append_of_le (le_refl _), Nat.sub_self, WireOption.bytes,
    append_assoc, subspan_append_of_fits (by rw [length_beBytes]), subspan, drop_zero,
    take_of_length_le (by rw [length_beBytes]), beNat_beBytes, mod_eq_of_lt (by omega)]

theorem typeAt_bytes : typeAt payload.content pre.length = o.type.toNat := by
  have htype : payload.content[pre.length + 2]? = some o.type := by
    rw [h, getElem?_append_right (Nat.le_add_right _ _), Nat.add_sub_cancel_left, WireOption.bytes]
    rfl
  rw [typeAt, htype]
  rfl

/-- **An option is read back** from as much of the region as is looked at. -/
theorem endpoint_bytes {optEnd : ℕ} (hend : pre.length + o.bytes.length ≤ optEnd) :
    (sdDecodeEndpoint (subspan payload.content pre.length
      (min kSdEndpointProbe (optEnd - pre.length))) o.type.toNat).2 = o.reported := by
  cases o with
  | endpoint e =>
    have hbytes := (WireOption.endpoint e).length_bytes
    have hbody : e.body.length ≤ 21 := by
      rw [e.length_body]
      cases e.address with
      | v4 a => rw [IpAddress.bytes, a.2]; decide
      | v6 a => rw [IpAddress.bytes, a.2]
    rw [WireOption.body] at hbytes
    obtain ⟨l₀, l₁, hlen⟩ : ∃ l₀ l₁, beBytes 2 e.body.length = [l₀, l₁] := ⟨_, _, rfl⟩
    have hob : subspan payload.content pre.length (min kSdEndpointProbe (optEnd - pre.length))
        = l₀ :: l₁ :: e.type :: (e.body ++ rest.take (min kSdEndpointProbe
          (optEnd - pre.length) - (WireOption.endpoint e).bytes.length)) := by
      rw [h, subspan_append_of_le (le_refl _), Nat.sub_self, subspan, drop_zero,
        take_append, take_of_length_le (by rw [kSdEndpointProbe]; omega)]
      show (beBytes 2 e.body.length ++ _) ++ _ = _
      rw [hlen]
      rfl
    rw [hob]
    exact congrArg Prod.snd (sdDecodeEndpoint_endpoint e l₀ l₁ _)
  | other type body htype hlen =>
    obtain ⟨h4, h6⟩ := Bool.or_eq_false_iff.1 htype
    rw [WireOption.type, sdDecodeEndpoint, h4, h6]
    rfl

end

/-- The options of the region, from the `oi`-th on. -/
theorem sdOptions_bytes (os : List WireOption) {optEnd oi : ℕ}
    (h : payload.content = pre ++ (os.flatMap WireOption.bytes ++ rest))
    (hend : optEnd = pre.length + (os.flatMap WireOption.bytes).length) :
    (sdOptions payload optEnd pre.length oi).map SdOption.call
      = os.mapIdx fun i o => .option ((oi + i) % 256) o.body.length o.type.toNat o.reported := by
  have hle : optEnd ≤ payload.content.length := by rw [h, length_append, length_append]; omega
  induction os generalizing pre oi with
  | nil =>
    rw [sdOptions_eq hle, if_neg (by rw [hend, flatMap_nil, length_nil]; omega)]
    rfl
  | cons o os ih =>
    rw [flatMap_cons] at h hend
    rw [append_assoc] at h
    rw [length_append] at hend
    have hbytes := o.length_bytes
    have hnext : payload.content
        = (pre ++ o.bytes) ++ (os.flatMap WireOption.bytes ++ rest) := by
      rw [h, append_assoc]
    have ih := @ih (pre ++ o.bytes) (oi + 1) hnext
      (by rw [length_append, hend, add_assoc])
    rw [length_append, hbytes, ← add_assoc] at ih
    rw [sdOptions_eq hle, lengthAt_bytes o h, typeAt_bytes o h, if_pos (by omega),
      endpoint_bytes o h (by omega), map_cons, ih, mapIdx_cons]
    congr 1
    refine congrArg (fun f => mapIdx f os) (funext fun i => ?_)
    rw [add_right_comm, add_assoc]

end Options

/-! ## Messages -/

/-- A Service Discovery message behind its SOME/IP header. -/
structure SdMessage where
  flags : UInt8
  reserved : {b : Bytes // b.length = 3}
  entries : List SomeipSdEntry
  options : List WireOption
  valid : ∀ e ∈ entries, Valid e
  entries_le : entries.length ≤ 256
  options_le : options.length ≤ 256

namespace SdMessage

def entriesBytes (m : SdMessage) : Bytes := m.entries.flatMap encode

def optionsBytes (m : SdMessage) : Bytes := m.options.flatMap WireOption.bytes

/-- The payload on the wire. -/
def bytes (m : SdMessage) : Bytes :=
  (m.flags :: m.reserved.1) ++ (beBytes 4 m.entriesBytes.length ++ (m.entriesBytes
    ++ (beBytes 4 m.optionsBytes.length ++ m.optionsBytes)))

/-- What is to be reported of it. -/
def calls (m : SdMessage) : List SdCall :=
  m.entries.mapIdx (fun i e => .entry i e)
    ++ m.options.mapIdx fun i o => .option i o.body.length o.type.toNat o.reported

variable (m : SdMessage)

theorem length_encode (e : SomeipSdEntry) : (encode e).length = 16 := length_fieldBytes 16 e.fields

theorem length_entriesBytes : m.entriesBytes.length = m.entries.length * 16 :=
  length_flatMap_const length_encode _

theorem length_options_le (os : List WireOption) :
    (os.flatMap WireOption.bytes).length ≤ os.length * (2 ^ 16 + 2) := by
  induction os with
  | nil => exact zero_le _
  | cons o os ih =>
    have hbody := o.length_body_lt
    rw [flatMap_cons, length_append, o.length_bytes, length_cons]
    omega

theorem length_optionsBytes_lt : m.optionsBytes.length < 2 ^ 32 := by
  have hle := length_options_le m.options
  have hopts := m.options_le
  rw [optionsBytes]
  omega

end SdMessage

/-- A loop over the indices of a list that reports each element. -/
theorem filterMap_range {α β : Type} {l : List α} {f : ℕ → Option β} {g : ℕ → α → β}
    (h : ∀ i a, l[i]? = some a → f i = some (g i a)) :
    (range l.length).filterMap f = l.mapIdx g := by
  induction l generalizing f g with
  | nil => rfl
  | cons a l ih =>
    rw [length_cons, range_succ_eq_map, filterMap_cons, h 0 a rfl, filterMap_map, mapIdx_cons]
    exact congrArg (g 0 a :: ·) (ih fun i b hb => h (i + 1) b hb)

section Message

variable {payload : SegInput} (m : SdMessage)

theorem sdEntries_bytes (h : payload.content = m.bytes) :
    sdEntries payload m.entries.length = m.entries.mapIdx fun i e => .entry i e := by
  refine filterMap_range fun i e he => ?_
  have hi : i < m.entries.length := (List.getElem?_eq_some_iff.1 he).1
  have hle := m.entries_le
  have hlen := m.length_entriesBytes
  have hfront : (m.flags :: m.reserved.1 ++ beBytes 4 m.entriesBytes.length).length = 8 := by
    rw [length_append, length_cons, m.reserved.2, length_beBytes]
  have hcontent : payload.content = (m.flags :: m.reserved.1 ++ beBytes 4 m.entriesBytes.length)
      ++ (m.entriesBytes ++ (beBytes 4 m.optionsBytes.length ++ m.optionsBytes)) := by
    rw [h, SdMessage.bytes, ← append_assoc]
  have hentry : subspan payload.content (8 + i * 16) 16 = encode e := by
    rw [hcontent, subspan_append_of_le (by omega), hfront, Nat.add_sub_cancel_left,
      subspan_append_of_fits (by omega)]
    exact subspan_flatMap SdMessage.length_encode he
  have hsize : 8 + i * 16 + 16 ≤ payload.content.length := by
    rw [hcontent, length_append, hfront, length_append]
    omega
  obtain ⟨rest, hread⟩ := @windowed_advance payload (8 + i * 16) 16 SomeipSdEntry
    Described.decode hsize
  rw [hentry, Encoded.decode_encode e (m.valid e (mem_of_getElem? he))] at hread
  have hstrct : strctSeg SomeipSdEntry
      (payload.advance (kSomeipSdPreambleLen + i * kSomeipSdEntrySize)) = .done e rest := hread
  rw [hstrct, mod_eq_of_lt (by omega)]

theorem SdMessage.length_bytes :
    m.bytes.length = 12 + m.entriesBytes.length + m.optionsBytes.length := by
  rw [bytes, length_append, length_cons, m.reserved.2, length_append,
    length_beBytes, length_append, length_append, length_beBytes]
  omega

theorem entriesLen_bytes (h : payload.content = m.bytes) :
    beNat (subspan payload.content 4 4) = m.entriesBytes.length := by
  have hfront : (m.flags :: m.reserved.1).length = 4 := by rw [length_cons, m.reserved.2]
  have hle := m.entries_le
  rw [h, SdMessage.bytes, subspan_append_of_le (by omega), hfront,
    subspan_append_of_fits (by rw [length_beBytes]), subspan, drop_zero,
    take_of_length_le (by rw [length_beBytes]), beNat_beBytes, m.length_entriesBytes,
    mod_eq_of_lt (by omega)]

theorem sdOptionRegion_bytes (h : payload.content = m.bytes) :
    (sdOptionRegion payload m.entriesBytes.length).map SdOption.call
      = m.options.mapIdx fun i o => .option i o.body.length o.type.toNat o.reported := by
  have hlen := m.length_bytes
  have hsize : payload.size = m.bytes.length := by rw [payload.size_eq, h]
  have hlt := m.length_optionsBytes_lt
  have hfront : (m.flags :: m.reserved.1 ++ (beBytes 4 m.entriesBytes.length
      ++ m.entriesBytes)).length = 8 + m.entriesBytes.length := by
    rw [length_append, length_cons, m.reserved.2, length_append, length_beBytes]
    omega
  have hcontent : payload.content = (m.flags :: m.reserved.1
      ++ (beBytes 4 m.entriesBytes.length ++ m.entriesBytes))
        ++ (beBytes 4 m.optionsBytes.length ++ m.optionsBytes) := by
    rw [h, SdMessage.bytes, append_assoc, append_assoc]
  have hoptionsLen : beNat (subspan payload.content (8 + m.entriesBytes.length) 4)
      = m.optionsBytes.length := by
    rw [hcontent, subspan_append_of_le (by omega), hfront, Nat.sub_self,
      subspan_append_of_fits (by rw [length_beBytes]), subspan, drop_zero,
      take_of_length_le (by rw [length_beBytes]), beNat_beBytes, mod_eq_of_lt (by omega)]
  obtain ⟨rest, hread⟩ := @segBe32_advance payload (8 + m.entriesBytes.length)
    (by rw [h]; omega)
  rw [hoptionsLen] at hread
  have hpre : (m.flags :: m.reserved.1 ++ (beBytes 4 m.entriesBytes.length ++ m.entriesBytes)
      ++ beBytes 4 m.optionsBytes.length).length = 8 + m.entriesBytes.length + 4 := by
    rw [length_append, hfront, length_beBytes]
  have hloop := @sdOptions_bytes payload (m.flags :: m.reserved.1
    ++ (beBytes 4 m.entriesBytes.length ++ m.entriesBytes) ++ beBytes 4 m.optionsBytes.length) []
    m.options (8 + m.entriesBytes.length + 4 + m.optionsBytes.length) 0
    (by rw [hcontent, append_nil, ← append_assoc]; rfl) (by rw [hpre]; rfl)
  rw [hpre] at hloop
  rw [sdOptionRegion, kSomeipSdPreambleLen, if_neg (by omega), hread]
  dsimp only
  rw [if_neg (by omega), hloop]
  refine mapIdx_eq_mapIdx_iff.2 fun i hi => ?_
  have hle := m.options_le
  rw [zero_add, mod_eq_of_lt (by omega)]

/-- **Service Discovery is decoded as it was written**, in whatever parts
the payload lies: every entry and every option once, in order, with its
index, and an endpoint option with its address, protocol and port. -/
theorem sd_faithful (m : SdMessage) (payload : SegInput) (h : payload.content = m.bytes) :
    forEachSdChild ⟨kSomeipSdServiceId, kSomeipSdMethodId⟩ payload = m.calls := by
  have hlen := m.length_bytes
  have hsize : payload.size = m.bytes.length := by rw [payload.size_eq, h]
  obtain ⟨rest, hread⟩ := @segBe32_advance payload 4 (by rw [h]; omega)
  rw [entriesLen_bytes m h] at hread
  have hcount : (8 + m.entriesBytes.length - 8) / 16 = m.entries.length := by
    rw [m.length_entriesBytes]
    omega
  rw [forEachSdChild, if_neg (by simp), kSomeipSdPreambleLen, kSomeipSdEntrySize,
    if_neg (by omega), hread]
  dsimp only
  rw [if_neg (by omega), hcount, sdEntries_bytes m h, sdOptionRegion_bytes m h, SdMessage.calls]

end Message

/-- An offer of service 0x1234, and where it is to be found. -/
def offer : SomeipSdEntry := ⟨1, 0, 0, 1, 0, 0x1234, 1, 1, 3, 0⟩

theorem valid_offer : ∀ e ∈ [offer], Valid e := by
  intro e he
  rw [mem_singleton.1 he]
  show FieldsFit offer.fields
  decide

def offerMessage : SdMessage where
  flags := 0xC0
  reserved := ⟨[0, 0, 0], rfl⟩
  entries := [offer]
  options := [.endpoint ⟨.unicast, .v4 ⟨[192, 168, 0, 1], rfl⟩, 0, 0, 17, 30509⟩]
  valid := valid_offer
  entries_le := Nat.le_of_ble_eq_true rfl
  options_le := Nat.le_of_ble_eq_true rfl

theorem sd_faithful_offer :
    (SegInput.ofParts [offerMessage.bytes.take 34, offerMessage.bytes.drop 34]).content
        = offerMessage.bytes
      ∧ forEachSdChild ⟨kSomeipSdServiceId, kSomeipSdMethodId⟩
          (.ofParts [offerMessage.bytes.take 34, offerMessage.bytes.drop 34])
        = [.entry 0 offer, .option 0 9 4
          ⟨[192, 168, 0, 1, 0, 0, 0, 0, 0, 0, 0, 0, 0, 0, 0, 0], 17, 30509⟩] := by
  have hcontent : (SegInput.ofParts [offerMessage.bytes.take 34,
      offerMessage.bytes.drop 34]).content = offerMessage.bytes := by
    show [offerMessage.bytes.take 34, offerMessage.bytes.drop 34].flatten = _
    rw [flatten_cons, flatten_singleton, take_append_drop]
  exact ⟨hcontent, sd_faithful offerMessage _ hcontent⟩

end Nanom.Someip
