import Nanom.Segmented.Simulation
import Nanom.Wire.Encode
/-!
# SOME/IP Service Discovery

`for_each_sd_child` of `nanom_shark/someip.hpp`: the entries and options of a
Service Discovery message, over a payload that may lie in several parts. Every
read is of the payload's bytes (`windowed_advance`, `sdOptions_eq`); the loop over
the options goes on behind each option's declared length.

An endpoint is decoded from a copy of the option's first bytes, 24 of them or as
many as the region of the options has left.
-/

namespace Nanom.Someip

open Wire (Described Encoded wireSize Valid encode)
open Segmented (SegInput SegResult)
open Nom (Outcome)

/-! ## Structs -/

/-- The fields of a SOME/IP header that say what message it is. -/
structure SomeipHeader where
  serviceId : ℕ
  methodId : ℕ
deriving DecidableEq, Repr

/-- A Service Discovery entry. -/
structure SomeipSdEntry where
  type : ℕ
  index1stOpts : ℕ
  index2ndOpts : ℕ
  numOpt1 : ℕ
  numOpt2 : ℕ
  serviceId : ℕ
  instanceId : ℕ
  majorVersion : ℕ
  ttl : ℕ
  minorVersion : ℕ
deriving DecidableEq, Repr

def SomeipSdEntry.fields (v : SomeipSdEntry) : List (ℕ × ℕ) :=
  [(8, v.type), (8, v.index1stOpts), (8, v.index2ndOpts), (4, v.numOpt1), (4, v.numOpt2),
    (16, v.serviceId), (16, v.instanceId), (8, v.majorVersion), (24, v.ttl), (32, v.minorVersion)]

instance : Described SomeipSdEntry where
  wireSize := 16
  decode b :=
    { type := bitsAt b 0 8
      index1stOpts := bitsAt b 8 8
      index2ndOpts := bitsAt b 16 8
      numOpt1 := bitsAt b 24 4
      numOpt2 := bitsAt b 28 4
      serviceId := bitsAt b 32 16
      instanceId := bitsAt b 48 16
      majorVersion := bitsAt b 64 8
      ttl := bitsAt b 72 24
      minorVersion := bitsAt b 96 32 }

instance : Encoded SomeipSdEntry := .ofFields SomeipSdEntry.fields (fun _ => rfl) fun _ _ h =>
  (SomeipSdEntry.mk.injEq ..).mpr ⟨h 0 rfl, h 1 rfl, h 2 rfl, h 3 rfl, h 4 rfl, h 5 rfl, h 6 rfl,
    h 7 rfl, h 8 rfl, h 9 rfl⟩

def kSomeipSdServiceId : ℕ := 0xFFFF
def kSomeipSdMethodId : ℕ := 0x8100
def kSomeipSdEntrySize : ℕ := 16
def kSomeipSdPreambleLen : ℕ := 8
def kSdEndpointProbe : ℕ := 24

def kSdOptIpv4Endpoint : ℕ := 0x04
def kSdOptIpv6Endpoint : ℕ := 0x06
def kSdOptIpv4Multicast : ℕ := 0x14
def kSdOptIpv6Multicast : ℕ := 0x16
def kSdOptIpv4SdEndpoint : ℕ := 0x24
def kSdOptIpv6SdEndpoint : ℕ := 0x26

/-! ## Endpoints -/

/-- What is reported of an endpoint; zero where there is none. -/
structure Endpoint where
  address : Bytes := List.replicate 16 0
  l4proto : ℕ := 0
  port : ℕ := 0
deriving DecidableEq, Repr

def isV4 (type : ℕ) : Bool :=
  type == kSdOptIpv4Endpoint || type == kSdOptIpv4Multicast || type == kSdOptIpv4SdEndpoint

def isV6 (type : ℕ) : Bool :=
  type == kSdOptIpv6Endpoint || type == kSdOptIpv6Multicast || type == kSdOptIpv6SdEndpoint

def addressSize (type : ℕ) : ℕ := if isV4 type then 4 else 16

/-- `sd_decode_endpoint` over the bytes from an option's start to the end
it is given. -/
def sdDecodeEndpoint (opt : Bytes) (type : ℕ) : Bool × Endpoint :=
  if !isV4 type && !isV6 type then (false, {})
  else
    let a := 4
    let proto := a + addressSize type + 1
    let prt := proto + 1
    if prt + 2 > opt.length then (true, {})
    else (true,
      { address := subspan opt a (addressSize type) ++ List.replicate (16 - addressSize type) 0
        l4proto := (opt[proto]?.getD 0).toNat
        port := beNat (subspan opt prt 2) })

/-! ## The walk -/

/-- A call the walk makes. -/
inductive SdCall
  | entry (index : ℕ) (e : SomeipSdEntry)
  | option (index length type : ℕ) (endpoint : Endpoint)
deriving DecidableEq, Repr

/-- An option that is reported, and where it starts. -/
structure SdOption where
  start : ℕ
  index : ℕ
  length : ℕ
  type : ℕ
  endpoint : Endpoint
deriving DecidableEq, Repr

def SdOption.call (o : SdOption) : SdCall := .option o.index o.length o.type o.endpoint

/-- `strct_seg` of a header. -/
def strctSeg (T : Type) [Described T] : SegInput → SegResult T :=
  Segmented.windowed (wireSize T) Described.decode

/-- The loop over the entries. -/
def sdEntries (payload : SegInput) (nEntries : ℕ) : List SdCall :=
  (List.range nEntries).filterMap fun i =>
    match strctSeg SomeipSdEntry
        (payload.advance (kSomeipSdPreambleLen + i * kSomeipSdEntrySize)) with
    | .done e _ => some (.entry (i % 256) e)
    | _ => none

/-- The loop over the options: the one at `opt`, of the region up to
`optEnd`, is the `oi`-th. -/
def sdOptions (payload : SegInput) (optEnd opt oi : ℕ) : List SdOption :=
  if _h : opt + 3 ≤ optEnd then
    let probe := min kSdEndpointProbe (optEnd - opt)
    match (payload.advance opt).gatherInto probe with
    | none => []
    | some ob =>
      let len := beNat (subspan ob 0 2)
      let type := (ob[2]?.getD 0).toNat
      let next := opt + 3 + len
      if next > optEnd then []
      else ⟨opt, oi % 256, len, type, (sdDecodeEndpoint ob type).2⟩
        :: sdOptions payload optEnd next (oi + 1)
  else []
termination_by optEnd - opt

/-- The options behind so many bytes of entries, as declared. -/
def sdOptionRegion (payload : SegInput) (entriesLen : ℕ) : List SdOption :=
  let optLenAt := kSomeipSdPreambleLen + entriesLen
  if optLenAt + 4 > payload.size then []
  else
    match Segmented.segBe32 (payload.advance optLenAt) with
    | .done optionsLen _ =>
      let opt := optLenAt + 4
      let optEnd := if opt + optionsLen > payload.size then payload.size else opt + optionsLen
      sdOptions payload optEnd opt 0
    | _ => []

def forEachSdChild (hdr : SomeipHeader) (payload : SegInput) : List SdCall :=
  if hdr.serviceId ≠ kSomeipSdServiceId ∨ hdr.methodId ≠ kSomeipSdMethodId then []
  else if payload.size < kSomeipSdPreambleLen then []
  else
    match Segmented.segBe32 (payload.advance 4) with
    | .done entriesLen _ =>
      let entriesEnd := if kSomeipSdPreambleLen + entriesLen > payload.size then payload.size
        else kSomeipSdPreambleLen + entriesLen
      sdEntries payload ((entriesEnd - kSomeipSdPreambleLen) / kSomeipSdEntrySize)
        ++ (sdOptionRegion payload entriesLen).map SdOption.call
    | _ => []

/-! ## Reads are of the bytes -/

variable {payload : SegInput} {k n : ℕ}

theorem windowed_advance {α : Type} {f : Bytes → α} (h : k + n ≤ payload.content.length) :
    ∃ rest, Segmented.windowed n f (payload.advance k)
      = .done (f (subspan payload.content k n)) rest := by
  have hsize := payload.size_eq
  have hcontent := SegInput.content_advance (show k ≤ payload.size by omega)
  have hgather := @SegInput.gather_eq (payload.advance k) n
  rw [SegInput.size_eq, hcontent, List.length_drop, if_neg (by omega),
    Option.map_eq_some_iff] at hgather
  obtain ⟨w, hw, hdata⟩ := hgather
  rw [Segmented.windowed, hw, subspan, ← hdata]
  exact ⟨_, rfl⟩

theorem segBe32_advance (h : k + 4 ≤ payload.content.length) :
    ∃ rest, Segmented.segBe32 (payload.advance k)
      = .done (beNat (subspan payload.content k 4)) rest := windowed_advance h

theorem gatherInto_advance (h : k + n ≤ payload.content.length) :
    (payload.advance k).gatherInto n = some (subspan payload.content k n) := by
  have hsize := payload.size_eq
  rw [SegInput.gatherInto_eq, SegInput.size_eq,
    SegInput.content_advance (show k ≤ payload.size by omega), List.length_drop,
    if_neg (by omega), subspan]

/-- The length an option at an offset declares. -/
def lengthAt (b : Bytes) (opt : ℕ) : ℕ := beNat (subspan b opt 2)

/-- Its type. -/
def typeAt (b : Bytes) (opt : ℕ) : ℕ := (b[opt + 2]?.getD 0).toNat

/-- **One round of the loop over the options.** -/
theorem sdOptions_eq {optEnd opt oi : ℕ} (hend : optEnd ≤ payload.content.length) :
    sdOptions payload optEnd opt oi
      = if opt + 3 + lengthAt payload.content opt ≤ optEnd then
          ⟨opt, oi % 256, lengthAt payload.content opt, typeAt payload.content opt,
            (sdDecodeEndpoint (subspan payload.content opt (min kSdEndpointProbe (optEnd - opt)))
              (typeAt payload.content opt)).2⟩
            :: sdOptions payload optEnd (opt + 3 + lengthAt payload.content opt) (oi + 1)
        else [] := by
  rw [sdOptions]
  by_cases hopt : opt + 3 ≤ optEnd
  · have hprobe : 3 ≤ min kSdEndpointProbe (optEnd - opt) := by rw [kSdEndpointProbe]; omega
    have hfits : opt + min kSdEndpointProbe (optEnd - opt) ≤ payload.content.length := by omega
    have hlen : beNat (subspan (subspan payload.content opt
        (min kSdEndpointProbe (optEnd - opt))) 0 2) = lengthAt payload.content opt := by
      rw [subspan_subspan (by omega), add_zero, lengthAt]
    have htype : ((subspan payload.content opt
        (min kSdEndpointProbe (optEnd - opt)))[2]?.getD 0).toNat
          = typeAt payload.content opt := by
      rw [getElem?_subspan, if_pos (by omega), typeAt]
    rw [dif_pos hopt]
    dsimp only
    rw [gatherInto_advance hfits]
    dsimp only
    rw [hlen, htype]
    by_cases hnext : opt + 3 + lengthAt payload.content opt ≤ optEnd
    · rw [if_neg (by omega), if_pos hnext]
    · rw [if_pos (by omega), if_neg hnext]
  · rw [dif_neg hopt, if_neg (by omega)]

end Nanom.Someip
