import Nanom.Decode.Visitor
import Nanom.Wire.Pcap
/-!
# The streaming session

`nanom_shark/streaming.hpp`: blocks are fed one at a time, and every
packet block reports which of the caller's buffers are free. The session
counts, per buffer, the fragment spans that point into it (`pins`); a
buffer is released when its last pin goes.
-/

namespace Nanom.Decode

open Wire Defrag

/-- What one fed block did to the caller's buffers. -/
structure FeedResult where
  ok : Bool := false
  pinned : Bool := false
  released : List Token := []
deriving DecidableEq, Repr

/-- `StreamingDecodeSession`, without the options and the tables it puts
rows out to. -/
structure Session where
  defrag : DefragState
  /-- Link types by interface. -/
  ifaceLink : List ℕ := []
  pid : ℕ := 0
  sectionLittle : Bool := true
  /-- A tracked token has been fed. -/
  tracking : Bool := false
  /-- Live pins of each tracked token. -/
  pins : Assoc Token ℕ := .empty

/-- A block to feed. -/
inductive Call
  | shb (b : Block)
  | idb (b : Block) (little : Bool) (declaredLength : ℕ)
  | epb (b : Block) (little : Bool) (token : Token) (kind : Kind) (fileOffset : ℕ)

/-- The call without its token. -/
def Call.untag : Call → Call
  | .epb b little _ kind fileOffset => .epb b little kNoToken kind fileOffset
  | .shb b => .shb b
  | .idb b little declaredLength => .idb b little declaredLength

/-! ## Pins -/

/-- `unpin`: drop one pin on a token; the last one to go frees it. -/
def unpin (pins : Assoc Token ℕ) (t : Token) : Assoc Token ℕ × List Token :=
  if t = kNoToken then (pins, [])
  else
    match pins.find? t with
    | none => (pins, [])
    | some n =>
      let left := u32 (n + (2 ^ 32 - 1))
      if left = 0 then (pins.erase t, [t]) else (pins.modify t fun _ => left, [])

/-- Drop a pin on each of some tokens, in order. -/
def unpinAll (pins : Assoc Token ℕ) : List Token → Assoc Token ℕ × List Token
  | [] => (pins, [])
  | t :: ts =>
    let (pins, freed) := unpin pins t
    let (pins, more) := unpinAll pins ts
    (pins, freed ++ more)

/-- `pins_[token] += n`. -/
def addPins (pins : Assoc Token ℕ) (t : Token) (n : ℕ) : Assoc Token ℕ :=
  (pins.emplace t 0).modify t fun m => u32 (m + n)

def releaseOwnToken (released : List Token) (t : Token) : List Token :=
  if t = kNoToken then released else if t ∈ released then released else released ++ [t]

/-! ## One packet -/

/-- What the walk of a packet leaves. -/
structure Walked where
  defrag : DefragState
  pinsAdded : ℕ := 0
  retired : List Token := []
  log : List Output := []

/-- What an eviction puts out: completed datagrams have their row. -/
def evictLog (ipVersion : ℕ) (evicted : List ReassemblySummary) : List Output :=
  (evicted.filter fun s => decide (s.completionStatus.toNat ≠ 0)).map fun s =>
    .push (.datagram (toDatagramRow s ipVersion))

namespace Session

variable (σ : ComparisonSort) (opts : DecodeOptions) (s : Session)

/-- A new session. -/
def init (opts : DecodeOptions) : Session where
  defrag := ⟨.init opts.ipv4Defrag, .init opts.ipv6Defrag⟩

def feedShb (b : Block) : Session :=
  { s with ifaceLink := [], sectionLittle := (shbByteOrder b).getD true }

def feedIdb (b : Block) (little : Bool) (declaredLength : ℕ) : Session :=
  let length := if declaredLength ≠ 0 then declaredLength else u32 b.bytes.length
  match parseIdb b length little with
  | some idb => { s with ifaceLink := s.ifaceLink ++ [idb.linkType] }
  | none => s

/-- The link type of a packet's interface. -/
def linkType (e : EpbView) : ℕ := (s.ifaceLink[e.interfaceId]?).getD 0

/-- The packet of a block, where it is decoded at all. -/
def packet (b : Block) (e : EpbView) : Option Bytes :=
  if opts.decodeL2l3 && decide (e.payloadFileOffset + e.caplen ≤ b.bytes.length)
  then some (subspan b.bytes e.payloadFileOffset e.caplen)
  else none

/-- The visitor a packet's walk starts with. -/
def visitor (e : EpbView) (pkt : Bytes) : Visitor where
  ctx := { packetId := s.pid, linkType := s.linkType e, pkt := pkt }
  defrag := s.defrag

/-- The walk of a packet. -/
def walkPacket (token : Token) (e : EpbView) (pkt : Bytes) : Walked :=
  let env : VisitorEnv := ⟨token, s.tracking || decide (token ≠ kNoToken), opts.decodeDefrag⟩
  let v := (s.visitor e pkt).walk σ env (walkPacketExt (s.linkType e) pkt).1
  ⟨v.defrag, v.pinCount, v.retiredTokens, v.log⟩

/-- The walk of a block's packet, if it is decoded. -/
def walked (b : Block) (token : Token) (e : EpbView) : Walked :=
  match packet opts b e with
  | some pkt => s.walkPacket σ opts token e pkt
  | none => { defrag := s.defrag }

/-- The pins after a packet: those evicted go first, then its own are
added, then those retired go. -/
def settle (token : Token) (pinsAdded : ℕ) (evicted retired : List Token) :
    Assoc Token ℕ × List Token :=
  let (pins, freed) := unpinAll s.pins evicted
  let pins := if pinsAdded ≠ 0 ∧ token ≠ kNoToken then addPins pins token pinsAdded else pins
  let (pins, more) := unpinAll pins retired
  (pins, freed ++ more)

def feedEpb (b : Block) (little : Bool) (token : Token) (kind : Kind) (fileOffset : ℕ) :
    Session × FeedResult × List Output :=
  let tracking := s.tracking || decide (token ≠ kNoToken)
  match parseEpb b (u32 b.bytes.length) kind little with
  | none => ({ s with tracking := tracking }, { released := releaseOwnToken [] token }, [])
  | some e =>
    let row : PacketRow := ⟨s.pid, u64 (fileOffset + e.payloadFileOffset), e.caplen, e.origlen⟩
    let w := s.walked σ opts b token e
    let ipv4 := w.defrag.ipv4.evictStale s.pid
    let ipv6 := w.defrag.ipv6.evictStale s.pid
    let evicted := (ipv4.2 ++ ipv6.2).flatMap ReassemblySummary.tokens
    let (pins, freed) := s.settle token w.pinsAdded evicted w.retired
    let pinned := decide (token ≠ kNoToken) && (pins.find? token).isSome
    ({ s with
        defrag := ⟨ipv4.1, ipv6.1⟩
        pid := u64 (s.pid + 1)
        tracking := tracking
        pins := pins },
      { ok := true
        pinned := pinned
        released := if pinned then freed else releaseOwnToken freed token },
      .push (.packets row) :: w.log ++ evictLog 4 ipv4.2 ++ evictLog 6 ipv6.2)

/-- The session after one call, with what the call returned and put out. -/
def feed : Call → Session × FeedResult × List Output
  | .shb b => (s.feedShb b, {}, [])
  | .idb b little declaredLength => (s.feedIdb b little declaredLength, {}, [])
  | .epb b little token kind fileOffset => s.feedEpb σ opts b little token kind fileOffset

/-- The session after one call. -/
def step (c : Call) : Session := (s.feed σ opts c).1

/-- What a run puts out, call by call. -/
def runLog (s : Session) : List Call → List Output
  | [] => []
  | c :: cs => (s.feed σ opts c).2.2 ++ runLog (s.step σ opts c) cs

end Session

end Nanom.Decode
