import Nanom.Defrag.Model
import Nanom.Wire.Segmented
import Nanom.Wire.Walk
/-!
# What a decode pass puts out

The rows of the core tables, and the protocol dispatch
(`nanom_shark/protocol.hpp`). The code that pushes a row or dispatches reads
nothing back, so what it does is a log (`Output`): rows, and dispatches with
their context and input. A decoder is a list of protocols; `render` replays a
log on it, the protocols keeping their own state.

The optional per-packet JSON is left out: no sink is attached.
-/

namespace Nanom.Decode

open Wire Defrag

structure DecodeOptions where
  decodeL2l3 : Bool := true
  decodeDefrag : Bool := true
  ipv4Defrag : Config := {}
  ipv6Defrag : Config := {}
  someipPorts : List ℕ := [30490]
  someipTlvPorts : List ℕ := []
deriving DecidableEq, Repr

/-- Where in the packet a dispatch happens. -/
inductive Layer
  | ethPayload
  | l4Payload
deriving DecidableEq, Repr

/-- `decode_ctx`: what has been decoded at the point of a dispatch. The
options it points to are those of the pass. -/
structure DecodeCtx where
  packetId : ℕ := kNoPacket
  datagramId : ℕ := 0
  isReassembled : Bool := false
  linkType : ℕ := 0
  ethertype : ℕ := 0
  ipVersion : ℕ := 0
  ipProto : ℕ := 0
  srcPort : ℕ := 0
  dstPort : ℕ := 0
  pkt : Bytes := []
  vlanCount : ℕ := 0
  l2End : ℕ := 0
  l3End : ℕ := 0
  l4End : ℕ := 0
deriving DecidableEq, Repr

/-- A header's row: the header and where it came from. -/
structure Node (Body : Type) where
  packetId : ℕ
  datagramId : ℕ
  isReassembled : Bool
  body : Body
deriving DecidableEq, Repr

structure PacketRow where
  packetId : ℕ
  fileOffset : ℕ
  caplen : ℕ
  origlen : ℕ
deriving DecidableEq, Repr

/-- `Ipv4FragMeta` and `Ipv6FragMeta`. -/
structure FragMeta where
  packetId : ℕ
  datagramId : ℕ
  fragOffsetBytes : ℕ
  moreFragments : Bool
  isFirst : Bool
  isLast : Bool
deriving DecidableEq, Repr

/-- A row of one of the core tables. -/
inductive Row
  | packets (r : PacketRow)
  | eth (r : Node Ethernet)
  | vlan (r : Node VlanTag)
  | ipv4 (r : Node Ipv4)
  | ipv6 (r : Node Ipv6)
  | tcp (r : Node Tcp)
  | udp (r : Node Udp)
  | ipv4Frag (r : FragMeta)
  | ipv6Frag (r : FragMeta)
  | datagram (r : DatagramRow)
deriving DecidableEq, Repr

/-- One thing put out. -/
inductive Output
  | push (r : Row)
  | dispatch (l : Layer) (c : DecodeCtx) (payload : SegInput)

/-! ## Decoders -/

/-- The tables of a decoder, as the rows pushed to them, and the state its
protocols keep. -/
structure World (State ProtoRow : Type) where
  states : State
  rows : List (Row ⊕ ProtoRow)

/-- A registered protocol: where and when it fires, and what its parser
does with the bytes it is handed. -/
structure Protocol (State ProtoRow : Type) where
  applies : Layer → Bool
  fires : DecodeOptions → DecodeCtx → Bool
  parse : DecodeOptions → DecodeCtx → SegInput → World State ProtoRow → World State ProtoRow

section Render

variable {State ProtoRow : Type}

/-- `dispatch`: every protocol that applies and matches parses, in order of
registration. -/
def dispatch (decoder : List (Protocol State ProtoRow)) (opts : DecodeOptions) (l : Layer)
    (c : DecodeCtx) (payload : SegInput) (w : World State ProtoRow) : World State ProtoRow :=
  decoder.foldl (fun w p => if p.applies l && p.fires opts c then p.parse opts c payload w else w) w

/-- The tables and states after a log. -/
def render (decoder : List (Protocol State ProtoRow)) (opts : DecodeOptions)
    (w : World State ProtoRow) (log : List Output) : World State ProtoRow :=
  log.foldl (fun w o =>
    match o with
    | .push r => { w with rows := w.rows ++ [Sum.inl r] }
    | .dispatch l c payload => dispatch decoder opts l c payload w) w

end Render

/-! ## L4 -/

def onTcpLayer (c : DecodeCtx) (v : Tcp) (payload : SegInput) : List Output :=
  [.push (.tcp ⟨c.packetId, c.datagramId, c.isReassembled, v⟩),
    .dispatch .l4Payload
      { c with ipProto := kIpProtoTcp, srcPort := v.srcPort, dstPort := v.dstPort } payload]

def onUdpLayer (c : DecodeCtx) (v : Udp) (payload : SegInput) : List Output :=
  [.push (.udp ⟨c.packetId, c.datagramId, c.isReassembled, v⟩),
    .dispatch .l4Payload
      { c with ipProto := kIpProtoUdp, srcPort := v.srcPort, dstPort := v.dstPort } payload]

/-- `dispatch_l4`: the re-entry of a reassembled datagram. -/
def dispatchL4 (c : DecodeCtx) (afterL3 : SegInput) : List Output :=
  if c.ipProto = kIpProtoTcp then
    match strctSeg Tcp afterL3 with
    | some (tcp, rest) => onTcpLayer c tcp rest
    | none => []
  else if c.ipProto = kIpProtoUdp then
    match strctSeg Udp afterL3 with
    | some (udp, rest) => onUdpLayer c udp rest
    | none => []
  else []

end Nanom.Decode
