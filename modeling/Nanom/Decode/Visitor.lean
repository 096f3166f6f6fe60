import Nanom.Decode.Output
/-!
# Decoding one packet

`nanom_shark/packet_visitor.hpp`: the visitor of the packet walk. It
pushes the rows of the layers, feeds fragments to the reassembly tables
and, where one completes a datagram, re-enters the L4 dispatch over the
reassembled views. The IPv4 and the IPv6 path end in one tail, generic in
the table's key (`feedTable`).
-/

namespace Nanom.Decode

open Wire Defrag

/-- What a visitor is set up with. -/
structure VisitorEnv where
  /-- The buffer the packet lies in. -/
  token : Token := kNoToken
  /-- Completed datagrams are retired. -/
  retires : Bool := false
  /-- Fragments are reassembled. -/
  defrags : Bool := true
deriving DecidableEq, Repr

/-! ## Feeding a table -/

/-- What a fragment did to its table and to the pass. -/
structure Feeding (Key : Type) [DecidableEq Key] where
  table : ReassemblyTable Key
  /-- The span was stored. -/
  retained : Bool
  /-- The tokens a retirement returned. -/
  freed : List Token
  log : List Output

section Feed

variable {Key : Type} [DecidableEq Key]

/-- The row of a completed datagram. -/
def completedRow (c : DecodeCtx) (table : ReassemblyTable Key) (result : Result)
    (ipVersion : ℕ) : DatagramRow where
  datagramId := result.datagramId
  ipVersion := ipVersion
  totalLength := u32 (result.parts.map List.length).sum
  fragmentCount := ((table.find result.datagramId).map Reassembly.fragmentCount).getD 0
  firstPacketId := ((table.find result.datagramId).map Reassembly.firstPacketId).getD c.packetId
  lastPacketId := c.packetId
  completionStatus := 0
  gapBytes := 0

/-- The context a reassembled datagram is dispatched with. -/
def reassembledCtx (c : DecodeCtx) (result : Result) (ipVersion ipProto : ℕ) : DecodeCtx :=
  { c with
    datagramId := result.datagramId
    isReassembled := true
    ipVersion := ipVersion
    ipProto := ipProto
    pkt := [] }

/-- `complete_datagram`: the row, the L4 dispatch over the views, and then
the retirement. -/
def completeDatagram (env : VisitorEnv) (c : DecodeCtx) (table : ReassemblyTable Key)
    (result : Result) (ipVersion ipProto : ℕ) : ReassemblyTable Key × List Token × List Output :=
  let log := .push (.datagram (completedRow c table result ipVersion)) ::
    dispatchL4 (reassembledCtx c result ipVersion ipProto) (.ofParts result.parts)
  if env.retires then
    ((table.retire result.datagramId).1, (table.retire result.datagramId).2, log)
  else (table, [], log)

/-- The tail of `on_ipv4` and `on_fragment`: feed the fragment, push its
row, and complete the datagram if it did. -/
def feedTable (σ : ComparisonSort) (env : VisitorEnv) (c : DecodeCtx)
    (table : ReassemblyTable Key) (key : Key) (f : FragmentSpan) (ipVersion ipProto : ℕ)
    (fragRow : ℕ → Row) : Feeding Key :=
  let (fed, result) := table.addFragment σ key f
  let row := .push (fragRow result.datagramId)
  if result.completed then
    let (left, freed, log) := completeDatagram env c fed result ipVersion ipProto
    ⟨left, result.retained, freed, row :: log⟩
  else ⟨fed, result.retained, [], [row]⟩

end Feed

/-! ## The visitor -/

/-- `PacketVisitor`, without what it is set up with. -/
structure Visitor where
  ctx : DecodeCtx
  defrag : DefragState
  /-- The offset of the layer header being visited. -/
  atOffset : ℕ := 0
  isFragment : Bool := false
  ipv6BaseOffset : ℕ := 0
  ipv6PayloadLength : ℕ := 0
  pinCount : ℕ := 0
  retiredTokens : List Token := []
  lastIpv6 : Ipv6 := ⟨0, 0, 0, 0, 0, 0, List.replicate 16 0, List.replicate 16 0⟩
  log : List Output := []

namespace Visitor

variable (σ : ComparisonSort) (env : VisitorEnv) (v : Visitor)

/-- Put out some more. -/
def put (more : List Output) : Visitor := { v with log := v.log ++ more }

/-- Take over what feeding the IPv4 table did. -/
def tookIpv4 (r : Feeding Ipv4Key) : Visitor :=
  { v with
    defrag := { v.defrag with ipv4 := r.table }
    pinCount := if r.retained then u32 (v.pinCount + 1) else v.pinCount
    retiredTokens := v.retiredTokens ++ r.freed
    log := v.log ++ r.log }

/-- Take over what feeding the IPv6 table did. -/
def tookIpv6 (r : Feeding Ipv6Key) : Visitor :=
  { v with
    defrag := { v.defrag with ipv6 := r.table }
    pinCount := if r.retained then u32 (v.pinCount + 1) else v.pinCount
    retiredTokens := v.retiredTokens ++ r.freed
    log := v.log ++ r.log }

/-- `on_l2_done`: the first dispatch point. -/
def onL2Done (ethertype l2End : ℕ) : Visitor :=
  let v := { v with ctx := { v.ctx with ethertype := ethertype, l2End := l2End } }
  if l2End > v.ctx.pkt.length then v
  else v.put [.dispatch .ethPayload v.ctx (.ofParts [v.ctx.pkt.drop l2End])]

/-- The fragment an IPv4 packet carries, and its key. -/
def ipv4Fragment (token : Token) (packetId : ℕ) (ip : Ipv4) (payload : Bytes) : FragmentSpan where
  offsetBytes := ip.fragOffset * 8
  packetId := packetId
  moreFragments := decide (ip.flags % 2 ≠ 0)
  data := payload.take (ip.totalLength - max (ip.ihl * 4) (wireSize Ipv4))
  token := token

def ipv4Key (ip : Ipv4) : Ipv4Key := ⟨ip.src, ip.dst, ip.protocol, ip.identification⟩

/-- The header says the packet is a fragment. -/
def eligible (ip : Ipv4) : Bool := decide (ip.fragOffset ≠ 0) || decide (ip.flags % 2 ≠ 0)

def onIpv4 (ip : Ipv4) : Visitor :=
  let v := v.put [.push (.ipv4 ⟨v.ctx.packetId, 0, false, ip⟩)]
  let v := { v with ctx := { v.ctx with ipVersion := 4 } }
  let payloadOffset := v.atOffset + max (ip.ihl * 4) (wireSize Ipv4)
  if !eligible ip || !env.defrags then v
  else
    let v := { v with isFragment := true }
    if payloadOffset > v.ctx.pkt.length then v
    else
      let f := ipv4Fragment env.token v.ctx.packetId ip (v.ctx.pkt.drop payloadOffset)
      v.tookIpv4 (feedTable σ env v.ctx v.defrag.ipv4 (ipv4Key ip) f 4 ip.protocol fun id =>
        .ipv4Frag ⟨v.ctx.packetId, id, f.offsetBytes % 2 ^ 16, f.moreFragments,
          decide (ip.fragOffset = 0), !f.moreFragments⟩)

def onIpv6 (ip : Ipv6) : Visitor :=
  let v := v.put [.push (.ipv6 ⟨v.ctx.packetId, 0, false, ip⟩)]
  { v with
    ctx := { v.ctx with ipVersion := 6 }
    ipv6BaseOffset := v.atOffset
    ipv6PayloadLength := ip.payloadLength
    lastIpv6 := ip }

/-- The fragment behind an IPv6 Fragment header. -/
def ipv6Fragment (token : Token) (h : Ipv6Fragment) (dataOffset : ℕ) : FragmentSpan where
  offsetBytes := h.offsetFlags / 8 * 8
  packetId := v.ctx.packetId
  moreFragments := decide (h.offsetFlags % 2 ≠ 0)
  data := (v.ctx.pkt.drop dataOffset).take
    (v.ipv6PayloadLength - (dataOffset - v.ipv6BaseOffset - wireSize Ipv6))
  token := token

def onFragment (h : Ipv6Fragment) : Visitor :=
  if !env.defrags then v
  else
    let v := { v with isFragment := true }
    let dataOffset := v.atOffset + 8
    if dataOffset > v.ctx.pkt.length then v
    else
      let f := v.ipv6Fragment env.token h dataOffset
      let key : Ipv6Key := ⟨v.lastIpv6.src, v.lastIpv6.dst, h.identification⟩
      v.tookIpv6 (feedTable σ env v.ctx v.defrag.ipv6 key f 6 h.nextHeader fun id =>
        .ipv6Frag ⟨v.ctx.packetId, id, f.offsetBytes, f.moreFragments,
          decide (h.offsetFlags / 8 = 0), !f.moreFragments⟩)

def onTcp (tcp : Tcp) : Visitor :=
  if v.isFragment then v
  else
    let payloadOffset := v.atOffset + max (tcp.dataOffset * 4) (wireSize Tcp)
    let v := { v with ctx := { v.ctx with l3End := v.atOffset, l4End := payloadOffset } }
    v.put (onTcpLayer v.ctx tcp (.ofParts [v.ctx.pkt.drop payloadOffset]))

/-- The payload a UDP header declares, clamped to what was captured. -/
def udpPayload (udp : Udp) (captured : Bytes) : Bytes := captured.take (udp.length - 8)

def onUdp (udp : Udp) : Visitor :=
  if v.isFragment then v
  else
    let payloadOffset := v.atOffset + wireSize Udp
    let v := { v with ctx := { v.ctx with l3End := v.atOffset, l4End := payloadOffset } }
    v.put (onUdpLayer v.ctx udp (.ofParts [udpPayload udp (v.ctx.pkt.drop payloadOffset)]))

/-- One call of the walk. -/
def visit : WalkEvent → Visitor
  | .offset off => { v with atOffset := off }
  | .eth h => v.put [.push (.eth ⟨v.ctx.packetId, 0, false, h⟩)]
  | .vlan h =>
    let v := v.put [.push (.vlan ⟨v.ctx.packetId, 0, false, h⟩)]
    { v with ctx := { v.ctx with vlanCount := v.ctx.vlanCount + 1 } }
  | .l2Done ethertype l2End => v.onL2Done ethertype l2End
  | .ipv4 h => v.onIpv4 σ env h
  | .ipv6 h => v.onIpv6 h
  | .tcp h => v.onTcp h
  | .udp h => v.onUdp h
  | .fragment h => v.onFragment σ env h
  | .extOpt _ _ | .srh _ | .ah _ | .srhSegment _ _ _ | .ipv6Option _ _ _ => v

/-- The visitor after the walk of a packet. -/
def walk (calls : List WalkEvent) : Visitor := calls.foldl (fun v e => v.visit σ env e) v

end Visitor

end Nanom.Decode
