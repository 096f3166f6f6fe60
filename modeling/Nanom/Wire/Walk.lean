import Nanom.Wire.Headers
/-!
# The packet walk

`walk_packet_ext`: Ethernet, any VLAN tags, IPv4 or IPv6 with its chain of
extension headers, then TCP or UDP. The walk hands each layer to a visitor
whose callbacks return nothing, so it is the list of the calls it makes
(`WalkEvent`) beside its result; a header that does not fit ends it with
the calls made so far.
-/

namespace Nanom.Wire

def kEtherTypeVlan : ℕ := 0x8100
def kEtherTypeQinQ : ℕ := 0x88A8
def kEtherTypeIpv4 : ℕ := 0x0800
def kEtherTypeIpv6 : ℕ := 0x86DD
def kIpProtoTcp : ℕ := 6
def kIpProtoUdp : ℕ := 17
def kLinkTypeEthernet : ℕ := 1

/-- Which options header it is. -/
inductive Ipv6ExtKind
  | hopByHop
  | destOpts
deriving DecidableEq, Repr

/-- A call the walk makes on its visitor. -/
inductive WalkEvent
  /-- The offset of the next layer's header. -/
  | offset (off : ℕ)
  | eth (v : Ethernet)
  | vlan (v : VlanTag)
  | l2Done (innerEthertype l2End : ℕ)
  | ipv4 (v : Ipv4)
  | ipv6 (v : Ipv6)
  | tcp (v : Tcp)
  | udp (v : Udp)
  | extOpt (kind : Ipv6ExtKind) (v : Ipv6ExtOpt)
  | srh (v : Ipv6Srh)
  | fragment (v : Ipv6Fragment)
  | ah (v : Ipv6Ah)
  | srhSegment (srhOrder segmentIndex : ℕ) (address : Bytes)
  | ipv6Option (container optType optLen : ℕ)
deriving DecidableEq, Repr

structure WalkResult where
  l4PayloadOffset : ℕ := 0
  /-- Source and destination port, the key of the layer above. -/
  l4Ports : ℕ := 0
  reachedL4 : Bool := false
deriving DecidableEq, Repr

/-! ## L2 -/

def isVlan (ethertype : ℕ) : Bool := ethertype == kEtherTypeVlan || ethertype == kEtherTypeQinQ

/-- The VLAN tags from an offset on, and the ethertype and offset behind
them; nothing where a tag does not fit. -/
def walkVlan : Bytes → ℕ → ℕ → List WalkEvent × Option (ℕ × ℕ)
  | t₀ :: t₁ :: t₂ :: t₃ :: rest, ethertype, off =>
    if isVlan ethertype then
      let tag : VlanTag := Described.decode [t₀, t₁, t₂, t₃]
      let (calls, inner) := walkVlan rest tag.innerEthertype (off + 4)
      (.offset off :: .vlan tag :: calls, inner)
    else ([], some (ethertype, off))
  | _, ethertype, off => ([], if isVlan ethertype then none else some (ethertype, off))

/-! ## L3 -/

/-- The IPv4 header at `off`; the protocol and offset of the L4 header,
unless this is a fragment other than the first. -/
def walkIpv4 (pkt : Bytes) (off : ℕ) : List WalkEvent × Option (ℕ × ℕ) :=
  match strct Ipv4 (pkt.drop off) with
  | none => ([], none)
  | some (ip, _) =>
    let calls := [.offset off, .ipv4 ip]
    let l3 := max (ip.ihl * 4) (wireSize Ipv4)
    if l3 > (pkt.drop off).length then (calls, none)
    else (calls, if ip.fragOffset = 0 then some (ip.protocol, off + l3) else none)

/-- Names an extension header the walk descends. -/
def isIpv6Ext (nh : ℕ) : Bool := nh == 0 || nh == 43 || nh == 44 || nh == 60 || nh == 51

/-- The options between `i` and `lim`, which lies in the packet: a lone
`0` is Pad1, every other is type, length and value. -/
def ipv6Options (pkt : Bytes) (container lim : ℕ) : ℕ → ℕ → List WalkEvent
  | 0, _ => []
  | fuel + 1, i =>
    if i < lim then
      let t := (pkt[i]?.getD 0).toNat
      if t = 0 then .ipv6Option container 0 0 :: ipv6Options pkt container lim fuel (i + 1)
      else if i + 2 > lim then []
      else
        let len := (pkt[i + 1]?.getD 0).toNat
        if i + 2 + len > lim then []
        else .ipv6Option container t len :: ipv6Options pkt container lim fuel (i + 2 + len)
    else []

/-- `for_each_ipv6_option`. Every round moves on, so `stop - start` rounds
are enough. -/
def forEachIpv6Option (pkt : Bytes) (start stop container : ℕ) : List WalkEvent :=
  let lim := if stop ≤ pkt.length then stop else pkt.length
  ipv6Options pkt container lim (lim - start) start

/-- The segments of a Segment Routing Header at `off` that fit before
`stop`. -/
def srhSegments (pkt : Bytes) (off stop nseg order : ℕ) : List WalkEvent :=
  ((List.range nseg).takeWhile fun i => decide (off + 8 + i * 16 + 16 ≤ stop)).map fun i =>
    .srhSegment order i (subspan pkt (off + 8 + i * 16) 16)

/-- The extension headers from `off` on, at most `guard` of them. -/
def walkExt (pkt : Bytes) : ℕ → ℕ → ℕ → ℕ → List WalkEvent × Option (ℕ × ℕ)
  | 0, nh, off, _ => ([], some (nh, off))
  | guard + 1, nh, off, order =>
    if !isIpv6Ext nh then ([], some (nh, off))
    else if off ≥ pkt.length then ([], none)
    else if nh = 0 ∨ nh = 60 then
      match strct Ipv6ExtOpt (pkt.drop off) with
      | none => ([.offset off], none)
      | some (h, _) =>
        let kind : Ipv6ExtKind := if nh = 0 then .hopByHop else .destOpts
        let hlen := (h.hdrExtLen + 1) * 8
        let (calls, l4) := walkExt pkt guard h.nextHeader (off + hlen) order
        (.offset off :: .extOpt kind h ::
          forEachIpv6Option pkt (off + 2) (off + hlen) nh ++ calls, l4)
    else if nh = 43 then
      match strct Ipv6Srh (pkt.drop off) with
      | none => ([.offset off], none)
      | some (h, _) =>
        let hlen := (h.hdrExtLen + 1) * 8
        let stop := if off + hlen ≤ pkt.length then off + hlen else pkt.length
        let nseg := h.lastEntry + 1
        let (calls, l4) := walkExt pkt guard h.nextHeader (off + hlen) (order + 1)
        (.offset off :: .srh h :: srhSegments pkt off stop nseg order ++
          forEachIpv6Option pkt (off + 8 + nseg * 16) stop 43 ++ calls, l4)
    else if nh = 44 then
      match strct Ipv6Fragment (pkt.drop off) with
      | none => ([.offset off], none)
      | some (h, _) =>
        -- behind a non-zero fragment offset lie data, not a header
        if h.offsetFlags / 8 ≠ 0 then ([.offset off, .fragment h], none)
        else
          let (calls, l4) := walkExt pkt guard h.nextHeader (off + 8) order
          (.offset off :: .fragment h :: calls, l4)
    else
      match strct Ipv6Ah (pkt.drop off) with
      | none => ([.offset off], none)
      | some (h, _) =>
        let (calls, l4) := walkExt pkt guard h.nextHeader (off + (h.payloadLen + 2) * 4) order
        (.offset off :: .ah h :: calls, l4)

/-- The IPv6 header at `off` and its extension headers. -/
def walkIpv6 (pkt : Bytes) (off : ℕ) : List WalkEvent × Option (ℕ × ℕ) :=
  match strct Ipv6 (pkt.drop off) with
  | none => ([], none)
  | some (ip, _) =>
    let (calls, l4) := walkExt pkt 64 ip.nextHeader (off + wireSize Ipv6) 0
    (.offset off :: .ipv6 ip :: calls, l4)

/-! ## L4, and the whole walk -/

/-- The L4 header at `off`. -/
def walkL4 (pkt : Bytes) (ipProto off : ℕ) : List WalkEvent × WalkResult :=
  if off > pkt.length then ([], {})
  else if ipProto = kIpProtoTcp then
    match strct Tcp (pkt.drop off) with
    | none => ([.offset off], {})
    | some (tcp, _) =>
      ([.offset off, .tcp tcp],
        { l4PayloadOffset := off + max (tcp.dataOffset * 4) (wireSize Tcp)
          l4Ports := tcp.srcPort * 2 ^ 16 + tcp.dstPort
          reachedL4 := true })
  else if ipProto = kIpProtoUdp then
    match strct Udp (pkt.drop off) with
    | none => ([.offset off], {})
    | some (udp, _) =>
      ([.offset off, .udp udp],
        { l4PayloadOffset := off + wireSize Udp
          l4Ports := udp.srcPort * 2 ^ 16 + udp.dstPort
          reachedL4 := true })
  else ([.offset off], {})

/-- What lies behind L2. -/
def walkL3 (pkt : Bytes) (ethertype off : ℕ) : List WalkEvent × Option (ℕ × ℕ) :=
  if ethertype = kEtherTypeIpv4 then walkIpv4 pkt off
  else if ethertype = kEtherTypeIpv6 then walkIpv6 pkt off
  else ([], none)

def walkPacketExt (linkType : ℕ) (pkt : Bytes) : List WalkEvent × WalkResult :=
  if linkType ≠ kLinkTypeEthernet then ([], {})
  else
    match strct Ethernet pkt with
    | none => ([], {})
    | some (eth, rest) =>
      let (tags, inner) := walkVlan rest eth.ethertype (wireSize Ethernet)
      let l2 := .offset 0 :: .eth eth :: tags
      match inner with
      | none => (l2, {})
      | some (ethertype, off) =>
        let (l3, l4) := walkL3 pkt ethertype off
        match l4 with
        | none => (l2 ++ .l2Done ethertype off :: l3, {})
        | some (ipProto, l4Off) =>
          let (top, res) := walkL4 pkt ipProto l4Off
          (l2 ++ .l2Done ethertype off :: l3 ++ top, res)

end Nanom.Wire
