import Nanom.Wire.Walk
/-!
# The two packet walks

`walk_packet` is the older walk. It moves a cursor from header to header,
knows no extension headers and has six callbacks; `walk_packet_ext` goes
by offsets into the packet. Where no extension header follows the IPv6
header they make the same calls (`walks_agree`): at every step the cursor
is what the packet has from the offset on.
-/

namespace Nanom.Wire

open List

/-! ## The walk by cursors -/

/-- `input::offset()` of a cursor into the packet. -/
def offsetOf (pkt cur : Bytes) : ℕ := pkt.length - cur.length

/-- The VLAN tags in front of a cursor, and the ethertype and the cursor
behind them. -/
def plainVlan : Bytes → ℕ → List WalkEvent × Option (ℕ × Bytes)
  | t₀ :: t₁ :: t₂ :: t₃ :: rest, ethertype =>
    if isVlan ethertype then
      let tag : VlanTag := Described.decode [t₀, t₁, t₂, t₃]
      let (calls, inner) := plainVlan rest tag.innerEthertype
      (.vlan tag :: calls, inner)
    else ([], some (ethertype, t₀ :: t₁ :: t₂ :: t₃ :: rest))
  | cur, ethertype => ([], if isVlan ethertype then none else some (ethertype, cur))

/-- The IP header in front of a cursor; the protocol and the cursor of the
L4 header. -/
def plainL3 (cur : Bytes) (ethertype : ℕ) : List WalkEvent × Option (ℕ × Bytes) :=
  if ethertype = kEtherTypeIpv4 then
    match strct Ipv4 cur with
    | none => ([], none)
    | some (ip, _) =>
      let l3 := max (ip.ihl * 4) (wireSize Ipv4)
      if l3 > cur.length then ([.ipv4 ip], none)
      else ([.ipv4 ip], if ip.fragOffset = 0 then some (ip.protocol, cur.drop l3) else none)
  else if ethertype = kEtherTypeIpv6 then
    match strct Ipv6 cur with
    | none => ([], none)
    | some (ip, rest) => ([.ipv6 ip], some (ip.nextHeader, rest))
  else ([], none)

/-- The L4 header in front of a cursor. -/
def plainL4 (pkt cur : Bytes) (ipProto : ℕ) : List WalkEvent × WalkResult :=
  if ipProto = kIpProtoTcp then
    match strct Tcp cur with
    | none => ([], {})
    | some (tcp, _) =>
      ([.tcp tcp],
        { l4PayloadOffset := offsetOf pkt cur + max (tcp.dataOffset * 4) (wireSize Tcp)
          l4Ports := tcp.srcPort * 2 ^ 16 + tcp.dstPort
          reachedL4 := true })
  else if ipProto = kIpProtoUdp then
    match strct Udp cur with
    | none => ([], {})
    | some (udp, rest) =>
      ([.udp udp],
        { l4PayloadOffset := offsetOf pkt rest
          l4Ports := udp.srcPort * 2 ^ 16 + udp.dstPort
          reachedL4 := true })
  else ([], {})

def walkPacket (linkType : ℕ) (pkt : Bytes) : List WalkEvent × WalkResult :=
  if linkType ≠ kLinkTypeEthernet then ([], {})
  else
    match strct Ethernet pkt with
    | none => ([], {})
    | some (eth, rest) =>
      let (tags, inner) := plainVlan rest eth.ethertype
      match inner with
      | none => (.eth eth :: tags, {})
      | some (ethertype, cur) =>
        let (l3, l4) := plainL3 cur ethertype
        match l4 with
        | none => (.eth eth :: tags ++ l3, {})
        | some (ipProto, after) =>
          let (top, res) := plainL4 pkt after ipProto
          (.eth eth :: tags ++ l3 ++ top, res)

/-! ## The calls both make -/

/-- A call of one of the six callbacks of `walk_packet`. -/
def WalkEvent.isPlain : WalkEvent → Bool
  | .eth _ | .vlan _ | .ipv4 _ | .ipv6 _ | .tcp _ | .udp _ => true
  | _ => false

variable {pkt cur : Bytes} {ethertype off : ℕ}

theorem offsetOf_drop (h : off ≤ pkt.length) : offsetOf pkt (pkt.drop off) = off := by
  rw [offsetOf, length_drop]
  omega

/-- An offset and a cursor name the same place of the packet. -/
def SamePlace (pkt : Bytes) : Option (ℕ × ℕ) → Option (ℕ × Bytes) → Prop
  | none, none => True
  | some (type, off), some (type', cur) => type = type' ∧ off ≤ pkt.length ∧ cur = pkt.drop off
  | _, _ => False

theorem SamePlace.cases {p : Option (ℕ × ℕ)} {q : Option (ℕ × Bytes)} (h : SamePlace pkt p q) :
    (p = none ∧ q = none)
      ∨ ∃ type off, off ≤ pkt.length ∧ p = some (type, off) ∧ q = some (type, pkt.drop off) := by
  match p, q, h with
  | none, none, _ => exact .inl ⟨rfl, rfl⟩
  | some (_, off), some (_, _), ⟨rfl, hoff, rfl⟩ => exact .inr ⟨_, off, hoff, rfl, rfl⟩

/-- What the two walks come to at a layer: the same calls, and the same
place behind them. -/
structure Agree (pkt : Bytes) (ext : List WalkEvent × Option (ℕ × ℕ))
    (plain : List WalkEvent × Option (ℕ × Bytes)) : Prop where
  calls : ext.1.filter WalkEvent.isPlain = plain.1
  place : SamePlace pkt ext.2 plain.2

theorem vlan_agree (pre cur : Bytes) (ethertype : ℕ) :
    Agree (pre ++ cur) (walkVlan cur ethertype pre.length) (plainVlan cur ethertype) := by
  induction cur, ethertype using plainVlan.induct generalizing pre with
  | case1 t₀ t₁ t₂ t₃ rest ethertype hv tag calls inner _ ih =>
    have ih := ih (pre ++ [t₀, t₁, t₂, t₃])
    rw [append_assoc, length_append] at ih
    rw [walkVlan, plainVlan, if_pos hv, if_pos hv]
    exact ⟨congrArg (WalkEvent.vlan tag :: ·) ih.calls, ih.place⟩
  | case2 t₀ t₁ t₂ t₃ rest ethertype hv =>
    rw [walkVlan, plainVlan, if_neg hv, if_neg hv]
    refine ⟨rfl, rfl, ?_, drop_left.symm⟩
    rw [length_append]
    exact Nat.le_add_right _ _
  | case3 cur ethertype hshort =>
    rw [walkVlan, plainVlan]
    · split
      · exact ⟨rfl, trivial⟩
      · refine ⟨rfl, rfl, ?_, drop_left.symm⟩
        rw [length_append]
        exact Nat.le_add_right _ _
    · exact hshort
    · exact hshort

theorem ipv4_agree (hoff : off ≤ pkt.length) :
    Agree pkt (walkIpv4 pkt off) (plainL3 (pkt.drop off) kEtherTypeIpv4) := by
  rw [walkIpv4, plainL3]
  cases strct Ipv4 (pkt.drop off) with
  | none => exact ⟨rfl, trivial⟩
  | some header =>
    dsimp only
    split
    · exact ⟨rfl, trivial⟩
    rename_i hl3
    rw [length_drop] at hl3
    split
    · exact ⟨rfl, rfl, by omega, drop_drop⟩
    · exact ⟨rfl, trivial⟩

/-- **An IPv6 header without extension headers**: the chain ends before
it starts. -/
theorem ipv6_agree (hoff : off ≤ pkt.length)
    (hext : ∀ ip, .ipv6 ip ∈ (plainL3 (pkt.drop off) kEtherTypeIpv6).1 →
      isIpv6Ext ip.nextHeader = false) :
    Agree pkt (walkIpv6 pkt off) (plainL3 (pkt.drop off) kEtherTypeIpv6) := by
  rw [plainL3] at hext ⊢
  rw [walkIpv6]
  cases hread : strct Ipv6 (pkt.drop off) with
  | none => exact ⟨rfl, trivial⟩
  | some header =>
    obtain ⟨ip, rest⟩ := header
    rw [hread] at hext
    have hnot : isIpv6Ext ip.nextHeader = false := hext ip (mem_singleton_self _)
    obtain ⟨hsize, -, rfl⟩ := strct_eq_some_iff.1 hread
    rw [length_drop] at hsize
    have hsize : 40 ≤ pkt.length - off := hsize
    dsimp only
    rw [walkExt, hnot]
    exact ⟨rfl, rfl, by show off + 40 ≤ _; omega, drop_drop⟩

theorem l3_agree (hoff : off ≤ pkt.length)
    (hext : ∀ ip, .ipv6 ip ∈ (plainL3 (pkt.drop off) ethertype).1 →
      isIpv6Ext ip.nextHeader = false) :
    Agree pkt (walkL3 pkt ethertype off) (plainL3 (pkt.drop off) ethertype) := by
  rw [walkL3]
  split
  · rename_i h4
    subst h4
    exact ipv4_agree hoff
  rename_i h4
  split
  · rename_i h6
    subst h6
    exact ipv6_agree hoff hext
  · rename_i h6
    rw [plainL3, if_neg h4, if_neg h6]
    exact ⟨rfl, trivial⟩

theorem l4_agree (ipProto : ℕ) (hoff : off ≤ pkt.length) :
    (walkL4 pkt ipProto off).1.filter WalkEvent.isPlain = (plainL4 pkt (pkt.drop off) ipProto).1
      ∧ (walkL4 pkt ipProto off).2 = (plainL4 pkt (pkt.drop off) ipProto).2 := by
  rw [walkL4, if_neg (Nat.not_lt.2 hoff), plainL4]
  split
  · cases strct Tcp (pkt.drop off) with
    | none => exact ⟨rfl, rfl⟩
    | some header =>
      rw [offsetOf_drop hoff]
      exact ⟨rfl, rfl⟩
  split
  · cases hread : strct Udp (pkt.drop off) with
    | none => exact ⟨rfl, rfl⟩
    | some header =>
      obtain ⟨udp, rest⟩ := header
      obtain ⟨hsize, -, rfl⟩ := strct_eq_some_iff.1 hread
      rw [length_drop] at hsize
      dsimp only
      rw [drop_drop, offsetOf_drop (by omega)]
      exact ⟨rfl, rfl⟩
  · exact ⟨rfl, rfl⟩

theorem l2_agree {eth : Ethernet} {rest : Bytes} (h : strct Ethernet pkt = some (eth, rest)) :
    Agree pkt (walkVlan rest eth.ethertype (wireSize Ethernet)) (plainVlan rest eth.ethertype) := by
  obtain ⟨hsize, -, rfl⟩ := strct_eq_some_iff.1 h
  have hagree := vlan_agree (pkt.take (wireSize Ethernet)) (pkt.drop (wireSize Ethernet))
    eth.ethertype
  rwa [take_append_drop, List.length_take, Nat.min_eq_left hsize] at hagree

/-- **The two walks agree** on every packet whose IPv6 header, if the walk
comes to one, names no extension header: the same calls of the six
callbacks, with the same values and in the same order, and the same
result. -/
theorem walks_agree (linkType : ℕ) (pkt : Bytes)
    (hext : ∀ ip, .ipv6 ip ∈ (walkPacket linkType pkt).1 → isIpv6Ext ip.nextHeader = false) :
    (walkPacketExt linkType pkt).1.filter WalkEvent.isPlain = (walkPacket linkType pkt).1
      ∧ (walkPacketExt linkType pkt).2 = (walkPacket linkType pkt).2 := by
  rw [walkPacket] at hext ⊢
  rw [walkPacketExt]
  by_cases hlink : linkType ≠ kLinkTypeEthernet
  · rw [if_pos hlink, if_pos hlink]
    exact ⟨rfl, rfl⟩
  rw [if_neg hlink] at hext
  rw [if_neg hlink, if_neg hlink]
  cases hread : strct Ethernet pkt with
  | none => exact ⟨rfl, rfl⟩
  | some header =>
    obtain ⟨eth, rest⟩ := header
    rw [hread] at hext
    dsimp only at hext ⊢
    have hl2 := l2_agree hread
    obtain ⟨hinner, hinner'⟩ | ⟨ethertype, off, hoff, hinner, hinner'⟩ := hl2.place.cases
    · rw [hinner, hinner']
      exact ⟨congrArg (WalkEvent.eth eth :: ·) hl2.calls, rfl⟩
    rw [hinner'] at hext
    rw [hinner, hinner']
    dsimp only at hext ⊢
    have hl3 : Agree pkt (walkL3 pkt ethertype off) (plainL3 (pkt.drop off) ethertype) := by
      refine l3_agree hoff fun ip hip => hext ip ?_
      split
      · exact mem_append_right _ hip
      · exact mem_append_left _ (mem_append_right _ hip)
    obtain ⟨hl4, hl4'⟩ | ⟨ipProto, l4Off, hl4Off, hl4, hl4'⟩ := hl3.place.cases
    · rw [hl4, hl4']
      refine ⟨?_, rfl⟩
      rw [filter_append, ← hl2.calls, ← hl3.calls]
      rfl
    · rw [hl4, hl4']
      obtain ⟨hcalls, hresult⟩ := l4_agree ipProto hl4Off
      refine ⟨?_, hresult⟩
      rw [filter_append, filter_append, hcalls, ← hl2.calls, ← hl3.calls]
      rfl

/-- An Ethernet frame with an IPv6 header that is followed by nothing. -/
def bareIpv6 : Bytes :=
  List.replicate 12 0 ++ [0x86, 0xdd, 0x60, 0, 0, 0, 0, 0, 59, 64] ++ List.replicate 32 0

theorem walks_agree_bareIpv6 :
    (∀ ip, .ipv6 ip ∈ (walkPacket 1 bareIpv6).1 → isIpv6Ext ip.nextHeader = false)
      ∧ (walkPacketExt 1 bareIpv6).1.filter WalkEvent.isPlain = (walkPacket 1 bareIpv6).1 := by
  have hext : ∀ ip, .ipv6 ip ∈ (walkPacket 1 bareIpv6).1 → isIpv6Ext ip.nextHeader = false := by
    intro ip hip
    have hall : ((walkPacket 1 bareIpv6).1.all fun
        | .ipv6 ip => !isIpv6Ext ip.nextHeader
        | _ => true) = true := by decide +kernel
    simpa using all_eq_true.1 hall _ hip
  exact ⟨hext, (walks_agree 1 bareIpv6 hext).1⟩

end Nanom.Wire
