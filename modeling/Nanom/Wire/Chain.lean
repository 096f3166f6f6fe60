import Mathlib.Data.List.TakeWhile
import Nanom.Wire.Encode
import Nanom.Wire.Walk
/-!
# Extension header chains

Whole IPv6 packets as values: Ethernet, VLAN tags, the IPv6 header, a
chain of extension headers with their lengths right, and UDP or TCP. The
fields of a header that name what follows (ethertype, next header) are
not part of the value; they are filled in when the packet is written.

`walk_packet_ext` finds in the bytes of such a packet what was written
(`walk_faithful`): the calls it makes are those of the value, with each
header's offset the sum of the sizes before it.
-/

namespace Nanom.Wire

open List Nat

/-! ## Options -/

/-- An option with a value. -/
structure Tlv where
  type : UInt8
  value : Bytes
  type_ne : type ≠ 0
  length_lt : value.length < 256

/-- An option of an options header or a Segment Routing Header. -/
inductive IpOption
  | pad1
  | tlv (t : Tlv)

namespace IpOption

def bytes : IpOption → Bytes
  | pad1 => [0]
  | tlv t => t.type :: UInt8.ofNat t.value.length :: t.value

def event (container : ℕ) : IpOption → WalkEvent
  | pad1 => .ipv6Option container 0 0
  | tlv t => .ipv6Option container t.type.toNat t.value.length

end IpOption

def optionsBytes (opts : List IpOption) : Bytes := opts.flatMap IpOption.bytes

theorem IpOption.bytes_ne_nil (o : IpOption) : o.bytes ≠ [] := by
  cases o <;> exact cons_ne_nil _ _

/-- One round at an option: its call, and on behind it. -/
theorem ipv6Options_step {pkt pre rest : Bytes} {container lim fuel : ℕ} (o : IpOption)
    (hpkt : pkt = pre ++ (o.bytes ++ rest)) (hlim : pre.length + o.bytes.length ≤ lim) :
    ipv6Options pkt container lim (fuel + 1) pre.length
      = o.event container
        :: ipv6Options pkt container lim fuel (pre.length + o.bytes.length) := by
  rw [ipv6Options]
  cases o with
  | pad1 =>
    have hbyte : pkt[pre.length]? = some 0 := by
      rw [hpkt, getElem?_append_right (le_refl _), Nat.sub_self]
      rfl
    rw [if_pos (show pre.length < lim from hlim), hbyte]
    rfl
  | tlv t =>
    have hlim : pre.length + (t.value.length + 2) ≤ lim := hlim
    have htype : pkt[pre.length]? = some t.type := by
      rw [hpkt, getElem?_append_right (le_refl _), Nat.sub_self]
      rfl
    have hlength : pkt[pre.length + 1]? = some (UInt8.ofNat t.value.length) := by
      rw [hpkt, getElem?_append_right (Nat.le_add_right _ _), Nat.add_sub_cancel_left]
      rfl
    have hne : t.type.toNat ≠ 0 := fun h => t.type_ne (UInt8.toNat_inj.1 h)
    have hvalue : (UInt8.ofNat t.value.length).toNat = t.value.length := by
      rw [UInt8.toNat_ofNat', mod_eq_of_lt t.length_lt]
    rw [if_pos (by omega), htype, hlength]
    dsimp only [Option.getD_some]
    rw [if_neg hne, if_neg (by omega), hvalue, if_neg (by omega), add_assoc, add_comm 2]
    rfl

/-- **Every option once, in order.** -/
theorem ipv6Options_optionsBytes {pkt pre rest : Bytes} {container fuel : ℕ}
    (opts : List IpOption) (hpkt : pkt = pre ++ (optionsBytes opts ++ rest))
    (hfuel : (optionsBytes opts).length ≤ fuel) :
    ipv6Options pkt container (pre.length + (optionsBytes opts).length) fuel pre.length
      = opts.map (IpOption.event container) := by
  induction opts generalizing pre fuel with
  | nil =>
    cases fuel with
    | zero => rfl
    | succ fuel =>
      exact if_neg (lt_irrefl _)
  | cons o opts ih =>
    have hsize : (optionsBytes (o :: opts)).length
        = o.bytes.length + (optionsBytes opts).length := by
      rw [optionsBytes, flatMap_cons, length_append, optionsBytes]
    have hpos : 0 < o.bytes.length := length_pos_iff.2 o.bytes_ne_nil
    obtain ⟨fuel, rfl⟩ : ∃ f, fuel = f + 1 := ⟨fuel - 1, by omega⟩
    have hpkt : pkt = pre ++ (o.bytes ++ (optionsBytes opts ++ rest)) := by
      rw [hpkt, optionsBytes, flatMap_cons, append_assoc, ← optionsBytes]
    have hnext : pkt = (pre ++ o.bytes) ++ (optionsBytes opts ++ rest) := by rw [hpkt, append_assoc]
    have ih := @ih (pre ++ o.bytes) fuel hnext (by omega)
    rw [length_append, add_assoc, ← hsize] at ih
    rw [ipv6Options_step o hpkt (by omega), ih, map_cons]

theorem forEachIpv6Option_optionsBytes {pkt pre rest : Bytes} {container stop : ℕ}
    (opts : List IpOption) (hpkt : pkt = pre ++ (optionsBytes opts ++ rest))
    (hstop : stop = pre.length + (optionsBytes opts).length) :
    forEachIpv6Option pkt pre.length stop container = opts.map (IpOption.event container) := by
  have hle : stop ≤ pkt.length := by rw [hpkt, length_append, length_append]; omega
  rw [forEachIpv6Option, if_pos hle, hstop]
  exact ipv6Options_optionsBytes opts hpkt (by omega)

/-! ## Extension headers -/

/-- An IPv6 address. -/
abbrev Address := {b : Bytes // b.length = 16}

/-- Hop-by-Hop or Destination Options, filled with options. -/
structure OptionsHeader where
  kind : Ipv6ExtKind
  hdrExtLen : UInt8
  opts : List IpOption
  size_eq : 2 + (optionsBytes opts).length = (hdrExtLen.toNat + 1) * 8

/-- A Segment Routing Header: its segments, the last of which it names,
then options. -/
structure SegmentHeader where
  hdrExtLen : UInt8
  routingType : UInt8
  segmentsLeft : UInt8
  lastEntry : UInt8
  flags : UInt8
  tag : UInt16
  segments : List Address
  opts : List IpOption
  length_segments : segments.length = lastEntry.toNat + 1
  size_eq : 8 + segments.length * 16 + (optionsBytes opts).length = (hdrExtLen.toNat + 1) * 8

/-- A Fragment header at offset 0: of `offset_flags` only the reserved
bits and `M` are left. -/
structure FragmentHeader where
  reserved : UInt8
  flags : BitVec 3
  identification : UInt32

/-- An Authentication Header with its value behind the fixed part. -/
structure AuthHeader where
  payloadLen : UInt8
  reserved : UInt16
  spi : UInt32
  seq : UInt32
  icv : Bytes
  payloadLen_pos : 1 ≤ payloadLen.toNat
  size_eq : 12 + icv.length = (payloadLen.toNat + 2) * 4

inductive ExtHeader
  | options (h : OptionsHeader)
  | segments (h : SegmentHeader)
  | fragment (h : FragmentHeader)
  | auth (h : AuthHeader)

def kindType : Ipv6ExtKind → UInt8
  | .hopByHop => 0
  | .destOpts => 60

def OptionsHeader.fixed (h : OptionsHeader) (nh : UInt8) : Ipv6ExtOpt :=
  ⟨nh.toNat, h.hdrExtLen.toNat⟩

def SegmentHeader.fixed (h : SegmentHeader) (nh : UInt8) : Ipv6Srh :=
  ⟨nh.toNat, h.hdrExtLen.toNat, h.routingType.toNat, h.segmentsLeft.toNat, h.lastEntry.toNat,
    h.flags.toNat, h.tag.toNat⟩

def FragmentHeader.fixed (h : FragmentHeader) (nh : UInt8) : Ipv6Fragment :=
  ⟨nh.toNat, h.reserved.toNat, h.flags.toNat, h.identification.toNat⟩

def AuthHeader.fixed (h : AuthHeader) (nh : UInt8) : Ipv6Ah :=
  ⟨nh.toNat, h.payloadLen.toNat, h.reserved.toNat, h.spi.toNat, h.seq.toNat⟩

namespace ExtHeader

/-- The next header value that announces it. -/
def type : ExtHeader → UInt8
  | options h => kindType h.kind
  | segments _ => 43
  | fragment _ => 44
  | auth _ => 51

/-- The bytes of a header, in front of a header that is announced by `nh`. -/
def bytes (nh : UInt8) : ExtHeader → Bytes
  | options h => encode (h.fixed nh) ++ optionsBytes h.opts
  | segments h => encode (h.fixed nh) ++ (h.segments.flatMap Subtype.val ++ optionsBytes h.opts)
  | fragment h => encode (h.fixed nh)
  | auth h => encode (h.fixed nh) ++ h.icv

def size : ExtHeader → ℕ
  | options h => (h.hdrExtLen.toNat + 1) * 8
  | segments h => (h.hdrExtLen.toNat + 1) * 8
  | fragment _ => 8
  | auth h => (h.payloadLen.toNat + 2) * 4

/-- What a header has the walk report, at its offset and with so many
Segment Routing Headers before it. -/
def events (nh : UInt8) (off order : ℕ) : ExtHeader → List WalkEvent
  | options h => [.offset off, .extOpt h.kind (h.fixed nh)]
      ++ h.opts.map (IpOption.event (kindType h.kind).toNat)
  | segments h => [.offset off, .srh (h.fixed nh)]
      ++ h.segments.mapIdx (fun i a => .srhSegment order i a.1)
      ++ h.opts.map (IpOption.event 43)
  | fragment h => [.offset off, .fragment (h.fixed nh)]
  | auth h => [.offset off, .ah (h.fixed nh)]

/-- The number of Segment Routing Headers behind a header. -/
def orderAfter (order : ℕ) : ExtHeader → ℕ
  | segments _ => order + 1
  | _ => order

end ExtHeader

open ExtHeader (events options segments)

/-! The fixed parts fit their fields: the numbers are of the fields' own
widths. -/

theorem OptionsHeader.valid_fixed (h : OptionsHeader) (nh : UInt8) : Valid (h.fixed nh) :=
  FieldsFit.cons nh.toNat_lt <| .cons h.hdrExtLen.toNat_lt .nil

theorem SegmentHeader.valid_fixed (h : SegmentHeader) (nh : UInt8) : Valid (h.fixed nh) :=
  FieldsFit.cons nh.toNat_lt <| .cons h.hdrExtLen.toNat_lt <| .cons h.routingType.toNat_lt <|
    .cons h.segmentsLeft.toNat_lt <| .cons h.lastEntry.toNat_lt <| .cons h.flags.toNat_lt <|
    .cons h.tag.toNat_lt .nil

theorem FragmentHeader.valid_fixed (h : FragmentHeader) (nh : UInt8) : Valid (h.fixed nh) :=
  FieldsFit.cons nh.toNat_lt <| .cons h.reserved.toNat_lt <|
    .cons (lt_trans h.flags.isLt (by decide)) <| .cons h.identification.toNat_lt .nil

theorem AuthHeader.valid_fixed (h : AuthHeader) (nh : UInt8) : Valid (h.fixed nh) :=
  FieldsFit.cons nh.toNat_lt <| .cons h.payloadLen.toNat_lt <| .cons h.reserved.toNat_lt <|
    .cons h.spi.toNat_lt <| .cons h.seq.toNat_lt .nil

theorem ExtHeader.length_bytes (x : ExtHeader) (nh : UInt8) : (x.bytes nh).length = x.size := by
  cases x with
  | options h =>
    rw [bytes, length_append]
    exact h.size_eq
  | segments h =>
    rw [bytes, length_append, length_append, length_flatMap_const Subtype.property, ← add_assoc]
    exact h.size_eq
  | fragment h => exact Encoded.length_encode _ (h.valid_fixed nh)
  | auth h =>
    rw [bytes, length_append]
    exact h.size_eq

theorem ExtHeader.size_pos (x : ExtHeader) : 0 < x.size := by
  cases x <;> rw [size] <;> omega

/-! ## One header of the walk -/

/-- **Every segment once, in order.** -/
theorem srhSegments_eq {pkt front rest : Bytes} {off stop order : ℕ} (segments : List Address)
    (hpkt : pkt = front ++ (segments.flatMap Subtype.val ++ rest))
    (hfront : front.length = off + 8) (hstop : off + 8 + segments.length * 16 ≤ stop) :
    srhSegments pkt off stop segments.length order
      = segments.mapIdx fun i a => .srhSegment order i a.1 := by
  have hall : (range segments.length).takeWhile
      (fun i => decide (off + 8 + i * 16 + 16 ≤ stop)) = range segments.length := by
    refine takeWhile_eq_self_iff.2 fun i hi => decide_eq_true ?_
    have := mem_range.1 hi
    omega
  rw [srhSegments, hall]
  refine ext_getElem? fun i => ?_
  rw [getElem?_map, getElem?_mapIdx]
  rcases lt_or_ge i segments.length with hi | hi
  · have hsegment : subspan pkt (off + 8 + i * 16) 16 = segments[i].1 := by
      rw [hpkt, subspan_append_of_le (by omega), hfront, Nat.add_sub_cancel_left,
        subspan_append_of_fits (by rw [length_flatMap_const Subtype.property]; omega)]
      exact subspan_flatMap Subtype.property (getElem?_eq_getElem hi)
    rw [getElem?_range hi, getElem?_eq_getElem hi, Option.map_some, Option.map_some, hsegment]
  · rw [getElem?_eq_none (by rw [length_range]; exact hi), getElem?_eq_none hi]
    rfl

section Step

variable {pkt pre rest : Bytes} {guard order : ℕ} {nh : UInt8}

/-- The header that was written at the end of `pre`. -/
theorem strct_at {T : Type} [Encoded T] {v : T} (hv : Valid v)
    (hpkt : pkt = pre ++ (encode v ++ rest)) : strct T (pkt.drop pre.length) = some (v, rest) := by
  rw [hpkt, drop_left]
  exact strct_encode hv rest

theorem lt_length {x : ExtHeader} (hpkt : pkt = pre ++ (x.bytes nh ++ rest)) :
    pre.length < pkt.length := by
  have hpos := x.size_pos
  rw [hpkt, length_append, length_append, x.length_bytes]
  omega

/-- Calls made before the rest of a walk. -/
def before (calls : List WalkEvent) (walk : List WalkEvent × Option (ℕ × ℕ)) :
    List WalkEvent × Option (ℕ × ℕ) := (calls ++ walk.1, walk.2)

/-- The options behind a fixed part of `n` bytes. -/
theorem options_at {fixed : Bytes} {stop container : ℕ} (opts : List IpOption)
    (hpkt : pkt = pre ++ (fixed ++ (optionsBytes opts ++ rest)))
    (hstop : fixed.length + (optionsBytes opts).length = stop) :
    forEachIpv6Option pkt (pre.length + fixed.length) (pre.length + stop) container
      = opts.map (IpOption.event container) := by
  rw [← length_append]
  rw [← append_assoc] at hpkt
  refine forEachIpv6Option_optionsBytes opts hpkt ?_
  rw [length_append, ← hstop, add_assoc]

theorem walkExt_options (h : OptionsHeader) (hpkt : pkt = pre ++ ((options h).bytes nh ++ rest)) :
    walkExt pkt (guard + 1) (options h).type.toNat pre.length order
      = before ((options h).events nh pre.length order)
        (walkExt pkt guard nh.toNat (pre.length + (options h).size) order) := by
  have hin := lt_length hpkt
  have hfixed : (encode (h.fixed nh)).length = 2 := Encoded.length_encode _ (h.valid_fixed nh)
  have hread := strct_at (h.valid_fixed nh) hpkt
  have hopts := @options_at pkt pre rest (encode (h.fixed nh)) ((h.hdrExtLen.toNat + 1) * 8)
    (kindType h.kind).toNat h.opts hpkt (by rw [hfixed]; exact h.size_eq)
  have hname : (if (kindType h.kind).toNat = 0 then Ipv6ExtKind.hopByHop else .destOpts)
      = h.kind := by
    cases h.kind <;> rfl
  have hkind : (kindType h.kind).toNat = 0 ∨ (kindType h.kind).toNat = 60 := by
    cases h.kind
    · exact .inl rfl
    · exact .inr rfl
  have hext : (!isIpv6Ext (kindType h.kind).toNat) = false := by
    cases h.kind <;> rfl
  rw [ExtHeader.type, walkExt, hext, if_neg (not_le.2 hin), if_pos hkind, hread,
    events, ← hopts]
  rw [hname]
  rfl

theorem walkExt_segments (h : SegmentHeader) (hpkt : pkt = pre ++ ((segments h).bytes nh ++ rest)) :
    walkExt pkt (guard + 1) (segments h).type.toNat pre.length order
      = before ((segments h).events nh pre.length order)
        (walkExt pkt guard nh.toNat (pre.length + (segments h).size) (order + 1)) := by
  have hin := lt_length hpkt
  have hfixed : (encode (h.fixed nh)).length = 8 := Encoded.length_encode _ (h.valid_fixed nh)
  have hsegs : (h.segments.flatMap Subtype.val).length = h.segments.length * 16 :=
    length_flatMap_const Subtype.property _
  have hend : pre.length + (h.hdrExtLen.toNat + 1) * 8 ≤ pkt.length := by
    rw [hpkt, length_append, length_append, ExtHeader.length_bytes, ExtHeader.size]
    omega
  rw [ExtHeader.bytes, append_assoc, append_assoc] at hpkt
  have hread := strct_at (h.valid_fixed nh) hpkt
  have hsegments := @srhSegments_eq pkt (pre ++ encode (h.fixed nh)) _ pre.length
    (pre.length + (h.hdrExtLen.toNat + 1) * 8) order h.segments
    (by rw [hpkt, append_assoc]) (by rw [length_append, hfixed])
    (by have := h.size_eq; omega)
  have hopts := @options_at pkt pre rest (encode (h.fixed nh) ++ h.segments.flatMap Subtype.val)
    ((h.hdrExtLen.toNat + 1) * 8) 43 h.opts (by rw [hpkt, append_assoc])
    (by rw [length_append, hsegs]; exact h.size_eq)
  rw [length_append, hsegs, ← add_assoc] at hopts
  rw [h.length_segments] at hsegments hopts
  rw [walkExt, if_neg (not_le.2 hin), hread, events, ← hopts, ← hsegments]
  show (_ :: _ :: srhSegments pkt pre.length (if pre.length + (h.hdrExtLen.toNat + 1) * 8
    ≤ pkt.length then _ else _) _ _ ++ forEachIpv6Option pkt _ (if pre.length +
      (h.hdrExtLen.toNat + 1) * 8 ≤ pkt.length then _ else _) _ ++ _, _) = _
  rw [if_pos hend]
  rfl

/-- **One header of the chain.** The walk reports it and goes on behind
it. -/
theorem walkExt_step (x : ExtHeader) (hpkt : pkt = pre ++ (x.bytes nh ++ rest)) :
    walkExt pkt (guard + 1) x.type.toNat pre.length order
      = before (x.events nh pre.length order)
        (walkExt pkt guard nh.toNat (pre.length + x.size) (x.orderAfter order)) := by
  have hin := not_le.2 (lt_length hpkt)
  cases x with
  | options h => exact walkExt_options h hpkt
  | segments h => exact walkExt_segments h hpkt
  | fragment h =>
    have hzero : ¬ (h.fixed nh).offsetFlags / 8 ≠ 0 := by show ¬ h.flags.toNat / 8 ≠ 0; omega
    rw [ExtHeader.type, walkExt, if_neg hin, strct_at (h.valid_fixed nh) hpkt]
    dsimp only
    rw [if_neg hzero]
    rfl
  | auth h =>
    rw [walkExt, if_neg hin, strct_at (h.valid_fixed nh) hpkt]
    rfl

end Step

/-! ## The chain -/

/-- What announces a chain: its first header, or the protocol behind it. -/
def chainType (proto : UInt8) : List ExtHeader → UInt8
  | [] => proto
  | x :: _ => x.type

def chainBytes (proto : UInt8) : List ExtHeader → Bytes
  | [] => []
  | x :: xs => x.bytes (chainType proto xs) ++ chainBytes proto xs

def chainSize (xs : List ExtHeader) : ℕ := (xs.map ExtHeader.size).sum

/-- What the headers of a chain have the walk report; each lies behind the
sizes of those before it. -/
def chainEvents (proto : UInt8) : ℕ → ℕ → List ExtHeader → List WalkEvent
  | _, _, [] => []
  | off, order, x :: xs => x.events (chainType proto xs) off order
      ++ chainEvents proto (off + x.size) (x.orderAfter order) xs

theorem chainSize_cons (x : ExtHeader) (xs : List ExtHeader) :
    chainSize (x :: xs) = x.size + chainSize xs := sum_cons

theorem length_chainBytes (proto : UInt8) (xs : List ExtHeader) :
    (chainBytes proto xs).length = chainSize xs := by
  induction xs with
  | nil => rfl
  | cons x xs ih =>
    rw [chainBytes, length_append, x.length_bytes, ih, chainSize_cons]

/-- **The walk of a chain.** As many rounds as headers are enough, and the
protocol behind the chain ends it where there are more. -/
theorem walkExt_chain {pkt rest : Bytes} {proto : UInt8} (hproto : isIpv6Ext proto.toNat = false)
    (xs : List ExtHeader) {pre : Bytes} {guard order : ℕ} (hguard : xs.length ≤ guard)
    (hpkt : pkt = pre ++ (chainBytes proto xs ++ rest)) :
    walkExt pkt guard (chainType proto xs).toNat pre.length order
      = (chainEvents proto pre.length order xs, some (proto.toNat, pre.length + chainSize xs)) := by
  induction xs generalizing pre guard order with
  | nil =>
    cases guard with
    | zero => rfl
    | succ guard =>
      rw [chainType, walkExt, hproto]
      rfl
  | cons x xs ih =>
    rw [length_cons] at hguard
    obtain ⟨guard, rfl⟩ : ∃ g, guard = g + 1 := ⟨guard - 1, by omega⟩
    rw [chainBytes, append_assoc] at hpkt
    have hrest := @ih (pre ++ x.bytes (chainType proto xs)) guard (x.orderAfter order)
      (le_of_succ_le_succ hguard) (by rw [hpkt, append_assoc])
    rw [length_append, x.length_bytes] at hrest
    rw [chainType, walkExt_step x hpkt, hrest, before, chainEvents, chainSize_cons, ← add_assoc]

/-! ## L2 -/

/-- A VLAN tag: the ethertype that announces it, and its fields. -/
structure Tag where
  qinq : Bool
  pcp : BitVec 3
  dei : BitVec 1
  vid : BitVec 12

namespace Tag

def type (t : Tag) : ℕ := if t.qinq then kEtherTypeQinQ else kEtherTypeVlan

def header (t : Tag) (ethertype : ℕ) : VlanTag :=
  ⟨t.pcp.toNat, t.dei.toNat, t.vid.toNat, ethertype⟩

theorem isVlan_type (t : Tag) : isVlan t.type = true := by
  rw [type]
  split <;> rfl

end Tag

/-- The ethertype in front of some tags, and of an IPv6 header behind
them. -/
def tagsType : List Tag → ℕ
  | [] => kEtherTypeIpv6
  | t :: _ => t.type

def tagsBytes : List Tag → Bytes
  | [] => []
  | t :: ts => encode (t.header (tagsType ts)) ++ tagsBytes ts

def tagsEvents : ℕ → List Tag → List WalkEvent
  | _, [] => []
  | off, t :: ts => .offset off :: .vlan (t.header (tagsType ts)) :: tagsEvents (off + 4) ts

theorem tagsType_lt (ts : List Tag) : tagsType ts < 2 ^ 16 := by
  cases ts with
  | nil => exact le_of_ble_eq_true rfl
  | cons t ts =>
    rw [tagsType, Tag.type]
    split <;> exact le_of_ble_eq_true rfl

theorem Tag.valid_header (t : Tag) (ts : List Tag) : Valid (t.header (tagsType ts)) :=
  FieldsFit.cons t.pcp.isLt <| .cons t.dei.isLt <| .cons t.vid.isLt <|
    .cons (tagsType_lt ts) .nil

/-- One round of the loop over the tags. -/
theorem walkVlan_tag {cur rest : Bytes} {tag : VlanTag} {ethertype off : ℕ}
    (hv : isVlan ethertype = true) (h : strct VlanTag cur = some (tag, rest)) :
    walkVlan cur ethertype off
      = (.offset off :: .vlan tag :: (walkVlan rest tag.innerEthertype (off + 4)).1,
        (walkVlan rest tag.innerEthertype (off + 4)).2) := by
  obtain ⟨hsize, rfl, rfl⟩ := strct_eq_some_iff.1 h
  match cur, hsize with
  | t₀ :: t₁ :: t₂ :: t₃ :: rest, _ =>
    rw [walkVlan, if_pos hv]
    rfl

theorem walkVlan_end {ethertype : ℕ} (hv : isVlan ethertype = false) (cur : Bytes) (off : ℕ) :
    walkVlan cur ethertype off = ([], some (ethertype, off)) := by
  fun_cases walkVlan cur ethertype off <;> simp_all

theorem walkVlan_tags (ts : List Tag) (rest : Bytes) (off : ℕ) :
    walkVlan (tagsBytes ts ++ rest) (tagsType ts) off
      = (tagsEvents off ts, some (kEtherTypeIpv6, off + 4 * ts.length)) := by
  induction ts generalizing off with
  | nil => exact walkVlan_end rfl _ _
  | cons t ts ih =>
    have hread := strct_encode (t.valid_header ts) (tagsBytes ts ++ rest)
    rw [← append_assoc, ← tagsBytes] at hread
    rw [tagsType, walkVlan_tag t.isVlan_type hread]
    have hinner : (t.header (tagsType ts)).innerEthertype = tagsType ts := rfl
    rw [hinner, ih, length_cons]
    dsimp only
    congr 3
    omega

/-! ## L4 -/

structure UdpHeader where
  srcPort : UInt16
  dstPort : UInt16
  length : UInt16
  checksum : UInt16

/-- A TCP header with its options. -/
structure TcpHeader where
  srcPort : UInt16
  dstPort : UInt16
  seq : UInt32
  ack : UInt32
  dataOffset : BitVec 4
  reserved : BitVec 3
  flags : BitVec 9
  window : UInt16
  checksum : UInt16
  urgent : UInt16
  opts : Bytes
  dataOffset_le : 5 ≤ dataOffset.toNat
  length_opts : 20 + opts.length = dataOffset.toNat * 4

def UdpHeader.fixed (h : UdpHeader) : Udp :=
  ⟨h.srcPort.toNat, h.dstPort.toNat, h.length.toNat, h.checksum.toNat⟩

def TcpHeader.fixed (h : TcpHeader) : Tcp where
  srcPort := h.srcPort.toNat
  dstPort := h.dstPort.toNat
  seq := h.seq.toNat
  ack := h.ack.toNat
  dataOffset := h.dataOffset.toNat
  reserved := h.reserved.toNat
  flags := h.flags.toNat
  window := h.window.toNat
  checksum := h.checksum.toNat
  urgent := h.urgent.toNat

theorem UdpHeader.valid_fixed (h : UdpHeader) : Valid h.fixed :=
  FieldsFit.cons h.srcPort.toNat_lt <| .cons h.dstPort.toNat_lt <| .cons h.length.toNat_lt <|
    .cons h.checksum.toNat_lt .nil

theorem TcpHeader.valid_fixed (h : TcpHeader) : Valid h.fixed :=
  FieldsFit.cons h.srcPort.toNat_lt <| .cons h.dstPort.toNat_lt <| .cons h.seq.toNat_lt <|
    .cons h.ack.toNat_lt <| .cons h.dataOffset.isLt <| .cons h.reserved.isLt <|
    .cons h.flags.isLt <| .cons h.window.toNat_lt <| .cons h.checksum.toNat_lt <|
    .cons h.urgent.toNat_lt .nil

inductive L4Header
  | udp (h : UdpHeader)
  | tcp (h : TcpHeader)

namespace L4Header

def proto : L4Header → UInt8
  | udp _ => 17
  | tcp _ => 6

def bytes : L4Header → Bytes
  | udp h => encode h.fixed
  | tcp h => encode h.fixed ++ h.opts

def event : L4Header → WalkEvent
  | udp h => .udp h.fixed
  | tcp h => .tcp h.fixed

def size : L4Header → ℕ
  | udp _ => 8
  | tcp h => h.dataOffset.toNat * 4

def ports : L4Header → ℕ
  | udp h => h.srcPort.toNat * 2 ^ 16 + h.dstPort.toNat
  | tcp h => h.srcPort.toNat * 2 ^ 16 + h.dstPort.toNat

theorem isIpv6Ext_proto (x : L4Header) : isIpv6Ext x.proto.toNat = false := by
  cases x <;> rfl

end L4Header

theorem walkL4_header {pkt pre payload : Bytes} (x : L4Header)
    (hpkt : pkt = pre ++ (x.bytes ++ payload)) :
    walkL4 pkt x.proto.toNat pre.length
      = ([.offset pre.length, x.event], ⟨pre.length + x.size, x.ports, true⟩) := by
  have hin : ¬ pre.length > pkt.length := by rw [hpkt, length_append]; omega
  rw [walkL4, if_neg hin]
  cases x with
  | udp h =>
    have hread := strct_at h.valid_fixed hpkt
    rw [hread]
    rfl
  | tcp h =>
    have hread := strct_at h.valid_fixed hpkt
    have hmax : max (h.dataOffset.toNat * 4) 20 = h.dataOffset.toNat * 4 :=
      max_eq_left (by have := h.dataOffset_le; omega)
    rw [hread]
    show ([_, _], (⟨pre.length + max (h.dataOffset.toNat * 4) 20, _, _⟩ : WalkResult)) = _
    rw [hmax]
    rfl

/-! ## Packets -/

/-- An Ethernet packet with IPv6 in it. -/
structure Ipv6Packet where
  ethDst : {b : Bytes // b.length = 6}
  ethSrc : {b : Bytes // b.length = 6}
  tags : List Tag
  version : BitVec 4
  trafficClass : UInt8
  flowLabel : BitVec 20
  payloadLength : UInt16
  hopLimit : UInt8
  src : Address
  dst : Address
  exts : List ExtHeader
  l4 : L4Header
  payload : Bytes
  exts_le : exts.length ≤ 64

namespace Ipv6Packet

def ethernet (p : Ipv6Packet) : Ethernet := ⟨p.ethDst.1, p.ethSrc.1, tagsType p.tags⟩

def ipv6 (p : Ipv6Packet) : Ipv6 where
  version := p.version.toNat
  trafficClass := p.trafficClass.toNat
  flowLabel := p.flowLabel.toNat
  payloadLength := p.payloadLength.toNat
  nextHeader := (chainType p.l4.proto p.exts).toNat
  hopLimit := p.hopLimit.toNat
  src := p.src.1
  dst := p.dst.1

/-- The packet on the wire. -/
def bytes (p : Ipv6Packet) : Bytes :=
  encode p.ethernet ++ (tagsBytes p.tags ++ (encode p.ipv6
    ++ (chainBytes p.l4.proto p.exts ++ (p.l4.bytes ++ p.payload))))

/-- Where L2 ends. -/
def l2End (p : Ipv6Packet) : ℕ := 14 + 4 * p.tags.length

/-- Where the L4 header starts. -/
def l4Start (p : Ipv6Packet) : ℕ := p.l2End + 40 + chainSize p.exts

/-- What the walk is to report. -/
def events (p : Ipv6Packet) : List WalkEvent :=
  [.offset 0, .eth p.ethernet] ++ tagsEvents 14 p.tags
    ++ [.l2Done kEtherTypeIpv6 p.l2End, .offset p.l2End, .ipv6 p.ipv6]
    ++ chainEvents p.l4.proto (p.l2End + 40) 0 p.exts
    ++ [.offset p.l4Start, p.l4.event]

variable (p : Ipv6Packet)

theorem valid_ethernet : Valid p.ethernet :=
  ⟨p.ethDst.2, p.ethSrc.2, FieldsFit.cons (tagsType_lt p.tags) .nil⟩

theorem valid_ipv6 : Valid p.ipv6 :=
  ⟨p.src.2, p.dst.2, FieldsFit.cons p.version.isLt <| .cons p.trafficClass.toNat_lt <|
    .cons p.flowLabel.isLt <| .cons p.payloadLength.toNat_lt <| .cons (UInt8.toNat_lt _) <|
    .cons p.hopLimit.toNat_lt .nil⟩

end Ipv6Packet

theorem length_tagsBytes (ts : List Tag) : (tagsBytes ts).length = 4 * ts.length := by
  induction ts with
  | nil => rfl
  | cons t ts ih =>
    rw [tagsBytes, length_append, ih, length_cons]
    show 4 + 4 * ts.length = _
    omega

theorem walkIpv6_packet (p : Ipv6Packet) :
    walkIpv6 p.bytes p.l2End
      = (.offset p.l2End :: .ipv6 p.ipv6 :: chainEvents p.l4.proto (p.l2End + 40) 0 p.exts,
        some (p.l4.proto.toNat, p.l4Start)) := by
  have hl2 : (encode p.ethernet ++ tagsBytes p.tags).length = p.l2End := by
    rw [length_append, Encoded.length_encode _ p.valid_ethernet, length_tagsBytes]
    rfl
  have hip : (encode p.ethernet ++ tagsBytes p.tags ++ encode p.ipv6).length = p.l2End + 40 := by
    rw [length_append, hl2, Encoded.length_encode _ p.valid_ipv6]
    rfl
  have hread := @strct_at p.bytes (encode p.ethernet ++ tagsBytes p.tags) _ _ _ _ p.valid_ipv6
    (by rw [Ipv6Packet.bytes, append_assoc])
  have hchain := @walkExt_chain p.bytes _ _ p.l4.isIpv6Ext_proto p.exts
    (encode p.ethernet ++ tagsBytes p.tags ++ encode p.ipv6) 64 0 p.exts_le
    (by rw [Ipv6Packet.bytes, append_assoc, append_assoc])
  rw [hl2] at hread
  rw [hip] at hchain
  have hnext : p.ipv6.nextHeader = (chainType p.l4.proto p.exts).toNat := rfl
  have hsize : wireSize Ipv6 = 40 := rfl
  rw [walkIpv6, hread]
  dsimp only
  rw [hnext, hsize, hchain, Ipv6Packet.l4Start]

/-- **The walk is faithful**: of a packet that was written it reports every
header in order at its offset, every segment and every option once, and it
reaches the L4 header with its ports and the place of its payload. -/
theorem walk_faithful (p : Ipv6Packet) :
    walkPacketExt kLinkTypeEthernet p.bytes
      = (p.events, ⟨p.l4Start + p.l4.size, p.l4.ports, true⟩) := by
  have hread : strct Ethernet p.bytes = some (p.ethernet, _) := strct_encode p.valid_ethernet _
  have hvlan := fun rest => walkVlan_tags p.tags rest 14
  have htype : p.ethernet.ethertype = tagsType p.tags := rfl
  have hsize : wireSize Ethernet = 14 := rfl
  have hl4 : (encode p.ethernet ++ tagsBytes p.tags ++ encode p.ipv6
      ++ chainBytes p.l4.proto p.exts).length = p.l4Start := by
    rw [length_append, length_append, length_append,
      Encoded.length_encode _ p.valid_ethernet, length_tagsBytes,
      Encoded.length_encode _ p.valid_ipv6, length_chainBytes]
    rfl
  have htop := @walkL4_header p.bytes (encode p.ethernet ++ tagsBytes p.tags ++ encode p.ipv6
    ++ chainBytes p.l4.proto p.exts) p.payload p.l4 (by simp [Ipv6Packet.bytes])
  rw [hl4] at htop
  rw [walkPacketExt, hread]
  dsimp only
  rw [htype, hsize, hvlan]
  dsimp only
  have hl2 : 14 + 4 * p.tags.length = p.l2End := rfl
  have hl3 : walkL3 p.bytes kEtherTypeIpv6 p.l2End = walkIpv6 p.bytes p.l2End := rfl
  rw [hl2, hl3, walkIpv6_packet]
  dsimp only
  rw [htop, Ipv6Packet.events]
  simp

theorem padN_ne : (1 : UInt8) ≠ 0 := by decide

/-- A chain of Hop-by-Hop, Segment Routing, Fragment and Authentication
Header, in a tagged packet. -/
def samplePacket : Ipv6Packet where
  ethDst := ⟨[2, 0, 0, 0, 0, 1], rfl⟩
  ethSrc := ⟨[2, 0, 0, 0, 0, 2], rfl⟩
  tags := [⟨false, 0, 0, 5⟩]
  version := 6
  trafficClass := 0
  flowLabel := 0
  payloadLength := 73
  hopLimit := 64
  src := ⟨List.replicate 16 1, rfl⟩
  dst := ⟨List.replicate 16 2, rfl⟩
  exts :=
    [.options ⟨.hopByHop, 0, [.tlv ⟨1, [0, 0], padN_ne, Nat.le_of_ble_eq_true rfl⟩, .pad1, .pad1],
        rfl⟩,
      .segments ⟨2, 4, 0, 0, 0, 0, [⟨List.replicate 16 3, rfl⟩], [], rfl, rfl⟩,
      .fragment ⟨0, 1, 7⟩,
      .auth ⟨4, 0, 1, 1, List.replicate 12 9, Nat.le_of_ble_eq_true rfl, rfl⟩]
  l4 := .udp ⟨1000, 2000, 9, 0⟩
  payload := [1]
  exts_le := Nat.le_of_ble_eq_true rfl

example : (walkPacketExt kLinkTypeEthernet samplePacket.bytes).2
    = ⟨130, 1000 * 2 ^ 16 + 2000, true⟩ := by
  decide +kernel

end Nanom.Wire
