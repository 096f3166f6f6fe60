import Nanom.Decode.Transparency
/-!
# The order IPv6 fragments arrive in

An IPv4 datagram's protocol is part of its key. An IPv6 datagram's stands in
every one of its Fragment headers, the one at offset 0 being the one that
counts, and `on_fragment` dispatches by the header of the packet that happens to
complete the datagram. What the bytes are decoded as depends on the order of
arrival exactly where that header names another decoder (`dispatch_agrees_iff`).
-/

namespace Nanom.Decode

open Wire Defrag ReassemblyTable List

/-! ## Which decoder a next header names -/

/-- The protocol a reassembled datagram is decoded as, if any: it is TCP
or UDP and has room for the fixed header. -/
def decodedAs (ipProto : ℕ) (D : Bytes) : Option ℕ :=
  if ipProto = kIpProtoTcp ∧ wireSize Tcp ≤ D.length ∨
      ipProto = kIpProtoUdp ∧ wireSize Udp ≤ D.length
  then some ipProto else none

/-- The protocol an L4 row belongs to. -/
def L4Output.proto : L4Output → Option ℕ
  | .tcp _ => some kIpProtoTcp
  | .udp _ => some kIpProtoUdp
  | .payload _ => none

theorem strct_eq_none_iff {T : Type} [Described T] {b : Bytes} :
    strct T b = none ↔ b.length < wireSize T := by
  unfold strct
  split
  · rename_i hlt
    exact iff_of_true rfl hlt
  · rename_i hge
    exact iff_of_false (Option.some_ne_none _) hge

theorem proto_reassembledL4 (ipProto : ℕ) (D : Bytes) :
    (reassembledL4 ipProto D).head?.bind L4Output.proto = decodedAs ipProto D := by
  unfold reassembledL4 decodedAs
  by_cases htcp : ipProto = kIpProtoTcp
  · have hudp : ipProto ≠ kIpProtoUdp := by rw [htcp]; decide
    rw [if_pos htcp]
    rcases hs : strct Tcp D with - | ⟨tcp, rest⟩
    · have hlt := strct_eq_none_iff.1 hs
      rw [if_neg (by omega)]
      rfl
    · obtain ⟨hle, -⟩ := strct_eq_some_iff.1 hs
      rw [if_pos (Or.inl ⟨htcp, hle⟩), htcp]
      rfl
  · rw [if_neg htcp]
    by_cases hudp : ipProto = kIpProtoUdp
    · rw [if_pos hudp]
      rcases hs : strct Udp D with - | ⟨udp, rest⟩
      · have hlt := strct_eq_none_iff.1 hs
        rw [if_neg (by omega)]
        rfl
      · obtain ⟨hle, -⟩ := strct_eq_some_iff.1 hs
        rw [if_pos (Or.inr ⟨hudp, hle⟩), hudp]
        rfl
    · rw [if_neg hudp, if_neg (by tauto)]
      rfl

theorem reassembledL4_of_none {ipProto : ℕ} {D : Bytes} (h : decodedAs ipProto D = none) :
    reassembledL4 ipProto D = [] := by
  have hproto := proto_reassembledL4 ipProto D
  rw [h] at hproto
  unfold reassembledL4 at hproto ⊢
  split at hproto
  · rename_i htcp
    rw [if_pos htcp]
    split at hproto
    · cases hproto
    · rfl
  rename_i htcp
  rw [if_neg htcp]
  split at hproto
  · rename_i hudp
    rw [if_pos hudp]
    split at hproto
    · cases hproto
    · rfl
  · rename_i hudp
    rw [if_neg hudp]

/-- **Two next headers come to the same exactly where they name the same
decoder.** -/
theorem reassembledL4_eq_iff {ipProto ipProto' : ℕ} {D : Bytes} :
    reassembledL4 ipProto D = reassembledL4 ipProto' D ↔
      decodedAs ipProto D = decodedAs ipProto' D := by
  constructor
  · intro h
    rw [← proto_reassembledL4, ← proto_reassembledL4, h]
  · intro h
    rcases hd : decodedAs ipProto D with - | k
    · rw [reassembledL4_of_none hd, reassembledL4_of_none (h.symm.trans hd)]
    have hd' := h.symm.trans hd
    unfold decodedAs at hd hd'
    split at hd
    · split at hd'
      · cases hd
        cases hd'
        rfl
      · cases hd'
    · cases hd

/-! ## Fragments and their arrival -/

/-- A packet at the Fragment header the walk is about to visit. -/
structure FragmentPacket where
  env : VisitorEnv
  ctx : DecodeCtx
  /-- The offset of the Fragment header. -/
  atOffset : ℕ
  ipv6BaseOffset : ℕ
  ipv6PayloadLength : ℕ
  lastIpv6 : Ipv6
  header : Ipv6Fragment
  -- both fields are 16 bits wide
  payloadLength_lt : ipv6PayloadLength < 2 ^ 16
  offsetFlags_lt : header.offsetFlags < 2 ^ 16

/-- The tables of a pass before its first packet. -/
def emptyTables (opts : DecodeOptions) : DefragState :=
  ⟨.init opts.ipv4Defrag, .init opts.ipv6Defrag⟩

namespace FragmentPacket

variable (σ : ComparisonSort) (d : DefragState) (p : FragmentPacket)

/-- Its visitor, with the tables it finds. -/
def visitor : Visitor where
  ctx := p.ctx
  defrag := d
  atOffset := p.atOffset
  ipv6BaseOffset := p.ipv6BaseOffset
  ipv6PayloadLength := p.ipv6PayloadLength
  lastIpv6 := p.lastIpv6

/-- The visitor after `on_fragment`. -/
def arrive : Visitor := (p.visitor d).onFragment σ p.env p.header

/-- The datagram it belongs to. -/
def key : Ipv6Key := ⟨p.lastIpv6.src, p.lastIpv6.dst, p.header.identification⟩

/-- The fragment it carries. -/
def span : FragmentSpan :=
  (p.visitor (emptyTables {})).ipv6Fragment p.env.token p.header (p.atOffset + 8)

/-- The fragment is handed to the table: fragments are reassembled, and
the capture reaches behind the Fragment header. -/
def Fed : Prop := p.env.defrags = true ∧ p.atOffset + 8 ≤ p.ctx.pkt.length

variable {σ d p}

/-- **What `on_fragment` does**: nothing, or it feeds the fragment to the
IPv6 table. -/
theorem arrive_cases (σ : ComparisonSort) (d : DefragState) (p : FragmentPacket) :
    (¬ p.Fed ∧ (p.arrive σ d).defrag = d ∧ (p.arrive σ d).log = []) ∨
    p.Fed ∧ ∃ row : ℕ → Row, (∀ id, (Output.push (row id)).l4 = none) ∧
      let fed := feedTable σ p.env p.ctx d.ipv6 p.key p.span 6 p.header.nextHeader row
      (p.arrive σ d).defrag = ⟨d.ipv4, fed.table⟩ ∧ (p.arrive σ d).log = fed.log := by
  unfold arrive Visitor.onFragment
  by_cases hon : p.env.defrags = true
  · rw [if_neg (by simp [hon])]
    dsimp only [visitor]
    by_cases hfit : p.atOffset + 8 > p.ctx.pkt.length
    · rw [if_pos hfit]
      exact Or.inl ⟨fun h => absurd h.2 (by omega), rfl, rfl⟩
    · rw [if_neg hfit]
      exact Or.inr ⟨⟨hon, by omega⟩, _, fun id => rfl, rfl, rfl⟩
  · rw [if_pos (by simp [hon])]
    exact Or.inl ⟨fun h => hon h.1, rfl, rfl⟩

/-- **A fragment that completes its datagram** has it decoded by its own
next header. -/
theorem l4Of_arrive (hfed : p.Fed)
    (hdone : (d.ipv6.addFragment σ p.key p.span).2.completed = true) :
    l4Of (p.arrive σ d).log
      = reassembledL4 p.header.nextHeader (d.ipv6.addFragment σ p.key p.span).2.parts.flatten := by
  rcases arrive_cases σ d p with ⟨hnot, -⟩ | ⟨-, row, hrow, -, hlog⟩
  · exact absurd hfed hnot
  · rw [hlog, Visitor.l4Of_feedTable hrow hdone]

theorem span_end_lt : p.span.offsetBytes + p.span.data.length < 2 ^ 17 := by
  have hpay := p.payloadLength_lt
  have hoff := p.offsetFlags_lt
  have hlen : p.span.data.length ≤ p.ipv6PayloadLength :=
    (length_take_le _ _).trans (Nat.sub_le _ _)
  have hbytes : p.span.offsetBytes = p.header.offsetFlags / 8 * 8 := rfl
  omega

end FragmentPacket

/-- What reaches the IPv6 table of a pass. -/
inductive Arrival
  | fragment (p : FragmentPacket)
  | evictStale (now : ℕ)

namespace Arrival

variable {σ : ComparisonSort} {opts : DecodeOptions} {key : Ipv6Key} {D : Bytes}
variable {as pre : List Arrival} {p first : FragmentPacket} {frags : List FragmentPacket}

/-- The tables after one arrival. -/
def step (σ : ComparisonSort) (d : DefragState) : Arrival → DefragState
  | .fragment p => (p.arrive σ d).defrag
  | .evictStale now => ⟨d.ipv4, (d.ipv6.evictStale now).1⟩

/-- The tables after some arrivals from the start of a pass. -/
abbrev after (σ : ComparisonSort) (opts : DecodeOptions) (as : List Arrival) : DefragState :=
  Run.after (step σ) (emptyTables opts) as

/-- The fragments of one datagram, in order of arrival. -/
def own (key : Ipv6Key) (as : List Arrival) : List FragmentPacket :=
  as.filterMap fun
    | .fragment p => if p.key = key then some p else none
    | .evictStale _ => none

theorem mem_own : p ∈ own key as ↔ .fragment p ∈ as ∧ p.key = key := by
  rw [own, mem_filterMap]
  constructor
  · rintro ⟨_ | _, hmem, he⟩
    · dsimp only at he
      split at he
      · rename_i hkey
        cases he
        exact ⟨hmem, hkey⟩
      · cases he
    · cases he
  · rintro ⟨hmem, hkey⟩
    exact ⟨_, hmem, if_pos hkey⟩

/-- An arrival makes a run of the IPv6 table, on the fragment it carries
if it carries one. -/
theorem step_ipv6 (σ : ComparisonSort) (d : DefragState) (a : Arrival) :
    ∃ ops : List (Op Ipv6Key), (step σ d a).ipv6 = Run.after (ReassemblyTable.step σ) d.ipv6 ops ∧
      ∀ k f, .addFragment k f ∈ ops → ∃ p, a = .fragment p ∧ p.key = k ∧ p.span = f := by
  cases a with
  | evictStale now => exact ⟨[.evictStale now], rfl, fun k f hmem => by simp at hmem⟩
  | fragment p =>
    rcases FragmentPacket.arrive_cases σ d p with ⟨-, hd, -⟩ | ⟨-, row, -, hd, -⟩
    · exact ⟨[], congrArg DefragState.ipv6 hd, fun _ _ hmem => by cases hmem⟩
    have htable : (step σ d (.fragment p)).ipv6 = _ := congrArg DefragState.ipv6 hd
    rcases feedTable_table σ p.env p.ctx d.ipv6 p.key p.span 6 p.header.nextHeader row with
      ⟨ht, -⟩ | ⟨ht, -⟩
    · refine ⟨[.addFragment p.key p.span], htable.trans ht, fun k f hmem => ?_⟩
      simp only [mem_singleton, Op.addFragment.injEq] at hmem
      exact ⟨p, rfl, hmem.1.symm, hmem.2.symm⟩
    · refine ⟨[.addFragment p.key p.span, .retire _], htable.trans ht, fun k f hmem => ?_⟩
      simp only [mem_cons, Op.addFragment.injEq, reduceCtorEq, not_mem_nil, or_false] at hmem
      exact ⟨p, rfl, hmem.1.symm, hmem.2.symm⟩

/-- **Over a run** the IPv6 table has made a run of its own, on the
fragments that arrived. -/
theorem after_ipv6 (σ : ComparisonSort) (opts : DecodeOptions) (as : List Arrival) :
    ∃ ops : List (Op Ipv6Key),
      (after σ opts as).ipv6 = ReassemblyTable.after σ opts.ipv6Defrag ops ∧
      ∀ k f, .addFragment k f ∈ ops → ∃ p, .fragment p ∈ as ∧ p.key = k ∧ p.span = f := by
  refine Run.inv_of_forall (s := emptyTables opts)
    (I := fun d : DefragState => ∃ ops : List (Op Ipv6Key),
      d.ipv6 = ReassemblyTable.after σ opts.ipv6Defrag ops ∧
      ∀ k f, .addFragment k f ∈ ops → ∃ p, .fragment p ∈ as ∧ p.key = k ∧ p.span = f)
    (Q := (· ∈ as)) ?_ ⟨[], rfl, fun _ _ hmem => by cases hmem⟩ fun a ha => ha
  rintro d a ⟨ops, htable, hops⟩ ha
  obtain ⟨more, hstep, hmore⟩ := step_ipv6 σ d a
  refine ⟨ops ++ more, ?_, fun k f hmem => ?_⟩
  · rw [hstep, htable, ReassemblyTable.after, ReassemblyTable.after, Run.after_append]
  · rcases mem_append.1 hmem with h | h
    · exact hops k f h
    · obtain ⟨p, rfl, hk, hf⟩ := hmore k f h
      exact ⟨p, ha, hk, hf⟩

/-! ## One datagram, in two orders -/

/-- The fragments `frags` of the datagram `D`, whatever their next headers
say; `first` is one at offset 0. -/
structure FragmentsOf (key : Ipv6Key) (D : Bytes) (frags : List FragmentPacket)
    (first : FragmentPacket) : Prop where
  keyed : ∀ p ∈ frags, p.key = key
  cut : ∀ p ∈ frags, CutFrom D p.span
  whole : Covering D (frags.map FragmentPacket.span)
  first_mem : first ∈ frags
  first_zero : first.span.offsetBytes = 0

/-- In an order of arrival of `frags`, among whatever else arrives, `p`
completes the datagram after `pre`. -/
structure CompletesBy (σ : ComparisonSort) (opts : DecodeOptions) (key : Ipv6Key)
    (frags : List FragmentPacket) (pre : List Arrival) (p : FragmentPacket) : Prop where
  order : ∃ post, (own key (pre ++ .fragment p :: post)).Perm frags
  keyed : p.key = key
  fed : p.Fed
  done : ((after σ opts pre).ipv6.addFragment σ p.key p.span).2.completed = true
  -- the ids of the table have not come round
  room : (after σ opts (pre ++ [.fragment p])).ipv6.opened < 2 ^ 32

theorem FragmentsOf.length_lt (h : FragmentsOf key D frags first) : D.length < 2 ^ 32 := by
  obtain ⟨-, f, hf, hterm⟩ := h.whole
  obtain ⟨p, hp, rfl⟩ := mem_map.1 hf
  have hend := (h.cut p hp).terminal.1 hterm
  have hlt := FragmentPacket.span_end_lt (p := p)
  omega

section

variable (hset : FragmentsOf key D frags first) (h : CompletesBy σ opts key frags pre p)
include hset h

theorem CompletesBy.flatten_parts :
    ((after σ opts pre).ipv6.addFragment σ p.key p.span).2.parts.flatten = D := by
  obtain ⟨post, hperm⟩ := h.order
  have hcut : ∀ q, .fragment q ∈ pre ++ .fragment p :: post → q.key = key → CutFrom D q.span :=
    fun q hq hkey => hset.cut q (hperm.mem_iff.1 (mem_own.2 ⟨hq, hkey⟩))
  obtain ⟨ops, htable, hops⟩ := after_ipv6 σ opts pre
  have hopened : ((after σ opts pre).ipv6.addFragment σ p.key p.span).1.opened < 2 ^ 32 := by
    have hroom := h.room
    have hafter : after σ opts (pre ++ [.fragment p]) = step σ (after σ opts pre) (.fragment p) :=
      Run.after_append
    rcases FragmentPacket.arrive_cases σ (after σ opts pre) p with ⟨hnot, -⟩ | ⟨-, row, -, hd, -⟩
    · exact absurd h.fed hnot
    · rw [hafter, step, hd] at hroom
      rw [← opened_feedTable σ p.env p.ctx p.key p.span 6 p.header.nextHeader row]
      exact hroom
  have hsmall := lt_of_le_of_lt opened_le_addFragment hopened
  have hdone := h.done
  rw [htable] at hopened hsmall hdone ⊢
  have hheld : (ReassemblyTable.after σ opts.ipv6Defrag ops).Holds key D := by
    refine holds_after hset.length_lt (fun f hf => ?_) hsmall
    obtain ⟨q, hq, hkey, rfl⟩ := hops key f hf
    exact hcut q (mem_append_left _ hq) hkey
  rw [h.keyed] at hopened hdone ⊢
  exact (hheld.add_own (indexed_after hsmall)
    (hcut p (mem_append_right _ mem_cons_self) h.keyed) hset.length_lt hopened).2 hdone

theorem CompletesBy.l4Of_arrive :
    l4Of (p.arrive σ (after σ opts pre)).log = reassembledL4 p.header.nextHeader D := by
  rw [FragmentPacket.l4Of_arrive h.fed h.done, h.flatten_parts hset]

end

/-- **When reassembly dispatches alike in any two orders** of the fragments of an
IPv6 datagram that complete it: the L4 row and the payload are the same, and those
of the next header at offset 0, exactly when in each order the packet that
completes the datagram names the decoder that the one at offset 0 names. -/
theorem dispatch_agrees_iff (σ : ComparisonSort) (opts : DecodeOptions) (key : Ipv6Key) (D : Bytes)
    (frags : List FragmentPacket) (first : FragmentPacket) (hset : FragmentsOf key D frags first)
    (pre pre' : List Arrival) (p p' : FragmentPacket) (h : CompletesBy σ opts key frags pre p)
    (h' : CompletesBy σ opts key frags pre' p') :
    (l4Of (p.arrive σ (after σ opts pre)).log = l4Of (p'.arrive σ (after σ opts pre')).log ∧
      l4Of (p.arrive σ (after σ opts pre)).log
        = reassembledL4 first.header.nextHeader D) ↔
    (decodedAs p.header.nextHeader D = decodedAs first.header.nextHeader D ∧
      decodedAs p'.header.nextHeader D = decodedAs first.header.nextHeader D) := by
  rw [h.l4Of_arrive hset, h'.l4Of_arrive hset, reassembledL4_eq_iff, reassembledL4_eq_iff]
  constructor
  · rintro ⟨hsame, hfirst⟩
    exact ⟨hfirst, hsame.symm.trans hfirst⟩
  · rintro ⟨hp, hp'⟩
    exact ⟨hp.trans hp'.symm, hp⟩

/-! ## A datagram whose fragments name two protocols -/

/-- An Ethernet frame with a fragment of an IPv6 datagram: the next header
and the offset field its Fragment header has, and its data. -/
def fragmentFrame (nextHeader offsetFlags : UInt8) (data : Bytes) : Bytes :=
  [2, 0, 0, 0, 0, 1, 2, 0, 0, 0, 0, 2, 0x86, 0xdd]
    ++ [0x60, 0, 0, 0, 0, .ofNat (data.length + 8), 44, 64]
    ++ List.replicate 15 0 ++ [1] ++ List.replicate 15 0 ++ [2]
    ++ [nextHeader, 0, 0, offsetFlags, 0, 0, 0, 7] ++ data

/-- The first 16 bytes of a UDP datagram. -/
def headFrame : Bytes :=
  fragmentFrame 17 1 [0x11, 0x11, 0x22, 0x22, 0, 24, 0, 0, 1, 2, 3, 4, 0x50, 5, 6, 7]

/-- The last 8 bytes, in a fragment that says TCP. -/
def tailFrame : Bytes := fragmentFrame 6 16 [8, 9, 10, 11, 12, 13, 14, 15]

theorem headFrame_fields :
    (Described.decode (subspan headFrame 14 40) : Ipv6).payloadLength < 2 ^ 16 ∧
    (Described.decode (subspan headFrame 54 8) : Ipv6Fragment).offsetFlags < 2 ^ 16 := by
  decide +kernel

theorem tailFrame_fields :
    (Described.decode (subspan tailFrame 14 40) : Ipv6).payloadLength < 2 ^ 16 ∧
    (Described.decode (subspan tailFrame 54 8) : Ipv6Fragment).offsetFlags < 2 ^ 16 := by
  decide +kernel

/-- The visitor's packet at the Fragment header of such a frame. -/
def framePacket (packetId : ℕ) (frame : Bytes)
    (h : (Described.decode (subspan frame 14 40) : Ipv6).payloadLength < 2 ^ 16 ∧
      (Described.decode (subspan frame 54 8) : Ipv6Fragment).offsetFlags < 2 ^ 16) :
    FragmentPacket where
  env := {}
  ctx := { packetId := packetId, pkt := frame, ipVersion := 6 }
  atOffset := 54
  ipv6BaseOffset := 14
  ipv6PayloadLength := (Described.decode (subspan frame 14 40) : Ipv6).payloadLength
  lastIpv6 := Described.decode (subspan frame 14 40)
  header := Described.decode (subspan frame 54 8)
  payloadLength_lt := h.1
  offsetFlags_lt := h.2

def headPacket : FragmentPacket := framePacket 0 headFrame headFrame_fields

def tailPacket : FragmentPacket := framePacket 1 tailFrame tailFrame_fields

/-- The datagram. -/
def twoNamed : Bytes := headFrame.drop 62 ++ tailFrame.drop 62

def twoNamedKey : Ipv6Key := headPacket.key

theorem headPacket_span : headPacket.span = ⟨0, 0, true, headFrame.drop 62, 0⟩ := by
  decide +kernel

theorem tailPacket_span : tailPacket.span = ⟨16, 1, false, tailFrame.drop 62, 0⟩ := by
  decide +kernel

theorem fragmentsOf_twoNamed :
    FragmentsOf twoNamedKey twoNamed [headPacket, tailPacket] headPacket := by
  have hcut : CutFrom twoNamed headPacket.span ∧ CutFrom twoNamed tailPacket.span := by
    exact ⟨⟨by decide +kernel, by decide +kernel, by decide +kernel⟩,
      by decide +kernel, by decide +kernel, by decide +kernel⟩
  refine ⟨?_, ?_, ?_, mem_cons_self, by rw [headPacket_span]⟩
  · simp only [forall_mem_cons]
    exact ⟨rfl, by decide +kernel⟩
  · simpa using hcut
  · rw [map_cons, map_cons, map_nil, headPacket_span, tailPacket_span]
    refine ⟨fun i hi => ?_, _, mem_cons_of_mem _ mem_cons_self, rfl⟩
    have hlen : twoNamed.length = 24 := by decide +kernel
    have hhead : (headFrame.drop 62).length = 16 := by decide +kernel
    have htail : (tailFrame.drop 62).length = 8 := by decide +kernel
    by_cases hlt : i < 16
    · exact ⟨_, mem_cons_self, byteAt_isSome.2 ⟨Nat.zero_le _, by dsimp only; omega⟩⟩
    · exact ⟨_, mem_cons_of_mem _ mem_cons_self,
        byteAt_isSome.2 ⟨by dsimp only; omega, by dsimp only; omega⟩⟩

theorem completesBy_tail : CompletesBy .insertion {} twoNamedKey [headPacket, tailPacket]
    [.fragment headPacket] tailPacket :=
  ⟨⟨[], .refl _⟩, by decide +kernel, ⟨rfl, by decide +kernel⟩, by decide +kernel, by decide +kernel⟩

theorem completesBy_head : CompletesBy .insertion {} twoNamedKey [headPacket, tailPacket]
    [.fragment tailPacket] headPacket :=
  ⟨⟨[], .swap _ _ _⟩, by decide +kernel, ⟨rfl, by decide +kernel⟩, by decide +kernel,
    by decide +kernel⟩

theorem dispatch_agrees_iff_twoNamed :
    FragmentsOf twoNamedKey twoNamed [headPacket, tailPacket] headPacket ∧
    CompletesBy .insertion {} twoNamedKey [headPacket, tailPacket] [.fragment tailPacket]
      headPacket ∧
    l4Of (headPacket.arrive .insertion (after .insertion {} [.fragment tailPacket])).log
      = reassembledL4 headPacket.header.nextHeader twoNamed :=
  ⟨fragmentsOf_twoNamed, completesBy_head,
    ((dispatch_agrees_iff .insertion {} twoNamedKey twoNamed [headPacket, tailPacket] headPacket
      fragmentsOf_twoNamed _ _ _ _ completesBy_head completesBy_head).2 ⟨rfl, rfl⟩).2⟩

/-- **Decoded by the last to arrive.** The datagram's first fragment says
UDP and its second TCP. Second last, it is pushed as a TCP row; first
last, as a UDP row. -/
theorem last_names_protocol :
    FragmentsOf twoNamedKey twoNamed [headPacket, tailPacket] headPacket ∧
    CompletesBy .insertion {} twoNamedKey [headPacket, tailPacket] [.fragment headPacket]
      tailPacket ∧
    CompletesBy .insertion {} twoNamedKey [headPacket, tailPacket] [.fragment tailPacket]
      headPacket ∧
    l4Of (tailPacket.arrive .insertion (after .insertion {} [.fragment headPacket])).log
      = [.tcp ⟨0x1111, 0x2222, 0x180000, 0x1020304, 5, 0, 5, 0x607, 0x809, 0xa0b⟩,
        .payload [12, 13, 14, 15]] ∧
    l4Of (headPacket.arrive .insertion (after .insertion {} [.fragment tailPacket])).log
      = [.udp ⟨0x1111, 0x2222, 24, 0⟩,
        .payload [1, 2, 3, 4, 0x50, 5, 6, 7, 8, 9, 10, 11, 12, 13, 14, 15]] := by
  refine ⟨fragmentsOf_twoNamed, completesBy_tail, completesBy_head, ?_, ?_⟩
  · decide +kernel
  · decide +kernel

end Arrival

end Nanom.Decode
