import Mathlib.Data.List.TakeDrop
import Nanom.Decode.NonInterference
import Nanom.Defrag.Order
/-!
# When fragmentation is transparent to L4

A TCP or UDP datagram is decoded by the packet walk where its packet arrives
whole (`on_tcp`, `on_udp`) and by `dispatch_l4` where it has been reassembled.
Both push the same row body, but the walk skips `data_offset` words of a TCP
header and clamps a UDP payload to the header's length, where the re-entry takes
whatever follows the fixed header. `Transparent` says when that is the same.
-/

namespace Nanom

open List

variable {D pkt : Bytes} {linkType off ipProto : ℕ} {f : Defrag.FragmentSpan} {ip : Wire.Ipv4}

namespace Wire

/-! ## The walk of an IPv4 packet -/

/-- The IPv4 header the walk finds, and its offset. -/
def ipv4Of (linkType : ℕ) (pkt : Bytes) : Option (ℕ × Ipv4) :=
  if linkType ≠ kLinkTypeEthernet then none
  else
    match strct Ethernet pkt with
    | none => none
    | some (eth, rest) =>
      match (walkVlan rest eth.ethertype (wireSize Ethernet)).2 with
      | none => none
      | some (ethertype, off) =>
        if ethertype = kEtherTypeIpv4 then (strct Ipv4 (pkt.drop off)).map fun r => (off, r.1)
        else none

/-- The bytes of an IPv4 header, options included. -/
def Ipv4.headerBytes (ip : Ipv4) : ℕ := max (ip.ihl * 4) (wireSize Ipv4)

/-- The calls behind an IPv4 header at `off`. -/
def behindIpv4 (pkt : Bytes) (off : ℕ) (ip : Ipv4) : List WalkEvent :=
  if ip.headerBytes > (pkt.drop off).length then []
  else if ip.fragOffset = 0 then (walkL4 pkt ip.protocol (off + ip.headerBytes)).1
  else []

/-- **The walk of an IPv4 packet**: L2, the header, and what is behind
it. -/
theorem walk_ipv4 (h : ipv4Of linkType pkt = some (off, ip)) : ∃ l2 : List WalkEvent,
    (∀ e ∈ l2, e.isL2 = true) ∧
    (walkPacketExt linkType pkt).1 = l2 ++ .offset off :: .ipv4 ip :: behindIpv4 pkt off ip := by
  unfold ipv4Of at h
  unfold walkPacketExt
  split at h
  · cases h
  rename_i hlink
  rw [if_neg hlink]
  rcases heth : strct Ethernet pkt with _ | ⟨eth, rest⟩
  · rw [heth] at h
    cases h
  rw [heth] at h
  dsimp only at h ⊢
  have hl2 := isL2_walkVlan rest eth.ethertype (wireSize Ethernet)
  rcases hvlan : walkVlan rest eth.ethertype (wireSize Ethernet) with ⟨tags, inner⟩
  rw [hvlan] at h hl2
  rcases inner with _ | ⟨ethertype, off'⟩
  · cases h
  dsimp only at h ⊢
  split at h
  · rename_i hip
    obtain ⟨⟨ip', rest'⟩, hstrct, heq⟩ := Option.map_eq_some_iff.1 h
    simp only [Prod.mk.injEq] at heq
    obtain ⟨rfl, rfl⟩ := heq
    refine ⟨.offset 0 :: .eth eth :: tags ++ [.l2Done ethertype off'], ?_, ?_⟩
    · intro e he
      simp only [cons_append, mem_cons, mem_append, not_mem_nil, or_false] at he
      rcases he with rfl | rfl | he | rfl
      · rfl
      · rfl
      · exact hl2 e he
      · rfl
    · have hl3 : walkL3 pkt ethertype off' = walkIpv4 pkt off' := if_pos hip
      rw [hl3, walkIpv4, hstrct]
      unfold behindIpv4 Ipv4.headerBytes
      by_cases hfit : max (ip'.ihl * 4) (wireSize Ipv4) > (pkt.drop off').length
      · simp only [if_pos hfit, append_assoc, cons_append, nil_append]
      · by_cases hfirst : ip'.fragOffset = 0
        · simp only [if_neg hfit, if_pos hfirst, append_assoc, cons_append, nil_append]
        · simp only [if_neg hfit, if_neg hfirst, append_assoc, cons_append, nil_append]
  · cases h

/-- A call made on the extension headers of an IPv6 packet. -/
def WalkEvent.isExt : WalkEvent → Bool
  | .offset _ => true
  | .extOpt _ _ => true
  | .srh _ => true
  | .fragment _ => true
  | .ah _ => true
  | .srhSegment _ _ _ => true
  | .ipv6Option _ _ _ => true
  | _ => false

theorem isExt_ipv6Options (pkt : Bytes) (container lim fuel i : ℕ) :
    ∀ e ∈ ipv6Options pkt container lim fuel i, e.isExt = true := by
  fun_induction ipv6Options pkt container lim fuel i <;> simp_all [WalkEvent.isExt]

theorem isExt_walkExt (pkt : Bytes) (guard nh off order : ℕ) :
    ∀ e ∈ (walkExt pkt guard nh off order).1, e.isExt = true := by
  fun_induction walkExt pkt guard nh off order <;>
    simp_all [WalkEvent.isExt, forEachIpv6Option, srhSegments, or_imp, forall_and] <;>
    exact isExt_ipv6Options _ _ _ _ _

theorem ipv4_not_mem_walkL4 (pkt : Bytes) (ipProto off : ℕ) (ip : Ipv4) :
    .ipv4 ip ∉ (walkL4 pkt ipProto off).1 := by
  rcases walkL4_cases pkt ipProto off with h | h | ⟨_, h⟩ | ⟨_, h⟩ <;> simp [h]

theorem ipv4_mem_walkL3 {ethertype : ℕ} (hmem : .ipv4 ip ∈ (walkL3 pkt ethertype off).1) :
    ethertype = kEtherTypeIpv4 ∧ ∃ rest, strct Ipv4 (pkt.drop off) = some (ip, rest) := by
  unfold walkL3 at hmem
  split at hmem
  · rename_i hip
    refine ⟨hip, ?_⟩
    unfold walkIpv4 at hmem
    split at hmem
    · cases hmem
    rename_i ip' rest' hstrct
    rw [apply_ite Prod.fst, ite_self] at hmem
    simp only [mem_cons, WalkEvent.ipv4.injEq, not_mem_nil, or_false, reduceCtorEq,
      false_or] at hmem
    exact ⟨rest', hmem ▸ hstrct⟩
  · -- an IPv6 packet's calls are its header's and its extension headers'
    split at hmem
    · unfold walkIpv6 at hmem
      split at hmem
      · cases hmem
      rename_i ip6 rest6 _
      have hext := isExt_walkExt pkt 64 ip6.nextHeader (off + wireSize Ipv6) 0
      simp only [mem_cons, reduceCtorEq, false_or] at hmem
      exact absurd (hext _ hmem) Bool.false_ne_true
    · cases hmem

theorem ipv4Of_of_mem (h : .ipv4 ip ∈ (walkPacketExt linkType pkt).1) :
    ∃ off, ipv4Of linkType pkt = some (off, ip) := by
  unfold walkPacketExt at h
  unfold ipv4Of
  split at h
  · cases h
  rename_i hlink
  rw [if_neg hlink]
  rcases heth : strct Ethernet pkt with _ | ⟨eth, rest⟩
  · rw [heth] at h
    cases h
  rw [heth] at h
  dsimp only at h ⊢
  -- the call is none of L2's, nor of L4's, so it is L3's
  have hl2 := isL2_walkVlan rest eth.ethertype (wireSize Ethernet)
  have htags : .ipv4 ip ∉ (walkVlan rest eth.ethertype (wireSize Ethernet)).1 :=
    fun hmem => Bool.false_ne_true (hl2 _ hmem)
  rcases hvlan : (walkVlan rest eth.ethertype (wireSize Ethernet)).2 with _ | ⟨ethertype, off⟩
  · rw [hvlan] at h
    simp only [mem_cons, reduceCtorEq, false_or] at h
    exact absurd h htags
  rw [hvlan] at h
  dsimp only at h
  have hmem : .ipv4 ip ∈ (walkL3 pkt ethertype off).1 := by
    split at h
    · simpa [htags] using h
    · simpa [htags, ipv4_not_mem_walkL4] using h
  obtain ⟨hip, rest', hstrct⟩ := ipv4_mem_walkL3 hmem
  exact ⟨off, by simp only [if_pos hip, hstrct, Option.map_some]⟩

end Wire

namespace Decode

open Wire Defrag ReassemblyTable

/-! ## What L4 decoding puts out -/

/-- The body of an L4 row, or the payload handed to the protocols above. -/
inductive L4Output
  | tcp (body : Tcp)
  | udp (body : Udp)
  | payload (bytes : Bytes)
deriving DecidableEq, Repr

def Output.l4 : Output → Option L4Output
  | .push (.tcp r) => some (.tcp r.body)
  | .push (.udp r) => some (.udp r.body)
  | .dispatch .l4Payload _ payload => some (.payload payload.content)
  | _ => none

/-- What a log puts out at L4. -/
def l4Of (log : List Output) : List L4Output := log.filterMap Output.l4

@[simp] theorem l4Of_append (log log' : List Output) : l4Of (log ++ log') = l4Of log ++ l4Of log' :=
  filterMap_append

/-- The walk's decoding of a datagram. -/
def wholeL4 (ipProto : ℕ) (D : Bytes) : List L4Output :=
  if ipProto = kIpProtoTcp then
    match strct Tcp D with
    | some (tcp, _) => [.tcp tcp, .payload (D.drop (max (tcp.dataOffset * 4) (wireSize Tcp)))]
    | none => []
  else if ipProto = kIpProtoUdp then
    match strct Udp D with
    | some (udp, rest) => [.udp udp, .payload (rest.take (udp.length - 8))]
    | none => []
  else []

/-- The decoding of a reassembled datagram. -/
def reassembledL4 (ipProto : ℕ) (D : Bytes) : List L4Output :=
  if ipProto = kIpProtoTcp then
    match strct Tcp D with
    | some (tcp, rest) => [.tcp tcp, .payload rest]
    | none => []
  else if ipProto = kIpProtoUdp then
    match strct Udp D with
    | some (udp, rest) => [.udp udp, .payload rest]
    | none => []
  else []

/-- The header of the datagram says that its payload is all that follows
the fixed part of the header. -/
structure Transparent (ipProto : ℕ) (D : Bytes) : Prop where
  tcp : ipProto = kIpProtoTcp → ∀ tcp rest, strct Tcp D = some (tcp, rest) →
    rest = [] ∨ tcp.dataOffset ≤ 5
  udp : ipProto = kIpProtoUdp → ∀ udp rest, strct Udp D = some (udp, rest) →
    rest = [] ∨ D.length ≤ udp.length

/-- The walk's TCP payload is what follows the fixed header where the
header has no more to it, or nothing follows. -/
theorem tcpPayload_eq_iff {rest : Bytes} {tcp : Tcp} (hs : strct Tcp D = some (tcp, rest)) :
    D.drop (max (tcp.dataOffset * 4) (wireSize Tcp)) = rest ↔ rest = [] ∨ tcp.dataOffset ≤ 5 := by
  obtain ⟨hle, -, hrest⟩ := strct_eq_some_iff.1 hs
  have hsize : wireSize Tcp = 20 := rfl
  constructor
  · -- equal as lists, so of one length
    intro heq
    have hlen := congrArg length heq
    rw [hrest, length_drop, length_drop] at hlen
    rw [← length_eq_zero_iff, hrest, length_drop]
    omega
  · rintro (hnil | hoff)
    · rw [hnil] at hrest
      rw [hnil, drop_eq_nil_iff]
      have := drop_eq_nil_iff.1 hrest.symm
      omega
    · rw [hrest, max_eq_right (by omega)]

/-- The walk's UDP payload is what follows the header where the length
field takes nothing off it. -/
theorem udpPayload_eq_iff {rest : Bytes} {udp : Udp} (hs : strct Udp D = some (udp, rest)) :
    rest.take (udp.length - 8) = rest ↔ rest = [] ∨ D.length ≤ udp.length := by
  obtain ⟨hle, -, hrest⟩ := strct_eq_some_iff.1 hs
  have hsize : wireSize Udp = 8 := rfl
  rw [take_eq_self_iff, ← length_eq_zero_iff, hrest, length_drop]
  omega

/-- **Where the two decodings agree.** -/
theorem wholeL4_eq_iff (ipProto : ℕ) (D : Bytes) :
    wholeL4 ipProto D = reassembledL4 ipProto D ↔ Transparent ipProto D := by
  unfold wholeL4 reassembledL4
  by_cases htcp : ipProto = kIpProtoTcp
  · have hudp : ipProto ≠ kIpProtoUdp := by rw [htcp]; decide
    have hiff : Transparent ipProto D ↔ ∀ tcp rest, strct Tcp D = some (tcp, rest) →
        rest = [] ∨ tcp.dataOffset ≤ 5 :=
      ⟨fun h => h.tcp htcp, fun h => ⟨fun _ => h, fun hu => absurd hu hudp⟩⟩
    rw [if_pos htcp, if_pos htcp, hiff]
    rcases hs : strct Tcp D with - | ⟨tcp, rest⟩
    · simp
    · simp [tcpPayload_eq_iff hs]
  rw [if_neg htcp, if_neg htcp]
  by_cases hudp : ipProto = kIpProtoUdp
  · have hiff : Transparent ipProto D ↔ ∀ udp rest, strct Udp D = some (udp, rest) →
        rest = [] ∨ D.length ≤ udp.length :=
      ⟨fun h => h.udp hudp, fun h => ⟨fun ht => absurd ht htcp, fun _ => h⟩⟩
    rw [if_pos hudp, if_pos hudp, hiff]
    rcases hs : strct Udp D with - | ⟨udp, rest⟩
    · simp
    · simp [udpPayload_eq_iff hs]
  -- no other protocol is decoded by either
  rw [if_neg hudp, if_neg hudp]
  exact iff_of_true rfl ⟨fun h => absurd h htcp, fun h => absurd h hudp⟩

/-- **The re-entry decodes the concatenation of the views.** -/
theorem l4Of_dispatchL4 (c : DecodeCtx) (parts : List Bytes) :
    l4Of (dispatchL4 c (.ofParts parts)) = reassembledL4 c.ipProto parts.flatten := by
  have htcp := strctSeg_eq (T := Tcp) (s := .ofParts parts)
  have hudp := strctSeg_eq (T := Udp) (s := .ofParts parts)
  rw [SegInput.content_ofParts] at htcp hudp
  unfold dispatchL4 reassembledL4
  split
  · rw [← htcp]
    rcases strctSeg Tcp (.ofParts parts) with - | ⟨tcp, rest⟩
    · rfl
    · rfl
  · split
    · rw [← hudp]
      rcases strctSeg Udp (.ofParts parts) with - | ⟨udp, rest⟩
      · rfl
      · rfl
    · rfl

/-! ## One packet -/

namespace Visitor

variable {σ : ComparisonSort} {env : VisitorEnv} {v w x : Visitor}

/-- Nothing of L3 or above has happened in between. -/
structure Idle (v w : Visitor) : Prop where
  defrag : w.defrag = v.defrag
  isFragment : w.isFragment = v.isFragment
  packetId : w.ctx.packetId = v.ctx.packetId
  pkt : w.ctx.pkt = v.ctx.pkt
  l4 : l4Of w.log = l4Of v.log

theorem Idle.refl (v : Visitor) : Idle v v := ⟨rfl, rfl, rfl, rfl, rfl⟩

theorem Idle.trans (h : Idle v w) (h' : Idle w x) : Idle v x :=
  ⟨h'.defrag.trans h.defrag, h'.isFragment.trans h.isFragment, h'.packetId.trans h.packetId,
    h'.pkt.trans h.pkt, h'.l4.trans h.l4⟩

theorem Idle.visit (e : WalkEvent) (he : e.isL2 = true) : Idle v (v.visit σ env e) := by
  cases e <;> try cases he
  case offset off => exact ⟨rfl, rfl, rfl, rfl, rfl⟩
  case eth h => exact ⟨rfl, rfl, rfl, rfl, by simp [Visitor.visit, put, l4Of, Output.l4]⟩
  case vlan h => exact ⟨rfl, rfl, rfl, rfl, by simp [Visitor.visit, put, l4Of, Output.l4]⟩
  case l2Done ethertype l2End =>
    simp only [Visitor.visit, onL2Done]
    split
    · exact ⟨rfl, rfl, rfl, rfl, rfl⟩
    · exact ⟨rfl, rfl, rfl, rfl, by simp [put, l4Of, Output.l4]⟩

theorem Idle.walk (calls : List WalkEvent) (h : ∀ e ∈ calls, e.isL2 = true) :
    Idle v (v.walk σ env calls) := by
  induction calls generalizing v with
  | nil => exact Idle.refl v
  | cons e calls ih =>
    exact (Idle.visit e (h e mem_cons_self)).trans
      (ih (forall_mem_cons.1 h).2)

theorem walk_append (calls calls' : List WalkEvent) :
    v.walk σ env (calls ++ calls') = (v.walk σ env calls).walk σ env calls' := foldl_append

/-- **The walk's L4**, over a packet that is no fragment. -/
theorem l4Of_walkL4 (hf : v.isFragment = false) (ipProto off : ℕ) (hoff : off ≤ v.ctx.pkt.length) :
    l4Of (v.walk σ env (walkL4 v.ctx.pkt ipProto off).1).log
      = l4Of v.log ++ wholeL4 ipProto (v.ctx.pkt.drop off) := by
  unfold walkL4 wholeL4
  rw [if_neg (by omega)]
  split
  · rcases hs : strct Tcp (v.ctx.pkt.drop off) with - | ⟨tcp, rest⟩
    · exact (append_nil _).symm
    · change l4Of (onTcp { v with atOffset := off } tcp).log = _
      unfold onTcp
      rw [if_neg (by rw [hf]; exact Bool.false_ne_true), put, l4Of_append]
      simp [onTcpLayer, l4Of, Output.l4]
  · split
    · rcases hs : strct Udp (v.ctx.pkt.drop off) with - | ⟨udp, rest⟩
      · exact (append_nil _).symm
      · obtain ⟨-, -, hrest⟩ := strct_eq_some_iff.1 hs
        change l4Of (onUdp { v with atOffset := off } udp).log = _
        unfold onUdp
        rw [if_neg (by rw [hf]; exact Bool.false_ne_true), put, l4Of_append, hrest, drop_drop]
        simp [onUdpLayer, l4Of, Output.l4, udpPayload]
    · exact (append_nil _).symm

theorem walkL4_of_fragment (hf : v.isFragment = true) (pkt : Bytes) (ipProto off : ℕ) :
    l4Of (v.walk σ env (walkL4 pkt ipProto off).1).log = l4Of v.log ∧
    (v.walk σ env (walkL4 pkt ipProto off).1).defrag = v.defrag := by
  rcases walkL4_cases pkt ipProto off with h | h | ⟨tcp, h⟩ | ⟨udp, h⟩ <;> rw [h]
  · exact ⟨rfl, rfl⟩
  · exact ⟨rfl, rfl⟩
  · change l4Of (onTcp { v with atOffset := off } tcp).log = _ ∧
      (onTcp { v with atOffset := off } tcp).defrag = _
    unfold onTcp
    rw [if_pos hf]
    exact ⟨rfl, rfl⟩
  · change l4Of (onUdp { v with atOffset := off } udp).log = _ ∧
      (onUdp { v with atOffset := off } udp).defrag = _
    unfold onUdp
    rw [if_pos hf]
    exact ⟨rfl, rfl⟩

theorem exists_at_ipv4 (σ : ComparisonSort) (env : VisitorEnv)
    (h : ipv4Of linkType v.ctx.pkt = some (off, ip)) : ∃ w, Idle v w ∧
    w.atOffset = off ∧ v.walk σ env (walkPacketExt linkType v.ctx.pkt).1
      = (w.onIpv4 σ env ip).walk σ env (behindIpv4 v.ctx.pkt off ip) := by
  obtain ⟨l2, hl2, hcalls⟩ := walk_ipv4 h
  have hidle : Idle v (v.walk σ env l2) := Idle.walk l2 hl2
  refine ⟨(v.walk σ env l2).visit σ env (.offset off), hidle.trans (Idle.visit _ rfl), rfl, ?_⟩
  rw [hcalls, walk_append]
  rfl

/-- **A packet that arrives whole.** -/
theorem l4Of_walk_whole (h : ipv4Of linkType v.ctx.pkt = some (off, ip))
    (hf : v.isFragment = false) (hel : eligible ip = false)
    (hfit : off + ip.headerBytes ≤ v.ctx.pkt.length) :
    l4Of (v.walk σ env (walkPacketExt linkType v.ctx.pkt).1).log
      = l4Of v.log ++ wholeL4 ip.protocol (v.ctx.pkt.drop (off + ip.headerBytes)) := by
  obtain ⟨w, hidle, -, hwalk⟩ := exists_at_ipv4 σ env h
  have hzero : ip.fragOffset = 0 := by by_contra hne; simp [eligible, hne] at hel
  have hbehind : behindIpv4 v.ctx.pkt off ip
      = (walkL4 v.ctx.pkt ip.protocol (off + ip.headerBytes)).1 := by
    rw [behindIpv4, if_neg (by rw [length_drop]; omega), if_pos hzero]
  -- the header's own row is all `on_ipv4` puts out
  have hip : (w.onIpv4 σ env ip).isFragment = false ∧ (w.onIpv4 σ env ip).ctx.pkt = v.ctx.pkt ∧
      l4Of (w.onIpv4 σ env ip).log = l4Of v.log := by
    unfold onIpv4
    rw [if_pos (by simp [hel])]
    refine ⟨hidle.isFragment.trans hf, hidle.pkt, ?_⟩
    rw [put, l4Of_append, hidle.l4]
    exact append_nil _
  obtain ⟨hf', hpkt, hl4⟩ := hip
  rw [hwalk, hbehind, ← hpkt, l4Of_walkL4 hf' _ _ (by rw [hpkt]; exact hfit), hl4]

/-- **A packet that carries a fragment.** -/
theorem walk_fragment (σ : ComparisonSort) (env : VisitorEnv)
    (h : ipv4Of linkType v.ctx.pkt = some (off, ip))
    (hel : eligible ip = true) (hon : env.defrags = true)
    (hfit : off + ip.headerBytes ≤ v.ctx.pkt.length) :
    ∃ (c : DecodeCtx) (row : ℕ → Row), (∀ id, (Output.push (row id)).l4 = none) ∧
      let fed := feedTable σ env c v.defrag.ipv4 (ipv4Key ip) (ipv4Fragment env.token
        v.ctx.packetId ip (v.ctx.pkt.drop (off + ip.headerBytes))) 4 ip.protocol row
      (v.walk σ env (walkPacketExt linkType v.ctx.pkt).1).defrag = ⟨fed.table, v.defrag.ipv6⟩ ∧
      l4Of (v.walk σ env (walkPacketExt linkType v.ctx.pkt).1).log
        = l4Of v.log ++ l4Of fed.log := by
  obtain ⟨w, hidle, hat, hwalk⟩ := exists_at_ipv4 σ env h
  obtain ⟨hd, -, hpid, hpkt, hl4⟩ := hidle
  have hfed : ∃ (c : DecodeCtx) (row : ℕ → Row), (∀ id, (Output.push (row id)).l4 = none) ∧
      let fed := feedTable σ env c v.defrag.ipv4 (ipv4Key ip) (ipv4Fragment env.token
        v.ctx.packetId ip (v.ctx.pkt.drop (off + ip.headerBytes))) 4 ip.protocol row
      (w.onIpv4 σ env ip).isFragment = true ∧
      (w.onIpv4 σ env ip).defrag = ⟨fed.table, v.defrag.ipv6⟩ ∧
      l4Of (w.onIpv4 σ env ip).log = l4Of v.log ++ l4Of fed.log := by
    have hoff : ¬ w.atOffset + max (ip.ihl * 4) (wireSize Ipv4) > w.ctx.pkt.length := by
      rw [hat, hpkt]
      exact not_lt.2 hfit
    unfold onIpv4
    dsimp only [put]
    rw [if_neg (by simp [hel, hon]), if_neg hoff, ← hd, ← hpid, ← hpkt, ← hat]
    refine ⟨_, _, fun id => rfl, rfl, rfl, ?_⟩
    rw [tookIpv4, l4Of_append, l4Of_append, hl4]
    exact congrArg (· ++ _) (append_nil _)
  obtain ⟨c, row, hrow, hfrag, hd', hl4'⟩ := hfed
  refine ⟨c, row, hrow, ?_⟩
  have hbehind : ∀ u : Visitor, u.isFragment = true →
      l4Of (u.walk σ env (behindIpv4 v.ctx.pkt off ip)).log = l4Of u.log ∧
      (u.walk σ env (behindIpv4 v.ctx.pkt off ip)).defrag = u.defrag := by
    intro u hu
    unfold behindIpv4
    split
    · exact ⟨rfl, rfl⟩
    split
    · exact walkL4_of_fragment hu _ _ _
    · exact ⟨rfl, rfl⟩
  rw [hwalk, (hbehind _ hfrag).1, (hbehind _ hfrag).2]
  exact ⟨hd', hl4'⟩

theorem l4Of_feedTable {Key : Type} [DecidableEq Key] {table : ReassemblyTable Key} {key : Key}
    {c : DecodeCtx} {ipVersion : ℕ} {row : ℕ → Row} (hrow : ∀ id, (Output.push (row id)).l4 = none)
    (h : (table.addFragment σ key f).2.completed = true) :
    l4Of (feedTable σ env c table key f ipVersion ipProto row).log
      = reassembledL4 ipProto (table.addFragment σ key f).2.parts.flatten := by
  have hlog : (feedTable σ env c table key f ipVersion ipProto row).log =
      .push (row (table.addFragment σ key f).2.datagramId) ::
      .push (.datagram (completedRow c (table.addFragment σ key f).1
        (table.addFragment σ key f).2 ipVersion)) ::
      dispatchL4 (reassembledCtx c (table.addFragment σ key f).2 ipVersion ipProto)
        (.ofParts (table.addFragment σ key f).2.parts) := by
    unfold feedTable completeDatagram
    dsimp only
    rw [if_pos h]
    split <;> rfl
  rw [hlog, l4Of, filterMap_cons_none (hrow _), filterMap_cons_none rfl, ← l4Of, l4Of_dispatchL4]
  rfl

theorem ipv4_walk (calls : List WalkEvent) (h : ∀ ip, .ipv4 ip ∉ calls) :
    (v.walk σ env calls).defrag.ipv4 = v.defrag.ipv4 := by
  induction calls generalizing v with
  | nil => rfl
  | cons e calls ih =>
    refine (ih fun ip hip => h ip (mem_cons_of_mem e hip)).trans ?_
    rcases visit_cases σ env v e with ⟨hd, -, -⟩ | ⟨ip, rfl, -⟩ | ⟨x, -, -, hfed⟩
    · rw [hd]
    · exact absurd mem_cons_self (h ip)
    · obtain ⟨c, key, f, ipProto, fragRow, -, -, hd, -, -⟩ := hfed
      rw [hd]

/-- A packet whose IPv4 header says it is whole, or whose fragment is cut
off, leaves the IPv4 table alone. -/
theorem ipv4_walk_unfed (h : ipv4Of linkType v.ctx.pkt = some (off, ip))
    (hun : ¬ (eligible ip = true ∧ env.defrags = true ∧ off + ip.headerBytes ≤ v.ctx.pkt.length)) :
    (v.walk σ env (walkPacketExt linkType v.ctx.pkt).1).defrag.ipv4 = v.defrag.ipv4 := by
  obtain ⟨w, hidle, hat, hwalk⟩ := exists_at_ipv4 σ env h
  have hip : (w.onIpv4 σ env ip).defrag = w.defrag := by
    unfold onIpv4
    dsimp only [put]
    split
    · rfl
    rename_i hel
    split
    · rfl
    rename_i hfit
    refine absurd ⟨?_, ?_, ?_⟩ hun
    · by_contra hne
      simp [hne] at hel
    · by_contra hne
      simp [hne] at hel
    · rw [hat, hidle.pkt] at hfit
      exact not_lt.1 hfit
  have hnone : ∀ ip', .ipv4 ip' ∉ behindIpv4 v.ctx.pkt off ip := by
    intro ip'
    unfold behindIpv4
    split
    · simp
    split
    · exact ipv4_not_mem_walkL4 _ _ _ _
    · simp
  rw [hwalk, ipv4_walk _ hnone, hip, hidle.defrag]

end Visitor

/-! ## The session -/

@[simp] theorem l4Of_evictLog (ipVersion : ℕ) (evicted : List ReassemblySummary) :
    l4Of (evictLog ipVersion evicted) = [] := by
  simp [l4Of, evictLog, Output.l4]

namespace Session

variable {σ : ComparisonSort} {opts : DecodeOptions} {s s' : Session} {c c' : Call}

/-- The packet of a call, where it is decoded, and its IPv4 header. -/
def ipv4Packet (opts : DecodeOptions) (s : Session) : Call → Option (Bytes × ℕ × Ipv4)
  | .epb b little _ kind _ =>
    (parseEpb b (u32 b.bytes.length) kind little).bind fun e =>
      (packet opts b e).bind fun pkt => (ipv4Of (s.linkType e) pkt).map fun h => (pkt, h)
  | .shb _ => none
  | .idb _ _ _ => none

/-- The call carries the whole datagram `D` in an IPv4 packet that ends
with it. -/
def CarriesWhole (opts : DecodeOptions) (s : Session) (c : Call) (ipProto : ℕ) (D : Bytes) : Prop :=
  ∃ pkt off ip, s.ipv4Packet opts c = some (pkt, off, ip) ∧ Visitor.eligible ip = false ∧
    ip.protocol = ipProto ∧ off + ip.headerBytes ≤ pkt.length ∧
    pkt.drop (off + ip.headerBytes) = D

/-- The header and the fragment a call feeds to the IPv4 table. -/
def ipv4Fed (opts : DecodeOptions) (s : Session) (c : Call) : Option (Ipv4 × FragmentSpan) :=
  (s.ipv4Packet opts c).bind fun (pkt, off, ip) =>
    if Visitor.eligible ip = true ∧ opts.decodeDefrag = true ∧ off + ip.headerBytes ≤ pkt.length
    then some (ip, Visitor.ipv4Fragment c.token s.pid ip (pkt.drop (off + ip.headerBytes)))
    else none

/-- The call feeds the fragment that completes the datagram `D`. -/
def Reassembles (σ : ComparisonSort) (opts : DecodeOptions) (s : Session) (c : Call) (ipProto : ℕ)
    (D : Bytes) : Prop :=
  ∃ ip f, s.ipv4Fed opts c = some (ip, f) ∧ ip.protocol = ipProto ∧
    (s.defrag.ipv4.addFragment σ (Visitor.ipv4Key ip) f).2.completed = true ∧
    (s.defrag.ipv4.addFragment σ (Visitor.ipv4Key ip) f).2.parts.flatten = D

theorem exists_of_ipv4Packet (h : s.ipv4Packet opts c = some (pkt, off, ip)) :
    ∃ b little token kind fileOffset e, c = .epb b little token kind fileOffset ∧
      parseEpb b (u32 b.bytes.length) kind little = some e ∧
      packet opts b e = some pkt ∧ ipv4Of (s.linkType e) pkt = some (off, ip) ∧
      s.walked σ opts b token e = s.walkPacket σ opts token e pkt := by
  cases c with
  | shb b | idb b little declaredLength => cases h
  | epb b little token kind fileOffset =>
    obtain ⟨e, he, h⟩ := Option.bind_eq_some_iff.1 h
    obtain ⟨pkt', hpkt, h⟩ := Option.bind_eq_some_iff.1 h
    obtain ⟨hdr, hdr', h⟩ := Option.map_eq_some_iff.1 h
    cases h
    exact ⟨b, little, token, kind, fileOffset, e, rfl, he, hpkt, hdr', by rw [walked, hpkt]⟩

theorem l4Of_feedEpb {b : Block} {little : Bool} {token : Token} {kind : Kind} {fileOffset : ℕ}
    {e : EpbView} (he : parseEpb b (u32 b.bytes.length) kind little = some e) :
    l4Of (s.feed σ opts (.epb b little token kind fileOffset)).2.2
      = l4Of (s.walked σ opts b token e).log := by
  change l4Of (s.feedEpb σ opts b little token kind fileOffset).2.2 = _
  unfold feedEpb
  rw [he]
  rw [l4Of_append, l4Of_append, l4Of_evictLog, l4Of_evictLog, append_nil, append_nil]
  exact filterMap_cons_none rfl

theorem CarriesWhole.l4Of_feed (h : CarriesWhole opts s c ipProto D) :
    l4Of (s.feed σ opts c).2.2 = wholeL4 ipProto D := by
  obtain ⟨pkt, off, ip, hpkt, hel, rfl, hfit, rfl⟩ := h
  obtain ⟨b, little, token, kind, fileOffset, e, rfl, he, -, hip, hwalk⟩ :=
    exists_of_ipv4Packet (σ := σ) hpkt
  rw [l4Of_feedEpb he, hwalk]
  exact Visitor.l4Of_walk_whole (v := s.visitor e pkt) hip rfl hel hfit

/-- The IPv4 table and the L4 outputs of a call that feeds a fragment. -/
theorem exists_of_ipv4Fed (h : s.ipv4Fed opts c = some (ip, f)) :
    f.packetId = s.pid ∧
    ∃ (env : VisitorEnv) (ctx : DecodeCtx) (row : ℕ → Row),
      (∀ id, (Output.push (row id)).l4 = none) ∧
      let fed := feedTable σ env ctx s.defrag.ipv4 (Visitor.ipv4Key ip) f 4 ip.protocol row
      (s.step σ opts c).defrag.ipv4 = (fed.table.evictStale s.pid).1 ∧
      l4Of (s.feed σ opts c).2.2 = l4Of fed.log := by
  obtain ⟨⟨pkt, off, ip'⟩, hpkt, h⟩ := Option.bind_eq_some_iff.1 h
  dsimp only at h
  split at h
  · rename_i hfed
    cases h
    obtain ⟨b, little, token, kind, fileOffset, e, rfl, he, -, hip, hwalk⟩ :=
      exists_of_ipv4Packet (σ := σ) hpkt
    refine ⟨rfl, ⟨token, s.tracking || decide (token ≠ kNoToken), opts.decodeDefrag⟩, ?_⟩
    obtain ⟨ctx, row, hrow, hd, hl4⟩ := Visitor.walk_fragment (v := s.visitor e pkt) σ
      ⟨token, s.tracking || decide (token ≠ kNoToken), opts.decodeDefrag⟩
      hip hfed.1 hfed.2.1 hfed.2.2
    refine ⟨ctx, row, hrow, ?_, ?_⟩
    · change (s.feedEpb σ opts b little token kind fileOffset).1.defrag.ipv4 = _
      unfold feedEpb
      rw [he]
      dsimp only
      rw [hwalk]
      exact congrArg (fun d : DefragState => (d.ipv4.evictStale s.pid).1) hd
    · rw [l4Of_feedEpb he, hwalk]
      exact hl4
  · cases h

theorem Reassembles.l4Of_feed (h : Reassembles σ opts s c ipProto D) :
    l4Of (s.feed σ opts c).2.2 = reassembledL4 ipProto D := by
  obtain ⟨ip, f, hfed, rfl, hdone, rfl⟩ := h
  obtain ⟨-, env, ctx, row, hrow, -, hl4⟩ := exists_of_ipv4Fed (σ := σ) hfed
  rw [hl4, Visitor.l4Of_feedTable hrow hdone]

/-! ## The IPv4 table of a session is a run of the table -/

/-- A call that feeds no fragment leaves the IPv4 table alone, or ages it. -/
theorem step_ipv4_unfed (h : s.ipv4Fed opts c = none) :
    (s.step σ opts c).defrag.ipv4 = s.defrag.ipv4 ∨
    (s.step σ opts c).defrag.ipv4 = (s.defrag.ipv4.evictStale s.pid).1 := by
  cases c with
  | shb b => exact Or.inl rfl
  | idb b little declaredLength =>
    refine Or.inl ?_
    change (s.feedIdb b little declaredLength).defrag.ipv4 = _
    rw [(feedIdb_pins b little declaredLength).2]
  | epb b little token kind fileOffset =>
    change (s.feedEpb σ opts b little token kind fileOffset).1.defrag.ipv4 = _ ∨
      (s.feedEpb σ opts b little token kind fileOffset).1.defrag.ipv4 = _
    unfold feedEpb
    rcases he : parseEpb b (u32 b.bytes.length) kind little with - | e
    · exact Or.inl rfl
    refine Or.inr ?_
    dsimp only
    have hwalk : (s.walked σ opts b token e).defrag.ipv4 = s.defrag.ipv4 := by
      unfold walked
      rcases hpkt : packet opts b e with - | pkt
      · rfl
      rcases hip : ipv4Of (s.linkType e) pkt with - | ⟨off, ip⟩
      · refine Visitor.ipv4_walk (v := s.visitor e pkt) _ fun ip hmem => ?_
        obtain ⟨off, hoff⟩ := ipv4Of_of_mem hmem
        rw [hip] at hoff
        cases hoff
      refine Visitor.ipv4_walk_unfed (v := s.visitor e pkt) hip fun hfed => ?_
      have hp : s.ipv4Packet opts (.epb b little token kind fileOffset)
          = some (pkt, off, ip) := by
        simp [ipv4Packet, he, hpkt, hip]
      have hfed' : Visitor.eligible ip = true ∧ opts.decodeDefrag = true ∧
          off + ip.headerBytes ≤ pkt.length := hfed
      rw [ipv4Fed, hp, Option.bind_some] at h
      dsimp only at h
      rw [if_pos hfed'] at h
      cases h
    rw [hwalk]

theorem step_ipv4 (σ : ComparisonSort) (opts : DecodeOptions) (s : Session) (c : Call) :
    ∃ ops : List (Op Ipv4Key),
      (s.step σ opts c).defrag.ipv4 = Run.after (ReassemblyTable.step σ) s.defrag.ipv4 ops ∧
      ∀ key f, .addFragment key f ∈ ops →
        ∃ ip, s.ipv4Fed opts c = some (ip, f) ∧ key = Visitor.ipv4Key ip := by
  rcases hfed : s.ipv4Fed opts c with - | ⟨ip, f⟩
  · rcases step_ipv4_unfed (σ := σ) hfed with h | h
    · exact ⟨[], h, fun _ _ hmem => by cases hmem⟩
    · exact ⟨[.evictStale s.pid], h, fun key f hmem => by simp at hmem⟩
  obtain ⟨-, env, ctx, row, -, hstep, -⟩ := exists_of_ipv4Fed (σ := σ) hfed
  rcases feedTable_table σ env ctx s.defrag.ipv4 (Visitor.ipv4Key ip) f 4 ip.protocol row with
    ⟨ht, -⟩ | ⟨ht, -⟩
  · rw [ht] at hstep
    refine ⟨[.addFragment (Visitor.ipv4Key ip) f, .evictStale s.pid], hstep, ?_⟩
    intro key g hmem
    simp only [mem_cons, Op.addFragment.injEq, reduceCtorEq, not_mem_nil, or_false] at hmem
    exact ⟨ip, by rw [hmem.2], hmem.1⟩
  · rw [ht] at hstep
    refine ⟨[.addFragment (Visitor.ipv4Key ip) f, .retire _, .evictStale s.pid], hstep, ?_⟩
    intro key g hmem
    simp only [mem_cons, Op.addFragment.injEq, reduceCtorEq, not_mem_nil, or_false] at hmem
    exact ⟨ip, by rw [hmem.2], hmem.1⟩

/-- **Over a run** the IPv4 table has made a run of its own, on the
fragments the packets carried. -/
theorem after_ipv4 {P : Ipv4Key → FragmentSpan → Prop} {calls : List Call}
    (hP : Run.Along (step σ opts)
      (fun s c => ∀ ip f, s.ipv4Fed opts c = some (ip, f) → P (Visitor.ipv4Key ip) f)
      (init opts) calls) :
    ∃ ops : List (Op Ipv4Key),
      (after σ opts calls).defrag.ipv4 = ReassemblyTable.after σ opts.ipv4Defrag ops ∧
      ∀ key f, .addFragment key f ∈ ops → P key f := by
  refine Run.inv (I := fun s : Session => ∃ ops : List (Op Ipv4Key),
    s.defrag.ipv4 = ReassemblyTable.after σ opts.ipv4Defrag ops ∧
      ∀ key f, .addFragment key f ∈ ops → P key f) ?_ ?_ hP
  · rintro s c ⟨ops, htable, hops⟩ hc
    obtain ⟨more, hstep, hmore⟩ := step_ipv4 σ opts s c
    refine ⟨ops ++ more, ?_, fun key f hmem => ?_⟩
    · rw [hstep, htable, ReassemblyTable.after, ReassemblyTable.after, Run.after_append]
    · rcases mem_append.1 hmem with h | h
      · exact hops key f h
      · obtain ⟨ip, hfed, rfl⟩ := hmore key f h
        exact hc ip f hfed
  · exact ⟨[], rfl, fun _ _ hmem => by cases hmem⟩

/-- Every fragment of the run under `key` is cut from `D`. -/
abbrev CutAlong (σ : ComparisonSort) (opts : DecodeOptions) (key : Ipv4Key) (D : Bytes)
    (calls : List Call) : Prop :=
  Run.Along (step σ opts) (fun s c => ∀ ip f, s.ipv4Fed opts c = some (ip, f) →
    Visitor.ipv4Key ip = key → CutFrom D f) (init opts) calls

/-- **A datagram split into fragments and reassembled**: whatever else a
run carries, what completes under the datagram's key is the datagram. -/
theorem reassembles_of_cut {key : Ipv4Key} (hD : D.length < 2 ^ 32)
    {calls : List Call} (hcut : CutAlong σ opts key D (calls ++ [c]))
    (hroom : (after σ opts (calls ++ [c])).defrag.ipv4.opened < 2 ^ 32)
    (hfed : (after σ opts calls).ipv4Fed opts c = some (ip, f)) (hkey : Visitor.ipv4Key ip = key)
    (hdone : ((after σ opts calls).defrag.ipv4.addFragment σ key f).2.completed = true) :
    Reassembles σ opts (after σ opts calls) c key.proto D := by
  rw [CutAlong, Run.along_append] at hcut
  obtain ⟨hpre, hlast, -⟩ := hcut
  obtain ⟨ops, htable, hops⟩ := after_ipv4
    (P := fun k g => k = key → CutFrom D g) hpre
  have hopened : ((after σ opts calls).defrag.ipv4.addFragment σ key f).1.opened < 2 ^ 32 := by
    obtain ⟨-, env, ctx, row, -, hstep, -⟩ := exists_of_ipv4Fed (σ := σ) hfed
    have hafter : after σ opts (calls ++ [c]) = (after σ opts calls).step σ opts c :=
      Run.after_append
    rw [hafter, hstep, hkey] at hroom
    rw [← opened_feedTable σ env ctx key f 4 ip.protocol row]
    exact hroom
  have hsmall := lt_of_le_of_lt opened_le_addFragment hopened
  refine ⟨ip, f, hfed, by rw [← hkey]; rfl, by rw [hkey]; exact hdone, ?_⟩
  rw [hkey]
  rw [htable] at hopened hsmall hdone ⊢
  exact ((holds_after hD (fun g hg => hops key g hg rfl) hsmall).add_own (indexed_after hsmall)
    (hlast ip f hfed hkey) hD hopened).2 hdone

/-- **When fragmentation is transparent to L4.** Wherever a datagram `D` that a
packet carries whole is put together from fragments, the L4 row body and the
payload are those of the whole packet exactly when `D` has nothing between its
header's fixed part and its payload and no byte behind its payload. And where a
run's fragments under the key are cut from `D`, `D` is what is put together. -/
theorem fragmentation_transparent_iff (σ : ComparisonSort) (opts : DecodeOptions) (key : Ipv4Key)
    (D : Bytes) (s : Session) (whole : Call) (hwhole : CarriesWhole opts s whole key.proto D) :
    (∀ s' last, Reassembles σ opts s' last key.proto D →
      (l4Of (s.feed σ opts whole).2.2 = l4Of (s'.feed σ opts last).2.2 ↔ Transparent key.proto D)) ∧
    ∀ calls last ip f, D.length < 2 ^ 32 → CutAlong σ opts key D (calls ++ [last]) →
      (after σ opts (calls ++ [last])).defrag.ipv4.opened < 2 ^ 32 →
      (after σ opts calls).ipv4Fed opts last = some (ip, f) → Visitor.ipv4Key ip = key →
      ((after σ opts calls).defrag.ipv4.addFragment σ key f).2.completed = true →
      Reassembles σ opts (after σ opts calls) last key.proto D := by
  refine ⟨fun s' last hlast => ?_, fun calls last ip f hD hcut hroom hfed hkey hdone => ?_⟩
  · rw [hwhole.l4Of_feed, hlast.l4Of_feed, wholeL4_eq_iff]
  · exact reassembles_of_cut hD hcut hroom hfed hkey hdone

/-! ## A TCP header with an option -/

/-- A packet block with an IPv4 packet that carries `payload` as TCP. -/
def tcpEpb (flags fragOffset : UInt8) (payload : Bytes) : Block where
  bytes := [6, 0, 0, 0, .ofNat (payload.length + 68), 0, 0, 0, 0, 0, 0, 0, 0, 0, 0, 0, 0, 0, 0, 0,
      .ofNat (payload.length + 34), 0, 0, 0, .ofNat (payload.length + 34), 0, 0, 0,
      2, 0, 0, 0, 0, 1, 2, 0, 0, 0, 0, 2, 8, 0,
      0x45, 0, 0, .ofNat (payload.length + 20), 0, 7, flags, fragOffset, 64, 6, 0, 0,
      10, 0, 0, 1, 10, 0, 0, 2]
    ++ payload ++ [0, 0, .ofNat (payload.length + 68), 0, 0, 0]
  past := fun _ => 0

/-- A TCP segment: the header's fixed part, an option, eight bytes. -/
def segment : Bytes :=
  [0x12, 0x34, 0, 80, 0, 0, 0, 1, 0, 0, 0, 2, 0x60, 0x10, 2, 0, 0, 0, 0, 0,
    2, 4, 5, 0xb4, 1, 2, 3, 4, 5, 6, 7, 8]

def segmentKey : Ipv4Key := ⟨[10, 0, 0, 1], [10, 0, 0, 2], 6, 7⟩

/-- The segment in one packet. -/
def wholeSegment : Call := .epb (tcpEpb 0 0 segment) true 0 .epb 0

/-- Its first half. -/
def headSegment : Call := .epb (tcpEpb 0x20 0 (segment.take 16)) true 0 .epb 0

/-- Its second half. -/
def tailSegment : Call := .epb (tcpEpb 0 2 (segment.drop 16)) true 0 .epb 0

/-- The session the whole segment is fed to. -/
def segmentStart : Session := after .insertion {} [.idb ethernetIdb true 0]

/-- The session its first half completes it in. -/
def segmentHalfway : Session := after .insertion {} [.idb ethernetIdb true 0, tailSegment]

/-- The IPv4 header of a packet with the segment or a part of it. -/
def segmentIpv4 (totalLength flags fragOffset : ℕ) : Ipv4 :=
  ⟨4, 5, 0, 0, totalLength, 7, flags, fragOffset, 64, 6, 0, [10, 0, 0, 1], [10, 0, 0, 2]⟩

theorem carriesWhole_segment : CarriesWhole {} segmentStart wholeSegment segmentKey.proto segment :=
  ⟨subspan (tcpEpb 0 0 segment).bytes 28 66, 14, segmentIpv4 52 0 0, by decide +kernel,
    by decide +kernel, by decide +kernel, by decide +kernel, by decide +kernel⟩

theorem reassembles_segment :
    Reassembles .insertion {} segmentHalfway headSegment segmentKey.proto segment :=
  ⟨segmentIpv4 36 1 0, ⟨0, 1, true, segment.take 16, 0⟩, by decide +kernel, by decide +kernel,
    by decide +kernel, by decide +kernel⟩

theorem fragmentation_transparent_iff_segment :
    CarriesWhole {} segmentStart wholeSegment segmentKey.proto segment ∧
    Reassembles .insertion {} segmentHalfway headSegment segmentKey.proto segment ∧
    (l4Of (segmentStart.feed .insertion {} wholeSegment).2.2
        = l4Of (segmentHalfway.feed .insertion {} headSegment).2.2 ↔
      Transparent segmentKey.proto segment) :=
  ⟨carriesWhole_segment, reassembles_segment,
    (fragmentation_transparent_iff .insertion {} segmentKey segment segmentStart wholeSegment
      carriesWhole_segment).1 segmentHalfway headSegment reassembles_segment⟩

/-- **An option handed on as payload.** The segment's header is six words
long. From the whole packet the eight bytes behind it are handed on; put
together from its halves, the option is handed on with them. -/
theorem option_in_payload :
    CarriesWhole {} segmentStart wholeSegment segmentKey.proto segment ∧
    Reassembles .insertion {} segmentHalfway headSegment segmentKey.proto segment ∧
    l4Of (segmentStart.feed .insertion {} wholeSegment).2.2
      = [.tcp ⟨0x1234, 80, 1, 2, 6, 0, 16, 512, 0, 0⟩, .payload [1, 2, 3, 4, 5, 6, 7, 8]] ∧
    l4Of (segmentHalfway.feed .insertion {} headSegment).2.2
      = [.tcp ⟨0x1234, 80, 1, 2, 6, 0, 16, 512, 0, 0⟩,
        .payload [2, 4, 5, 0xb4, 1, 2, 3, 4, 5, 6, 7, 8]] := by
  refine ⟨carriesWhole_segment, reassembles_segment, ?_, ?_⟩
  · decide +kernel
  · rw [reassembles_segment.l4Of_feed]
    decide +kernel

end Session

end Decode

end Nanom
