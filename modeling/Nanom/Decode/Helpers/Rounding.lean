import Nanom.Decode.Pins
import Nanom.Defrag.Index
/-!
# Helpers — ids that come round

A fragment that is a whole datagram completes as it arrives, so a run of
`n` of them opens `n` datagrams and leaves `n` entries (`RoundingAt`).
The ids are 32 bits wide: the datagram after `2 ^ 32` of them lands on
the first one's entry. What it finds there depends on whether the first
was retired.
-/

namespace Nanom.Decode.Session

open Wire Defrag ReassemblyTable List Bool Reassembly

variable {r : Reassembly}

/-! ## The packet -/

/-- An IPv6 packet with a Fragment header, offset 0, no more fragments, and
one byte behind it. -/
def atomicPacket (x : UInt8) : Bytes :=
  [2, 0, 0, 0, 0, 1, 2, 0, 0, 0, 0, 2, 0x86, 0xdd,
    0x60, 0, 0, 0, 0, 9, 44, 64, 0x20, 1, 0, 0, 0, 0, 0, 0, 0, 0, 0, 0, 0, 0, 0, 1,
    0x20, 1, 0, 0, 0, 0, 0, 0, 0, 0, 0, 0, 0, 0, 0, 2, 59, 0, 0, 0, 0, 0, 0, 1, x]

/-- Its block. -/
def atomicEpb (x : UInt8) : Block where
  bytes := [6, 0, 0, 0, 96, 0, 0, 0, 0, 0, 0, 0, 0, 0, 0, 0, 0, 0, 0, 0, 63, 0, 0, 0, 63, 0, 0, 0]
    ++ atomicPacket x ++ [0, 96, 0, 0, 0]
  past := fun _ => 0

/-- Options under which `2 ^ 32` datagrams stay in the table. -/
def wide : DecodeOptions :=
  { ipv6Defrag := { maxConcurrent := 2 ^ 33, timeoutTicks := 2 ^ 40 } }

def atomicView : EpbView := ⟨0, 0, 63, 63, 28⟩

def atomicIpv6 : Ipv6 where
  version := 6
  trafficClass := 0
  flowLabel := 0
  payloadLength := 9
  nextHeader := 44
  hopLimit := 64
  src := [32, 1, 0, 0, 0, 0, 0, 0, 0, 0, 0, 0, 0, 0, 0, 1]
  dst := [32, 1, 0, 0, 0, 0, 0, 0, 0, 0, 0, 0, 0, 0, 0, 2]

/-- The walk of the packet. -/
def atomicCalls : List WalkEvent :=
  [.offset 0, .eth ⟨[2, 0, 0, 0, 0, 1], [2, 0, 0, 0, 0, 2], 34525⟩, .l2Done 34525 14, .offset 14,
    .ipv6 atomicIpv6, .offset 54, .fragment ⟨59, 0, 0, 1⟩, .offset 62]

theorem atomic_parsed : ∀ x ∈ [1, 2],
    parseEpb (atomicEpb x) (u32 (atomicEpb x).bytes.length) .epb true = some atomicView ∧
    packet wide (atomicEpb x) atomicView = some (atomicPacket x) ∧
    (walkPacketExt 1 (atomicPacket x)).1 = atomicCalls := by decide +kernel

def atomicKey : Ipv6Key := ⟨atomicIpv6.src, atomicIpv6.dst, 1⟩

/-- The fragment it carries. -/
def atomicSpan (token : Token) (pid : ℕ) (x : UInt8) : FragmentSpan := ⟨0, pid, false, [x], token⟩

def atomicRow (pid id : ℕ) : Row := .ipv6Frag ⟨pid, id, 0, false, true, true⟩

def atomicCtx (pid : ℕ) (x : UInt8) : DecodeCtx where
  packetId := pid
  linkType := 1
  ethertype := 34525
  ipVersion := 6
  pkt := atomicPacket x
  l2End := 14

/-- The output is a row of the `datagram` table. -/
def isDatagram : Output → Bool
  | .push (.datagram _) => true
  | _ => false

variable {σ : ComparisonSort} {s : Session} {token : Token} {x : UInt8}

/-- What feeding its fragment does. -/
abbrev fedAtomic (σ : ComparisonSort) (s : Session) (token : Token) (x : UInt8) : Feeding Ipv6Key :=
  feedTable σ ⟨token, s.tracking || decide (token ≠ kNoToken), true⟩ (atomicCtx s.pid x)
    s.defrag.ipv6 atomicKey (atomicSpan token s.pid x) 6 59 (atomicRow s.pid)

theorem walked_atomic (σ : ComparisonSort) (token : Token) (x : UInt8) (hx : x ∈ [1, 2])
    (hlink : s.ifaceLink = [1]) :
    (s.walked σ wide (atomicEpb x) token atomicView).defrag
      = ⟨s.defrag.ipv4, (fedAtomic σ s token x).table⟩ ∧
    (s.walked σ wide (atomicEpb x) token atomicView).log.countP isDatagram
      = (fedAtomic σ s token x).log.countP isDatagram := by
  obtain ⟨-, hpkt, hcalls⟩ := atomic_parsed x hx
  have hl : s.linkType atomicView = 1 := by rw [linkType, hlink]; rfl
  unfold walked
  rw [hpkt]
  dsimp only
  unfold walkPacket visitor
  rw [hl, hcalls]
  exact ⟨rfl, rfl⟩

/-! ## The table -/

/-- What a table has after `n` complete fragments. -/
structure Rounding (token : Token) (n : ℕ) (t : ReassemblyTable Ipv6Key) : Prop where
  cfg : t.cfg = wide.ipv6Defrag
  keys : ∀ k, t.keyToId.find? k = none
  opened : t.opened = n
  size : t.byId.size ≤ n
  ids : ∀ id r, t.byId.find? id = some r → ∃ m < n, id = u32 (m + 1) ∧ r.lastPacketId = m
  first : 0 < n → ∃ r, t.byId.find? 1 = some r ∧
    r.fragments = if token = kNoToken then [atomicSpan kNoToken 0 1] else []

variable {n : ℕ} {t : ReassemblyTable Ipv6Key}

theorem rounding_init : Rounding token 0 (ReassemblyTable.init wide.ipv6Defrag) where
  cfg := rfl
  keys _ := rfl
  opened := rfl
  size := le_refl 0
  ids id r h := by cases h
  first h := by cases h

theorem Rounding.slot (h : Rounding token n t) (hn : n < 2 ^ 33) (pid : ℕ) :
    ∃ s, t.slot atomicKey pid = some s ∧ s.id = u32 (n + 1) ∧ s.table = t.create atomicKey pid := by
  have hsize := h.size
  have hsome : t.slot atomicKey pid ≠ none := by
    rw [Ne, slot_eq_none_iff, h.cfg]
    rintro ⟨-, hcap⟩
    change 2 ^ 33 ≤ _ at hcap
    omega
  obtain ⟨s, hs⟩ := Option.ne_none_iff_exists'.1 hsome
  rcases slot_cases hs with ⟨hid, -⟩ | ⟨-, -, ht, hid⟩
  · rw [h.keys] at hid
    cases hid
  · exact ⟨s, hs, by rw [hid, nextId, h.opened], ht⟩

theorem evictStale_quiet (hcfg : t.cfg = wide.ipv6Defrag) {now : ℕ} (hnow : now ≤ 2 ^ 32)
    (hlast : ∀ id r, t.byId.find? id = some r → r.lastPacketId ≤ now) :
    (∀ id r, t.byId.find? id = some r → r.agedOut t.cfg now = false) ∧
    (t.evictStale now).2 = [] := by
  have hkeep : ∀ id r, t.byId.find? id = some r → r.agedOut t.cfg now = false := by
    intro id r hr
    have hle := hlast id r hr
    have hticks : t.cfg.timeoutTicks = 2 ^ 40 := by rw [hcfg]; rfl
    unfold agedOut
    rw [u64_of_lt (by omega), or_eq_false_iff, decide_eq_false_iff_not,
      decide_eq_false_iff_not, kNoPacket]
    omega
  refine ⟨hkeep, ?_⟩
  have hstale : t.stale now = [] := by
    refine filter_eq_nil_iff.2 fun e he => ?_
    rw [hkeep e.1 e.2 (Assoc.mem_entries_iff.1 he)]
    exact false_ne_true
  change (t.stale now).map _ = []
  rw [hstale]
  rfl

theorem Rounding.evictStale (h : Rounding token (n + 1) t) (hn : n < 2 ^ 32) :
    Rounding token (n + 1) (t.evictStale n).1 ∧ (t.evictStale n).2 = [] := by
  obtain ⟨hkeep, hnone⟩ := evictStale_quiet h.cfg (by omega : n ≤ 2 ^ 32) fun id r hr => by
    obtain ⟨m, hm, -, hlast⟩ := h.ids id r hr
    omega
  have hfind : ∀ id r, (t.evictStale n).1.byId.find? id = some r ↔ t.byId.find? id = some r :=
    fun id r => find?_evictStale.trans (and_iff_left_of_imp (hkeep id r))
  refine ⟨⟨h.cfg, fun k => ?_, h.opened, le_trans Assoc.size_filter_le h.size,
    fun id r hr => h.ids id r ((hfind id r).1 hr), fun hpos => ?_⟩, hnone⟩
  · rcases hk : (t.evictStale n).1.keyToId.find? k with - | id
    · rfl
    · have := (keyToId_evictStale.1 hk).1
      rw [h.keys] at this
      cases this
  · obtain ⟨r, hr, hfrag⟩ := h.first hpos
    exact ⟨r, (hfind 1 r).2 hr, hfrag⟩

theorem absorb_atomic (hr : r.fragments = []) (token : Token) (pid : ℕ) (x : UInt8) :
    (r.absorb σ wide.ipv6Defrag (atomicSpan token pid x)).2
      = { completed := true, retained := true, parts := [[x]] } ∧
    (r.absorb σ wide.ipv6Defrag (atomicSpan token pid x)).1.completed = true ∧
    (r.absorb σ wide.ipv6Defrag (atomicSpan token pid x)).1.fragments
      = [atomicSpan token pid x] := by
  have hstored : r.storedBytes = 0 := by rw [storedBytes, hr]; rfl
  have hmax : wide.ipv6Defrag.maxDatagramBytes = 65536 := rfl
  have hlen : (atomicSpan token pid x).data.length = 1 := rfl
  have hstitch : (r.stored (atomicSpan token pid x)).stitch σ = .complete [[x]] := by
    unfold stitch
    rw [stored_fragments, hr, nil_append, ComparisonSort.sort_singleton]
    rfl
  rw [absorb_of_complete (by omega) hstitch]
  refine ⟨rfl, rfl, ?_⟩
  rw [stored_fragments, hr]
  rfl

/-- One more entry is in the table, and all else is as it was. -/
structure Landed (n : ℕ) (r : Reassembly) (t t' : ReassemblyTable Ipv6Key) : Prop where
  cfg : t'.cfg = t.cfg
  keys : ∀ k, t'.keyToId.find? k = none
  opened : t'.opened = n + 1
  size : t'.byId.size ≤ n + 1
  last : r.lastPacketId = n
  find : ∀ id, t'.byId.find? id = if id = u32 (n + 1) then some r else t.byId.find? id

variable {t' : ReassemblyTable Ipv6Key}

theorem Rounding.landed (h : Rounding token n t) (hn : n < 2 ^ 32) (hland : Landed n r t t')
    (hfrag : n = 0 → r.fragments = if token = kNoToken then [atomicSpan kNoToken 0 1] else []) :
    Rounding token (n + 1) t' where
  cfg := hland.cfg.trans h.cfg
  keys := hland.keys
  opened := hland.opened
  size := hland.size
  ids id r' hr' := by
    rw [hland.find] at hr'
    split at hr'
    · rename_i hid
      cases hr'
      exact ⟨n, Nat.lt_succ_self n, hid, hland.last⟩
    · obtain ⟨m, hm, hid, hlast⟩ := h.ids id r' hr'
      exact ⟨m, Nat.lt_succ_of_lt hm, hid, hlast⟩
  first _ := by
    rcases Nat.eq_zero_or_pos n with h0 | hpos
    · exact ⟨r, by rw [hland.find, h0]; rfl, hfrag h0⟩
    obtain ⟨r₁, hr₁, hf₁⟩ := h.first hpos
    have hne : 1 ≠ u32 (n + 1) := by unfold u32; omega
    exact ⟨r₁, by rw [hland.find, if_neg hne, hr₁], hf₁⟩

theorem Landed.retire (h : Landed n r t t') (hdone : r.completed = true)
    (hret : r.retired = false) : Landed n r.retiredEntry t (t'.retire (u32 (n + 1))).1 := by
  have hr : t'.byId.find? (u32 (n + 1)) = some r := by rw [h.find, if_pos rfl]
  have hretire : (t'.retire (u32 (n + 1))).1 = t'.store (u32 (n + 1)) r.retiredEntry := by
    rw [ReassemblyTable.retire, hr]
    simp [hdone, hret, retiredEntry]
  rw [hretire]
  refine ⟨h.cfg, h.keys, h.opened, le_trans (le_of_eq Assoc.size_modify) h.size, h.last,
    fun id => ?_⟩
  change (t'.byId.modify _ _).find? id = _
  rw [Assoc.find?_modify, hr, h.find]
  split <;> rfl

theorem Rounding.addFragment (h : Rounding token n t) (hn : n < 2 ^ 32) :
    (t.addFragment σ atomicKey (atomicSpan token n 1)).2
      = { datagramId := u32 (n + 1), completed := true, retained := true, parts := [[1]] } ∧
    ∃ r, r.completed = true ∧ r.retired = false ∧ r.fragments = [atomicSpan token n 1] ∧
      Landed n r t (t.addFragment σ atomicKey (atomicSpan token n 1)).1 := by
  obtain ⟨s, hs, hid, ht⟩ := h.slot (by omega) (atomicSpan token n 1).packetId
  have hnew : s.entry = { datagramId := s.id, firstPacketId := n } := by
    rcases slot_entry hs with hold | ⟨-, he⟩
    · -- the ids given so far are those of fewer than `2 ^ 32` datagrams
      obtain ⟨m, hm, heq, -⟩ := h.ids _ _ hold
      rw [hid] at heq
      unfold u32 at heq
      omega
    · exact he
  obtain ⟨hout, hdone, hfrag⟩ := absorb_atomic (σ := σ) (r := s.entry) (by rw [hnew]) token n 1
  rw [← h.cfg] at hout hdone hfrag
  refine ⟨by rw [addFragment_of_slot hs, hout, hid], _, hdone, ?_, hfrag, cfg_addFragment,
    fun k => ?_, ?_, ?_, absorb_lastPacketId, fun id => ?_⟩
  · rw [absorb_retired, hnew]
  · rw [keyToId_addFragment_of_slot hs, hout, h.keys]
    exact ite_self _
  · rw [opened_addFragment_of_slot hs, ht, ← h.opened]
    rfl
  · rw [size_addFragment_of_slot hs, ht]
    exact le_trans Assoc.size_emplace_le (Nat.add_le_add_right h.size 1)
  · rw [find?_addFragment_of_slot hs, hid]

section

variable (env : VisitorEnv) (c : DecodeCtx) (f : FragmentSpan) (pid : ℕ)

theorem feedTable_completed (h : (t.addFragment σ atomicKey f).2.completed = true) :
    let fed := feedTable σ env c t atomicKey f 6 59 (atomicRow pid)
    fed.log.countP isDatagram = 1 ∧
    fed.table = if env.retires then
      ((t.addFragment σ atomicKey f).1.retire (t.addFragment σ atomicKey f).2.datagramId).1
      else (t.addFragment σ atomicKey f).1 := by
  unfold feedTable completeDatagram
  dsimp only
  rw [if_pos h]
  split
  · exact ⟨rfl, rfl⟩
  · exact ⟨rfl, rfl⟩

theorem feedTable_incomplete (h : (t.addFragment σ atomicKey f).2.completed = false) :
    let fed := feedTable σ env c t atomicKey f 6 59 (atomicRow pid)
    fed.log.countP isDatagram = 0 ∧ fed.table = (t.addFragment σ atomicKey f).1 := by
  unfold feedTable
  dsimp only
  rw [if_neg (by rw [h]; exact false_ne_true)]
  exact ⟨rfl, rfl⟩

end

theorem absorb_conflict (hr : r.fragments = [atomicSpan kNoToken 0 1]) :
    (r.absorb .insertion wide.ipv6Defrag (atomicSpan token (2 ^ 32) 2)).2.completed = false := by
  have hstitch : (r.stored (atomicSpan token (2 ^ 32) 2)).stitch .insertion = .conflict := by
    unfold stitch
    rw [stored_fragments, hr]
    rfl
  rcases absorb_cases .insertion wide.ipv6Defrag r (atomicSpan token (2 ^ 32) 2) with
    ⟨-, he⟩ | ⟨-, ⟨-, he⟩ | ⟨-, he⟩ | ⟨parts, hst, -⟩⟩
  · rw [he]
  · rw [he]
  · rw [he]
  · rw [hstitch] at hst
    cases hst

/-- One more datagram, completed and its row written. Its entry is retired
only where tokens are tracked. -/
theorem Rounding.feed (h : Rounding token n t) (hn : n < 2 ^ 32) (c : DecodeCtx) (pid : ℕ) :
    let fed := feedTable σ ⟨token, decide (token ≠ kNoToken), true⟩ c t atomicKey
      (atomicSpan token n 1) 6 59 (atomicRow pid)
    Rounding token (n + 1) fed.table ∧ fed.log.countP isDatagram = 1 := by
  obtain ⟨hout, r, hdone, hret, hfrag, hland⟩ := h.addFragment (σ := σ) hn
  obtain ⟨hlog, htable⟩ := feedTable_completed (σ := σ) (t := t)
    ⟨token, decide (token ≠ kNoToken), true⟩ c (atomicSpan token n 1) pid (by rw [hout])
  refine ⟨?_, hlog⟩
  rw [htable, hout]
  by_cases htok : token = kNoToken
  · rw [if_neg (by simp [htok])]
    exact h.landed hn hland fun h0 => by rw [if_pos htok, hfrag, htok, h0]
  · -- the entry stays, without its span
    rw [if_pos (by simpa using htok)]
    exact h.landed hn (hland.retire hdone hret) fun _ => (if_neg htok).symm

/-- The datagram after `2 ^ 32` lands on the first one's entry. It is
completed only if that entry's span was dropped. -/
theorem Rounding.feed_round (h : Rounding token (2 ^ 32) t) (c : DecodeCtx) (pid : ℕ) :
    let fed := feedTable .insertion ⟨token, decide (token ≠ kNoToken), true⟩ c t atomicKey
      (atomicSpan token (2 ^ 32) 2) 6 59 (atomicRow pid)
    fed.log.countP isDatagram = (if token = kNoToken then 0 else 1) ∧
    (fed.table.evictStale (2 ^ 32)).2 = [] := by
  obtain ⟨s, hs, hid, -⟩ := h.slot (by decide) (atomicSpan token (2 ^ 32) 2).packetId
  obtain ⟨r, hr, hfrag⟩ := h.first (by decide)
  have hentry : s.entry = r := by
    have hid1 : s.id = 1 := hid
    rcases slot_entry hs with hold | ⟨hnone, -⟩
    · rw [hid1, hr] at hold
      exact (Option.some.inj hold).symm
    · rw [hid1, hr] at hnone
      cases hnone
  have hcompleted : (t.addFragment .insertion atomicKey (atomicSpan token (2 ^ 32) 2)).2.completed
      = (r.absorb .insertion wide.ipv6Defrag (atomicSpan token (2 ^ 32) 2)).2.completed := by
    rw [addFragment_of_slot hs, hentry, h.cfg]
  have hquiet : ∀ id r', (t.addFragment .insertion atomicKey
      (atomicSpan token (2 ^ 32) 2)).1.byId.find? id = some r' → r'.lastPacketId ≤ 2 ^ 32 := by
    intro id r' hr'
    rcases find?_addFragment hr' with hold | ⟨r₀, -, rfl⟩
    · obtain ⟨m, hm, -, hlast⟩ := h.ids id r' hold
      omega
    · exact le_of_eq absorb_lastPacketId
  have hcfg : (t.addFragment .insertion atomicKey (atomicSpan token (2 ^ 32) 2)).1.cfg
      = wide.ipv6Defrag := cfg_addFragment.trans h.cfg
  by_cases htok : token = kNoToken
  · -- the first span is still there and disagrees
    rw [if_pos htok] at hfrag ⊢
    rw [absorb_conflict hfrag] at hcompleted
    obtain ⟨hlog, htable⟩ := feedTable_incomplete (t := t)
      ⟨token, decide (token ≠ kNoToken), true⟩ c (atomicSpan token (2 ^ 32) 2) pid hcompleted
    dsimp only
    rw [htable]
    exact ⟨hlog, (evictStale_quiet hcfg (le_refl _) hquiet).2⟩
  · rw [if_neg htok] at hfrag ⊢
    rw [(absorb_atomic hfrag token (2 ^ 32) 2).1] at hcompleted
    obtain ⟨hlog, htable⟩ := feedTable_completed (t := t)
      ⟨token, decide (token ≠ kNoToken), true⟩ c (atomicSpan token (2 ^ 32) 2) pid hcompleted
    dsimp only at htable ⊢
    rw [htable, if_pos (by simpa using htok)]
    refine ⟨hlog, (evictStale_quiet (cfg_retire.trans hcfg) (le_refl _) fun id r' hr' => ?_).2⟩
    rcases find?_retire hr' with hold | ⟨r₀, hr₀, -, rfl⟩
    · exact hquiet id r' hold
    · exact hquiet id r₀ hr₀

/-! ## The session -/

/-- A session after `n` complete fragments. -/
structure RoundingAt (token : Token) (n : ℕ) (s : Session) : Prop where
  link : s.ifaceLink = [1]
  pid : s.pid = n
  ipv4 : s.defrag.ipv4 = ReassemblyTable.init wide.ipv4Defrag
  ipv6 : Rounding token n s.defrag.ipv6
  tracking : (s.tracking || decide (token ≠ kNoToken)) = decide (token ≠ kNoToken)

theorem RoundingAt.feedEpb (h : RoundingAt token n s) (hn : n < 2 ^ 32) :
    let out := s.feedEpb σ wide (atomicEpb 1) true token .epb 0
    RoundingAt token (n + 1) out.1 ∧ out.2.2.countP isDatagram = 1 := by
  obtain ⟨hparse, -, -⟩ := atomic_parsed 1 (by decide)
  obtain ⟨hd, hlog⟩ := walked_atomic σ token 1 (by decide) h.link
  obtain ⟨hfed, hcount⟩ := h.ipv6.feed (σ := σ) hn (atomicCtx n 1) n
  unfold fedAtomic at hd hlog
  rw [h.pid, h.tracking] at hd hlog
  obtain ⟨hleft, hgone⟩ := hfed.evictStale hn
  unfold Session.feedEpb
  rw [hparse]
  dsimp only
  rw [hd, h.pid, h.ipv4]
  refine ⟨⟨h.link, ?_, rfl, hleft, ?_⟩, ?_⟩
  · exact u64_of_lt (by omega)
  · rw [h.tracking, Bool.or_self]
  · rw [hgone]
    change countP isDatagram (_ :: (_ ++ []) ++ []) = 1
    rw [append_nil, append_nil, countP_cons_of_neg Bool.false_ne_true, hlog, hcount]

theorem RoundingAt.feedEpb_round (h : RoundingAt token (2 ^ 32) s) :
    (s.feedEpb .insertion wide (atomicEpb 2) true token .epb 0).2.2.countP isDatagram
      = if token = kNoToken then 0 else 1 := by
  obtain ⟨hparse, -, -⟩ := atomic_parsed 2 (by decide)
  obtain ⟨hd, hlog⟩ := walked_atomic .insertion token 2 (by decide) h.link
  obtain ⟨hcount, hgone⟩ := h.ipv6.feed_round (atomicCtx (2 ^ 32) 2) (2 ^ 32)
  unfold fedAtomic at hd hlog
  rw [h.pid, h.tracking] at hd hlog
  unfold Session.feedEpb
  rw [hparse]
  dsimp only
  rw [hd, h.pid, h.ipv4]
  rw [hgone]
  change countP isDatagram (_ :: (_ ++ []) ++ []) = _
  rw [append_nil, append_nil, countP_cons_of_neg Bool.false_ne_true, hlog, hcount]

/-- `n` complete fragments, all alike. -/
def atomics (token : Token) (n : ℕ) : List Call :=
  List.replicate n (.epb (atomicEpb 1) true token .epb 0)

theorem RoundingAt.atomics (h : RoundingAt token n s) (k : ℕ) (hk : n + k ≤ 2 ^ 32) :
    RoundingAt token (n + k) (Run.after (step σ wide) s (atomics token k)) ∧
    (runLog σ wide s (Session.atomics token k)).countP isDatagram = k := by
  induction k generalizing n s with
  | zero => exact ⟨h, rfl⟩
  | succ k ih =>
    obtain ⟨hnext, hone⟩ := h.feedEpb (σ := σ) (by omega)
    obtain ⟨hrest, hcount⟩ := ih hnext (by omega)
    have hcons : Session.atomics token (k + 1)
        = .epb (atomicEpb 1) true token .epb 0 :: Session.atomics token k := replicate_succ
    rw [hcons, runLog, countP_append, Run.after_cons]
    refine ⟨by rw [Nat.add_right_comm] at hrest; exact hrest, ?_⟩
    change countP isDatagram (s.feedEpb σ wide (atomicEpb 1) true token .epb 0).2.2
      + countP isDatagram (runLog σ wide _ _) = k + 1
    rw [hone, add_comm]
    exact congrArg (· + 1) hcount

/-- The rows of the `datagram` table after a run, with no protocol
registered. -/
def datagramRows (opts : DecodeOptions) (calls : List Call) : ℕ :=
  (render ([] : List (Protocol Unit Unit)) opts ⟨(), []⟩
    (runLog .insertion opts (init opts) calls)).rows.countP fun r =>
      match r with
      | .inl (.datagram _) => true
      | _ => false

theorem datagramRows_eq (opts : DecodeOptions) (calls : List Call) : datagramRows opts calls
    = (runLog .insertion opts (init opts) calls).countP isDatagram := by
  have hrender : ∀ (log : List Output) (w : World Unit Unit),
      (render [] opts w log).rows.countP (fun r =>
        match r with
        | .inl (.datagram _) => true
        | _ => false) = w.rows.countP (fun r =>
        match r with
        | .inl (.datagram _) => true
        | _ => false) + log.countP isDatagram := by
    intro log
    induction log with
    | nil => intro w; rfl
    | cons o log ih =>
      intro w
      rw [render, foldl_cons, ← render, ih, countP_cons]
      cases o with
      | push r =>
        rw [countP_append, add_assoc, add_comm (countP isDatagram log)]
        cases r <;> rfl
      | dispatch l c payload => rfl
  exact (hrender _ _).trans (zero_add _)

/-- `2 ^ 32` fragments complete in themselves, and one more with another
payload. -/
def roundCalls (token : Token) : List Call :=
  .idb ethernetIdb true 0 :: (atomics token (2 ^ 32) ++ [.epb (atomicEpb 2) true token .epb 0])

theorem roundCalls_untag (token : Token) :
    (roundCalls token).map Call.untag = roundCalls kNoToken := by
  rw [roundCalls, map_cons, map_append, atomics, map_replicate]
  rfl

theorem runLog_append (s : Session) (cs ds : List Call) : runLog σ wide s (cs ++ ds)
    = runLog σ wide s cs ++ runLog σ wide (Run.after (step σ wide) s cs) ds := by
  induction cs generalizing s with
  | nil => rfl
  | cons c cs ih => rw [cons_append, runLog, ih, runLog, append_assoc, Run.after_cons]

theorem datagramRows_roundCalls (token : Token) :
    datagramRows wide (roundCalls token) = 2 ^ 32 + if token = kNoToken then 0 else 1 := by
  have hstart : RoundingAt token 0 (step .insertion wide (init wide) (.idb ethernetIdb true 0)) :=
    ⟨rfl, rfl, rfl, rounding_init, false_or _⟩
  obtain ⟨hround, hcount⟩ := hstart.atomics (σ := .insertion) (2 ^ 32) (le_of_eq (zero_add _))
  have hidb : ((init wide).feed .insertion wide (.idb ethernetIdb true 0)).2.2 = [] := rfl
  have hlast : ∀ s, RoundingAt token (2 ^ 32) s →
      (runLog .insertion wide s [.epb (atomicEpb 2) true token .epb 0]).countP isDatagram
        = if token = kNoToken then 0 else 1 := by
    intro s hs
    rw [runLog, runLog, append_nil]
    exact hs.feedEpb_round
  rw [datagramRows_eq, roundCalls, runLog, hidb, nil_append, runLog_append,
    countP_append, hcount, hlast _ hround]

end Nanom.Decode.Session
