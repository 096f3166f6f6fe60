import Nanom.Decode.Pins
/-!
# No buffer leaks, where fragments outlive their packet

Within a call the pins of the spans aged out go before the packet's own are
added. So a span the packet itself stored must not be aged out in the same call:
its pin would be taken away before it is there, and then added for good. That
happens where an entry touched by the current packet is already stale
(`timeout_ticks = 0`, or a sum that wraps). Where it does not (`KeepsOwn`), the
pins of a token are exactly the spans that carry it.
-/

namespace Nanom

open List

namespace Defrag

/-- An entry touched at `now` is not stale at `now`. -/
structure Config.Outlives (cfg : Config) (now : ℕ) : Prop where
  ticks : 1 ≤ cfg.timeoutTicks
  fits : now + cfg.timeoutTicks < 2 ^ 64

theorem Config.Outlives.agedOut {cfg : Config} {now : ℕ} (h : cfg.Outlives now) {r : Reassembly}
    (hr : r.lastPacketId = now) : r.agedOut cfg now = false := by
  obtain ⟨hticks, hfits⟩ := h
  unfold Reassembly.agedOut
  rw [hr, u64_of_lt hfits, Bool.or_eq_false_iff, decide_eq_false_iff_not, decide_eq_false_iff_not,
    kNoPacket]
  omega

namespace ReassemblyTable

variable {Key : Type} [DecidableEq Key] {σ : ComparisonSort} {t : ReassemblyTable Key}
variable {f : FragmentSpan} {T : Token} {id now : ℕ}

/-- No entry that stores a span under `T` is stale at `now`. -/
def Kept (t : ReassemblyTable Key) (T : Token) (now : ℕ) : Prop :=
  ∀ id r, t.byId.find? id = some r → (∃ f ∈ r.fragments, f.token = T) →
    r.agedOut t.cfg now = false

theorem mem_spans {r : Reassembly} (h : t.byId.find? id = some r) (hf : f ∈ r.fragments) :
    f ∈ t.spans := mem_flatMap.2 ⟨(id, r), Assoc.mem_entries_iff.2 h, hf⟩

theorem kept_of_unused (h : tokenCount T t.spans = 0) : t.Kept T now := by
  rintro id r hr ⟨f, hf, htok⟩
  exact absurd (mem_map.2 ⟨f, mem_spans hr hf, htok⟩) (count_eq_zero.1 h)

theorem Kept.addFragment (h : t.Kept T f.packetId) (hout : t.cfg.Outlives f.packetId) (key : Key) :
    (t.addFragment σ key f).1.Kept T f.packetId := by
  intro id r hr huses
  rw [cfg_addFragment]
  rcases find?_addFragment hr with hold | ⟨r₀, -, rfl⟩
  · exact h id r hold huses
  · exact hout.agedOut Reassembly.absorb_lastPacketId

theorem Kept.retire (h : t.Kept T now) (id : ℕ) : (t.retire id).1.Kept T now := by
  intro id' r hr huses
  rw [cfg_retire]
  rcases find?_retire hr with hold | ⟨r₀, -, -, rfl⟩
  · exact h id' r hold huses
  · obtain ⟨f, hf, -⟩ := huses
    cases hf

theorem Kept.count_evicted (h : t.Kept T now) :
    ((t.evictStale now).2.flatMap ReassemblySummary.tokens).count T = 0 := by
  rw [tokens_evictStale, count_eq_zero]
  intro hmem
  obtain ⟨f, hf, htok⟩ := mem_map.1 (mem_of_mem_filter hmem)
  obtain ⟨⟨id, r⟩, he, hfr⟩ := mem_flatMap.1 hf
  obtain ⟨hr, haged⟩ := mem_filter.1 he
  have hkept := h id r (Assoc.mem_entries_iff.1 hr) ⟨f, hfr, htok⟩
  exact Bool.false_ne_true (hkept.symm.trans haged)

end ReassemblyTable

end Defrag

namespace Decode

open Wire Defrag ReassemblyTable

/-! ## One packet -/

section Feed

variable {Key : Type} [DecidableEq Key] {table : ReassemblyTable Key} {T : Token}
variable {f : FragmentSpan}

theorem feedTable_cfg (σ : ComparisonSort) (env : VisitorEnv) (c : DecodeCtx)
    (table : ReassemblyTable Key) (key : Key) (f : FragmentSpan) (ipVersion ipProto : ℕ)
    (fragRow : ℕ → Row) :
    (feedTable σ env c table key f ipVersion ipProto fragRow).table.cfg = table.cfg := by
  rcases feedTable_table σ env c table key f ipVersion ipProto fragRow with ⟨ht, -⟩ | ⟨ht, -⟩
  · rw [ht, cfg_addFragment]
  · rw [ht, cfg_retire, cfg_addFragment]

theorem feedTable_kept (h : table.Kept T f.packetId) (hout : table.cfg.Outlives f.packetId)
    (σ : ComparisonSort) (env : VisitorEnv) (c : DecodeCtx) (key : Key) (ipVersion ipProto : ℕ)
    (fragRow : ℕ → Row) :
    (feedTable σ env c table key f ipVersion ipProto fragRow).table.Kept T f.packetId := by
  have hadd := h.addFragment (σ := σ) hout key
  rcases feedTable_table σ env c table key f ipVersion ipProto fragRow with ⟨ht, -⟩ | ⟨ht, -⟩
  · rw [ht]
    exact hadd
  · rw [ht]
    exact hadd.retire _

end Feed

/-- The tables are set up with the options of the pass. -/
structure SetUp (opts : DecodeOptions) (d : DefragState) : Prop where
  ipv4 : d.ipv4.cfg = opts.ipv4Defrag
  ipv6 : d.ipv6.cfg = opts.ipv6Defrag

/-- A table a packet feeds keeps what the packet stores. -/
structure Outlasts (opts : DecodeOptions) (pid : ℕ) (calls : List WalkEvent) : Prop where
  ipv4 : ∀ ip, .ipv4 ip ∈ calls → Visitor.eligible ip = true → opts.ipv4Defrag.Outlives pid
  ipv6 : ∀ h, .fragment h ∈ calls → opts.ipv6Defrag.Outlives pid

namespace Visitor

variable {σ : ComparisonSort} {env : VisitorEnv} {opts : DecodeOptions} {T : Token} {v : Visitor}

theorem setUp_visit (σ : ComparisonSort) (env : VisitorEnv) (h : SetUp opts v.defrag)
    (e : WalkEvent) : SetUp opts (v.visit σ env e).defrag := by
  rcases visit_cases σ env v e with ⟨hd, -, -⟩ | ⟨ip, -, -, -, hfed⟩ | ⟨x, -, -, hfed⟩
  · exact hd ▸ h
  · obtain ⟨c, key, f, ipProto, fragRow, -, -, hd, -, -⟩ := hfed
    rw [hd]
    exact ⟨(feedTable_cfg σ env c _ key f 4 ipProto fragRow).trans h.ipv4, h.ipv6⟩
  · obtain ⟨c, key, f, ipProto, fragRow, -, -, hd, -, -⟩ := hfed
    rw [hd]
    exact ⟨h.ipv4, (feedTable_cfg σ env c _ key f 6 ipProto fragRow).trans h.ipv6⟩

theorem setUp_walk (h : SetUp opts v.defrag) (calls : List WalkEvent) :
    SetUp opts (v.walk σ env calls).defrag := by
  induction calls generalizing v with
  | nil => exact h
  | cons e calls ih => exact ih (setUp_visit σ env h e)

/-- Neither table would age out a span under `T` now. -/
structure Keeps (opts : DecodeOptions) (T : Token) (v : Visitor) : Prop where
  setUp : SetUp opts v.defrag
  ipv4 : v.defrag.ipv4.Kept T v.ctx.packetId
  ipv6 : v.defrag.ipv6.Kept T v.ctx.packetId

theorem Keeps.visit (h : v.Keeps opts T) (e : WalkEvent)
    (hout : env.defrags = true → Outlasts opts v.ctx.packetId [e]) :
    (v.visit σ env e).Keeps opts T := by
  have hset := setUp_visit σ env h.setUp e
  rcases visit_cases σ env v e with ⟨hd, -, -⟩ | ⟨ip, rfl, hel, hon, hfed⟩ | ⟨x, rfl, hon, hfed⟩
  · exact ⟨hset, by rw [hd, packetId_visit]; exact h.ipv4, by rw [hd, packetId_visit]; exact h.ipv6⟩
  · obtain ⟨c, key, f, ipProto, fragRow, -, hpid, hd, -, -⟩ := hfed
    have ho := (hout hon).ipv4 ip mem_cons_self hel
    rw [← h.setUp.ipv4, ← hpid] at ho
    have hkept := feedTable_kept (hpid ▸ h.ipv4) ho σ env c key 4 ipProto fragRow
    rw [hpid] at hkept
    exact ⟨hset, by rw [hd, packetId_visit]; exact hkept, by rw [hd, packetId_visit]; exact h.ipv6⟩
  · obtain ⟨c, key, f, ipProto, fragRow, -, hpid, hd, -, -⟩ := hfed
    have ho := (hout hon).ipv6 x mem_cons_self
    rw [← h.setUp.ipv6, ← hpid] at ho
    have hkept := feedTable_kept (hpid ▸ h.ipv6) ho σ env c key 6 ipProto fragRow
    rw [hpid] at hkept
    exact ⟨hset, by rw [hd, packetId_visit]; exact h.ipv4, by rw [hd, packetId_visit]; exact hkept⟩

theorem Keeps.walk (h : v.Keeps opts T) (σ : ComparisonSort) (env : VisitorEnv)
    (calls : List WalkEvent) (hout : env.defrags = true → Outlasts opts v.ctx.packetId calls) :
    (v.walk σ env calls).Keeps opts T ∧ (v.walk σ env calls).ctx.packetId = v.ctx.packetId := by
  induction calls generalizing v with
  | nil => exact ⟨h, rfl⟩
  | cons e calls ih =>
    have hhead := h.visit (σ := σ) e fun hon =>
      ⟨fun ip hip => (hout hon).ipv4 ip (mem_cons.2 (Or.inl (mem_singleton.1 hip))),
        fun x hx => (hout hon).ipv6 x (mem_cons.2 (Or.inl (mem_singleton.1 hx)))⟩
    have hrest := ih hhead fun hon => by
      rw [packetId_visit]
      exact ⟨fun ip hip => (hout hon).ipv4 ip (mem_cons_of_mem e hip),
        fun x hx => (hout hon).ipv6 x (mem_cons_of_mem e hx)⟩
    rwa [packetId_visit] at hrest

end Visitor

/-! ## The session -/

namespace Session

variable {σ : ComparisonSort} {opts : DecodeOptions} {s : Session} {token : Token} {T : Token}

/-- A fragment fed under a tracked token goes to a table that will not
age it out in the same call. -/
def KeepsOwn (opts : DecodeOptions) (s : Session) : Call → Prop
  | .epb b little token kind _ => token ≠ kNoToken → opts.decodeDefrag = true →
      ∀ e pkt, parseEpb b (u32 b.bytes.length) kind little = some e → packet opts b e = some pkt →
        Outlasts opts s.pid (walkPacketExt (s.linkType e) pkt).1
  | .shb _ => True
  | .idb _ _ _ => True

/-- The pins of a token are the spans that carry it. -/
structure Balanced (opts : DecodeOptions) (s : Session) : Prop where
  ok : PinsOk s.pins
  held_eq : ∀ T, T ≠ kNoToken → held T s.defrag = pinned s.pins T
  setUp : SetUp opts s.defrag

theorem balanced_init (opts : DecodeOptions) : Balanced opts (init opts) :=
  ⟨(accounted_init opts).ok, fun _ _ => rfl, rfl, rfl⟩

theorem Balanced.accounted (h : Balanced opts s) : Accounted s :=
  ⟨h.ok, fun T hT => le_of_eq (h.held_eq T hT)⟩

theorem Balanced.kept (h : Balanced opts s) (hT : T ≠ kNoToken) (h0 : pinned s.pins T = 0)
    (now : ℕ) : s.defrag.ipv4.Kept T now ∧ s.defrag.ipv6.Kept T now := by
  have hheld := h.held_eq T hT
  rw [held] at hheld
  exact ⟨kept_of_unused (by omega), kept_of_unused (by omega)⟩

theorem setUp_walked (h : SetUp opts s.defrag) (b : Block) (token : Token) (e : EpbView) :
    SetUp opts (s.walked σ opts b token e).defrag := by
  unfold walked
  split
  · rename_i pkt _
    exact Visitor.setUp_walk (v := s.visitor e pkt) h _
  · exact h

theorem Balanced.count_evictedTokens (h : Balanced opts s) (ht : token ≠ kNoToken)
    (h0 : pinned s.pins token = 0) {b : Block} {little : Bool} {kind : Kind} {fileOffset : ℕ}
    (hkeep : KeepsOwn opts s (.epb b little token kind fileOffset)) {e : EpbView}
    (he : parseEpb b (u32 b.bytes.length) kind little = some e) :
    (s.evictedTokens (s.walked σ opts b token e).defrag).count token = 0 := by
  obtain ⟨h4, h6⟩ := h.kept ht h0 s.pid
  have hkept : (s.walked σ opts b token e).defrag.ipv4.Kept token s.pid ∧
      (s.walked σ opts b token e).defrag.ipv6.Kept token s.pid := by
    unfold walked
    split
    · rename_i pkt hpkt
      have hstart : (s.visitor e pkt).Keeps opts token := ⟨h.setUp, h4, h6⟩
      obtain ⟨hend, hpid⟩ := hstart.walk σ
        ⟨token, s.tracking || decide (token ≠ kNoToken), opts.decodeDefrag⟩
        (walkPacketExt (s.linkType e) pkt).1 fun hon => hkeep ht hon e pkt he hpkt
      have hown : (s.visitor e pkt).ctx.packetId = s.pid := rfl
      rw [hown] at hpid
      exact ⟨hpid ▸ hend.ipv4, hpid ▸ hend.ipv6⟩
    · exact ⟨h4, h6⟩
  rw [evictedTokens, flatMap_append, count_append, hkept.1.count_evicted, hkept.2.count_evicted]

/-- **One packet block** that keeps what it stores leaves pins and spans
balanced. -/
theorem Balanced.feedEpb (h : Balanced opts s) (b : Block) (little : Bool) (kind : Kind)
    (fileOffset : ℕ) (hfresh : token ≠ kNoToken → pinned s.pins token = 0)
    (hkeep : KeepsOwn opts s (.epb b little token kind fileOffset)) :
    Balanced opts (s.feedEpb σ opts b little token kind fileOffset).1 := by
  have hok := (h.accounted.feedEpb (σ := σ) opts b little kind fileOffset hfresh).1.ok
  rcases feedEpb_cases (σ := σ) (s := s) opts b little token kind fileOffset with
    ⟨hpins, hdefrag, -⟩ | ⟨e, he, k, hk, evicted, retired, hev, hdefrag, hpins, -, -, hheld⟩
  · exact ⟨hok, by rw [hdefrag, hpins]; exact h.held_eq, by rw [hdefrag]; exact h.setUp⟩
  have hset := setUp_walked (σ := σ) h.setUp b token e
  refine ⟨hok, fun T hT => ?_, by rw [hdefrag]; exact ⟨hset.ipv4, hset.ipv6⟩⟩
  have hbefore := h.held_eq T hT
  have hafter := hheld T hT
  rw [hpins, (settle_spec h.ok hfresh (by omega : k < 2 ^ 32) evicted retired).2.1 T]
  by_cases hown : token = T
  · -- its own: none evicted, so the pins added are the spans it stored
    subst hown
    have hnone := h.count_evictedTokens (σ := σ) hT (hfresh hT) hkeep he
    rw [← hev] at hnone
    rw [if_pos rfl] at hafter
    rw [ownPins_self k hT]
    omega
  · rw [if_neg hown] at hafter
    rw [ownPins_other k fun hn => hown hn.2]
    omega

theorem Balanced.step (h : Balanced opts s) (c : Call)
    (hfresh : c.token ≠ kNoToken → s.pins.find? c.token = none) (hkeep : KeepsOwn opts s c) :
    Balanced opts (s.step σ opts c) := by
  cases c with
  | shb b => exact ⟨h.ok, h.held_eq, h.setUp⟩
  | idb b little declaredLength =>
    obtain ⟨hp, hd⟩ := feedIdb_pins (s := s) b little declaredLength
    change Balanced opts (s.feedIdb b little declaredLength)
    exact ⟨hp ▸ h.ok, by rw [hp, hd]; exact h.held_eq, hd ▸ h.setUp⟩
  | epb b little token kind fileOffset =>
    exact h.feedEpb b little kind fileOffset
      (fun ht => (pinned_eq_zero_iff h.ok).2 (hfresh ht)) hkeep

/-! ## Runs -/

/-- Every call keeps what it stores. -/
abbrev KeepsAlong (σ : ComparisonSort) (opts : DecodeOptions) (calls : List Call) : Prop :=
  Run.Along (step σ opts) (KeepsOwn opts) (init opts) calls

theorem balanced_after {calls : List Call} (hfresh : FreshTokens σ opts calls)
    (hkeeps : KeepsAlong σ opts calls) : Balanced opts (after σ opts calls) :=
  Run.inv (fun _ c h hc => h.step c hc.1 hc.2) (balanced_init opts) (hfresh.and hkeeps)

theorem Balanced.pinned_pos_iff (h : Balanced opts s) (hT : T ≠ kNoToken) :
    0 < pinned s.pins T ↔ ∃ f ∈ s.defrag.ipv4.spans ++ s.defrag.ipv6.spans, f.token = T := by
  rw [← h.held_eq T hT, held, ← tokenCount_append, tokenCount, count_pos_iff, mem_map]

/-- **No buffer leaks**, in a run in which every tracked token is fed
while it is not pinned and every packet's fragments outlive their call:
the tokens that have pins are those on a stored span, and every other
token has been released as often as it was fed. -/
theorem no_leak (σ : ComparisonSort) (opts : DecodeOptions) (calls : List Call)
    (hfresh : FreshTokens σ opts calls) (hkeeps : KeepsAlong σ opts calls) :
    let s := after σ opts calls
    (∀ T, (s.pins.find? T).isSome ↔
      T ≠ kNoToken ∧ ∃ f ∈ s.defrag.ipv4.spans ++ s.defrag.ipv6.spans, f.token = T) ∧
    ∀ T, T ≠ kNoToken → (¬ ∃ f ∈ s.defrag.ipv4.spans ++ s.defrag.ipv6.spans, f.token = T) →
      (releasedBy σ opts (init opts) calls).count T = calls.countP fun c => c.token = T := by
  have hbal := balanced_after hfresh hkeeps
  refine ⟨fun T => ?_, fun T hT hnone => ?_⟩
  · rw [Option.isSome_iff_ne_none, Ne, ← pinned_eq_zero_iff hbal.ok]
    by_cases hT : T = kNoToken
    · rw [hT, pinned_kNoToken hbal.ok]
      exact ⟨fun hn => absurd rfl hn, fun hn => absurd rfl hn.1⟩
    · rw [← hbal.pinned_pos_iff hT, Nat.pos_iff_ne_zero]
      exact ⟨fun hn => ⟨hT, hn⟩, And.right⟩
  · have hrun := count_releasedBy calls (accounted_init opts) hfresh T
    have hzero : pinned (after σ opts calls).pins T = 0 :=
      Nat.eq_zero_of_not_pos fun hp => hnone ((hbal.pinned_pos_iff hT).1 hp)
    have hstart : pinned (init opts).pins T = 0 := rfl
    rw [sum_ownPins calls hT, hzero] at hrun
    omega

/-- The run of a fragment fed twice keeps both spans. -/
theorem no_leak_fragmentTwice :
    FreshTokens .insertion {} fragmentTwice ∧ KeepsAlong .insertion {} fragmentTwice ∧
    (((after .insertion {} fragmentTwice).pins.find? 2).isSome ↔
      (2 : Token) ≠ kNoToken ∧ ∃ f ∈ (after .insertion {} fragmentTwice).defrag.ipv4.spans ++
        (after .insertion {} fragmentTwice).defrag.ipv6.spans, f.token = 2) := by
  have hfresh : FreshTokens .insertion {} fragmentTwice :=
    ⟨by decide, by decide, by decide, trivial⟩
  have hout : ∀ pid calls, pid < 2 → Outlasts {} pid calls := fun pid calls hpid =>
    ⟨fun _ _ _ => ⟨by decide, by simp; omega⟩, fun _ _ => ⟨by decide, by simp; omega⟩⟩
  have hkeeps : KeepsAlong .insertion {} fragmentTwice :=
    ⟨trivial, fun _ _ _ _ _ _ => hout _ _ (by decide), fun _ _ _ _ _ _ => hout _ _ (by decide),
      trivial⟩
  exact ⟨hfresh, hkeeps, (no_leak .insertion {} fragmentTwice hfresh hkeeps).1 2⟩

/-! ## A leak -/

/-- IPv4 fragments are aged out at once. -/
def noWait : DecodeOptions := { ipv4Defrag := { timeoutTicks := 0 } }

/-- **A leaked buffer.** With `timeout_ticks = 0` the fragment is stored
and aged out in one call, before its pin is added: the call reports the
buffer pinned, and no span is left whose going would release it. -/
theorem leaks_without_wait : let calls := [.idb ethernetIdb true 0, .epb fragmentEpb true 1 .epb 0]
    let s := after .insertion noWait calls
    FreshTokens .insertion noWait calls ∧ s.pins.find? 1 = some 1 ∧
    s.defrag.ipv4.spans ++ s.defrag.ipv6.spans = [] ∧
    releasedBy .insertion noWait (init noWait) calls = [] := by
  exact ⟨⟨by decide, by decide, trivial⟩, by decide, by decide, by decide⟩

end Session

end Decode

end Nanom
