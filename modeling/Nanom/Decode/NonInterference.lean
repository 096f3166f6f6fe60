import Nanom.Decode.Helpers.Rounding
import Nanom.Defrag.Untagged
/-!
# Tokens do not interfere with the rows

Two runs of a session over the same blocks, under any two assignments of tokens,
put out the same log: tokens name buffers and do nothing else, and a retirement
drops only what no row is made of. The two sessions keep tables with one view
(`Session.Alike`), which every call preserves.

The one way a retired entry is seen again is an id that comes round to it:
`next_id_` is 32 bits wide. The result is for runs that open fewer than `2 ^ 32`
datagrams in each table, and `rounds_to_retired` is a run of one more.
-/

namespace Nanom.Decode

open Wire Defrag ReassemblyTable List Reassembly

/-! ## One fragment -/

section Feed

variable {Key : Type} [DecidableEq Key] {σ : ComparisonSort} {table table' : ReassemblyTable Key}
variable {f f' : FragmentSpan}

section

variable (h : table.view = table'.view)
include h

theorem completedRow_congr (c : DecodeCtx) (result : Result) (ipVersion : ℕ) :
    completedRow c table result ipVersion = completedRow c table' result ipVersion := by
  have hfind := find?_congr h result.datagramId
  have hcount : (table.find result.datagramId).map fragmentCount
      = (table'.find result.datagramId).map fragmentCount := by
    have := congrArg (Option.map fragmentCount) hfind
    rwa [Option.map_map, Option.map_map] at this
  have hfirst : (table.find result.datagramId).map firstPacketId
      = (table'.find result.datagramId).map firstPacketId := by
    have := congrArg (Option.map firstPacketId) hfind
    rwa [Option.map_map, Option.map_map] at this
  rw [completedRow, completedRow, hcount, hfirst]

/-- Completing a datagram puts out the same whether it retires or not. -/
theorem completeDatagram_congr (env env' : VisitorEnv)
    (c : DecodeCtx) (result : Result) (ipVersion ipProto : ℕ) :
    (completeDatagram env c table result ipVersion ipProto).2.2
      = (completeDatagram env' c table' result ipVersion ipProto).2.2 ∧
    (completeDatagram env c table result ipVersion ipProto).1.view
      = (completeDatagram env' c table' result ipVersion ipProto).1.view := by
  have hlog : ∀ (e : VisitorEnv) (u : ReassemblyTable Key),
      (completeDatagram e c u result ipVersion ipProto).2.2 =
        .push (.datagram (completedRow c u result ipVersion)) ::
          dispatchL4 (reassembledCtx c result ipVersion ipProto) (.ofParts result.parts) := by
    intro e u
    unfold completeDatagram
    split <;> rfl
  have hview : ∀ (e : VisitorEnv) (u : ReassemblyTable Key),
      (completeDatagram e c u result ipVersion ipProto).1.view = u.view := by
    intro e u
    unfold completeDatagram
    split
    · exact view_retire _
    · rfl
  rw [hlog, hlog, hview, hview, completedRow_congr h, h]
  exact ⟨rfl, rfl⟩

/-- **Feeding a fragment sees no token.** -/
theorem feedTable_congr (hf : f.untag = f'.untag) (key : Key)
    (hopen : ∀ s, table.slot key f.packetId = some s → s.entry.completed = false)
    (env env' : VisitorEnv) (c : DecodeCtx) (ipVersion ipProto : ℕ) (fragRow : ℕ → Row) :
    (feedTable σ env c table key f ipVersion ipProto fragRow).log
      = (feedTable σ env' c table' key f' ipVersion ipProto fragRow).log ∧
    (feedTable σ env c table key f ipVersion ipProto fragRow).table.view
      = (feedTable σ env' c table' key f' ipVersion ipProto fragRow).table.view := by
  obtain ⟨hres, hview⟩ := addFragment_congr (σ := σ) h hf hopen
  obtain ⟨hlog, hleft⟩ := completeDatagram_congr hview env env' c
    (table'.addFragment σ key f').2 ipVersion ipProto
  unfold feedTable
  dsimp only
  rw [hres]
  split
  · exact ⟨by rw [hlog], hleft⟩
  · exact ⟨rfl, hview⟩

end

end Feed

/-! ## Tables whose ids have not come round -/

section Feed

variable {Key : Type} [DecidableEq Key] {table : ReassemblyTable Key}
variable (σ : ComparisonSort) (env : VisitorEnv) (c : DecodeCtx) (key : Key) (f : FragmentSpan)
variable (ipVersion ipProto : ℕ) (fragRow : ℕ → Row)

theorem opened_feedTable : (feedTable σ env c table key f ipVersion ipProto fragRow).table.opened
    = (table.addFragment σ key f).1.opened := by
  rcases feedTable_table σ env c table key f ipVersion ipProto fragRow with ⟨ht, -⟩ | ⟨ht, -⟩
  · rw [ht]
  · rw [ht, opened_retire]

theorem feedTable_indexed (h : table.Indexed)
    (ho : (feedTable σ env c table key f ipVersion ipProto fragRow).table.opened < 2 ^ 32) :
    (feedTable σ env c table key f ipVersion ipProto fragRow).table.Indexed := by
  rw [opened_feedTable] at ho
  have hadd : (table.addFragment σ key f).1.Indexed := h.step (.addFragment key f) ho
  rcases feedTable_table σ env c table key f ipVersion ipProto fragRow with ⟨ht, -⟩ | ⟨ht, -⟩
  · rw [ht]
    exact hadd
  · rw [ht]
    exact hadd.step (σ := σ) (.retire _) (opened_retire.trans_lt ho)

end Feed

/-- Both tables are indexed. -/
structure TablesIndexed (d : DefragState) : Prop where
  ipv4 : d.ipv4.Indexed
  ipv6 : d.ipv6.Indexed

/-- Neither table's ids have come round. -/
structure Roomy (d : DefragState) : Prop where
  ipv4 : d.ipv4.opened < 2 ^ 32
  ipv6 : d.ipv6.opened < 2 ^ 32

namespace Visitor

variable (σ : ComparisonSort) (env : VisitorEnv) {v v' : Visitor}

theorem roomy_of_visit (e : WalkEvent) (h : Roomy (v.visit σ env e).defrag) : Roomy v.defrag := by
  rcases visit_cases σ env v e with ⟨hd, -, -⟩ | ⟨ip, -, -, -, hfed⟩ | ⟨x, -, -, hfed⟩
  · exact hd ▸ h
  · obtain ⟨c, key, f, ipProto, fragRow, -, -, hd, -, -⟩ := hfed
    rw [hd] at h
    have hle : v.defrag.ipv4.opened ≤ (v.defrag.ipv4.addFragment σ key f).1.opened :=
      opened_le_addFragment
    exact ⟨lt_of_le_of_lt hle ((opened_feedTable σ env c key f 4 ipProto fragRow) ▸ h.ipv4), h.ipv6⟩
  · obtain ⟨c, key, f, ipProto, fragRow, -, -, hd, -, -⟩ := hfed
    rw [hd] at h
    have hle : v.defrag.ipv6.opened ≤ (v.defrag.ipv6.addFragment σ key f).1.opened :=
      opened_le_addFragment
    exact ⟨h.ipv4, lt_of_le_of_lt hle ((opened_feedTable σ env c key f 6 ipProto fragRow) ▸ h.ipv6)⟩

theorem roomy_of_walk (calls : List WalkEvent) (h : Roomy (v.walk σ env calls).defrag) :
    Roomy v.defrag := by
  induction calls generalizing v with
  | nil => exact h
  | cons e calls ih => exact roomy_of_visit σ env e (ih h)

theorem indexed_visit (hi : TablesIndexed v.defrag) (e : WalkEvent)
    (h : Roomy (v.visit σ env e).defrag) : TablesIndexed (v.visit σ env e).defrag := by
  rcases visit_cases σ env v e with ⟨hd, -, -⟩ | ⟨ip, -, -, -, hfed⟩ | ⟨x, -, -, hfed⟩
  · exact hd ▸ hi
  · obtain ⟨c, key, f, ipProto, fragRow, -, -, hd, -, -⟩ := hfed
    rw [hd] at h ⊢
    exact ⟨feedTable_indexed σ env c key f 4 ipProto fragRow hi.ipv4 h.ipv4, hi.ipv6⟩
  · obtain ⟨c, key, f, ipProto, fragRow, -, -, hd, -, -⟩ := hfed
    rw [hd] at h ⊢
    exact ⟨hi.ipv4, feedTable_indexed σ env c key f 6 ipProto fragRow hi.ipv6 h.ipv6⟩

/-! ## One packet -/

/-- Two visitors that differ in tokens at most. -/
structure Alike (v v' : Visitor) : Prop where
  ctx : v.ctx = v'.ctx
  ipv4 : v.defrag.ipv4.view = v'.defrag.ipv4.view
  ipv6 : v.defrag.ipv6.view = v'.defrag.ipv6.view
  atOffset : v.atOffset = v'.atOffset
  isFragment : v.isFragment = v'.isFragment
  ipv6BaseOffset : v.ipv6BaseOffset = v'.ipv6BaseOffset
  ipv6PayloadLength : v.ipv6PayloadLength = v'.ipv6PayloadLength
  lastIpv6 : v.lastIpv6 = v'.lastIpv6
  log : v.log = v'.log

variable {σ env} {env' : VisitorEnv}

section

variable (h : Alike v v')
include h

theorem Alike.tookIpv4 {r r' : Feeding Ipv4Key} (hlog : r.log = r'.log)
    (hview : r.table.view = r'.table.view) : Alike (v.tookIpv4 r) (v'.tookIpv4 r') :=
  ⟨h.ctx, hview, h.ipv6, h.atOffset, h.isFragment, h.ipv6BaseOffset, h.ipv6PayloadLength,
    h.lastIpv6, by rw [Visitor.tookIpv4, Visitor.tookIpv4, h.log, hlog]⟩

theorem Alike.tookIpv6 {r r' : Feeding Ipv6Key} (hlog : r.log = r'.log)
    (hview : r.table.view = r'.table.view) : Alike (v.tookIpv6 r) (v'.tookIpv6 r') :=
  ⟨h.ctx, h.ipv4, hview, h.atOffset, h.isFragment, h.ipv6BaseOffset, h.ipv6PayloadLength,
    h.lastIpv6, by rw [Visitor.tookIpv6, Visitor.tookIpv6, h.log, hlog]⟩

theorem Alike.onIpv4 (henv : env.defrags = env'.defrags) (ip : Ipv4)
    (hi : v.defrag.ipv4.Indexed) (hr : (v.onIpv4 σ env ip).defrag.ipv4.opened < 2 ^ 32) :
    Alike (v.onIpv4 σ env ip) (v'.onIpv4 σ env' ip) := by
  obtain ⟨ctx, d, a, i, b, l, n, r, last, log⟩ := v
  obtain ⟨ctx', d', a', i', b', l', n', r', last', log'⟩ := v'
  obtain ⟨hctx, h4, h6, ha, hi', hb, hl, hlast, hlog⟩ := h
  subst hctx ha hi' hb hl hlast hlog
  unfold Visitor.onIpv4 at hr ⊢
  rw [← henv]
  dsimp only [Visitor.put] at hr ⊢
  split
  · exact ⟨rfl, h4, h6, rfl, rfl, rfl, rfl, rfl, rfl⟩
  rename_i hel
  rw [if_neg hel] at hr
  split
  · exact ⟨rfl, h4, h6, rfl, rfl, rfl, rfl, rfl, rfl⟩
  rename_i hfits
  rw [if_neg hfits] at hr
  dsimp only [Visitor.tookIpv4] at hr
  rw [opened_feedTable] at hr
  have hsame : ∀ payload, (ipv4Fragment env.token ctx.packetId ip payload).untag
      = (ipv4Fragment env'.token ctx.packetId ip payload).untag := fun _ => rfl
  have hfed := feedTable_congr (σ := σ) h4 (hsame _) (ipv4Key ip) (hi.slot_open hr)
    env env' { ctx with ipVersion := 4 } 4 ip.protocol fun id => .ipv4Frag
      ⟨ctx.packetId, id, ip.fragOffset * 8 % 2 ^ 16, decide (ip.flags % 2 ≠ 0),
        decide (ip.fragOffset = 0), !decide (ip.flags % 2 ≠ 0)⟩
  refine Alike.tookIpv4 ?_ hfed.1 hfed.2
  exact ⟨rfl, h4, h6, rfl, rfl, rfl, rfl, rfl, rfl⟩

theorem Alike.onFragment (henv : env.defrags = env'.defrags) (x : Ipv6Fragment)
    (hi : v.defrag.ipv6.Indexed) (hr : (v.onFragment σ env x).defrag.ipv6.opened < 2 ^ 32) :
    Alike (v.onFragment σ env x) (v'.onFragment σ env' x) := by
  obtain ⟨ctx, d, a, i, b, l, n, r, last, log⟩ := v
  obtain ⟨ctx', d', a', i', b', l', n', r', last', log'⟩ := v'
  obtain ⟨hctx, h4, h6, ha, hi', hb, hl, hlast, hlog⟩ := h
  subst hctx ha hi' hb hl hlast hlog
  unfold Visitor.onFragment at hr ⊢
  rw [← henv]
  dsimp only at hr ⊢
  split
  · exact ⟨rfl, h4, h6, rfl, rfl, rfl, rfl, rfl, rfl⟩
  rename_i hon
  rw [if_neg hon] at hr
  split
  · exact ⟨rfl, h4, h6, rfl, rfl, rfl, rfl, rfl, rfl⟩
  rename_i hfits
  rw [if_neg hfits] at hr
  dsimp only [Visitor.tookIpv6] at hr
  rw [opened_feedTable] at hr
  have hsame : (ipv6Fragment ⟨ctx, d, a, true, b, l, n, r, last, log⟩ env.token x (a + 8)).untag
      = (ipv6Fragment ⟨ctx, d', a, true, b, l, n', r', last, log⟩ env'.token x (a + 8)).untag :=
    rfl
  have hfed := feedTable_congr (σ := σ) h6 hsame ⟨last.src, last.dst, x.identification⟩
    (hi.slot_open hr) env env' ctx 6 x.nextHeader fun id => .ipv6Frag
      ⟨ctx.packetId, id, x.offsetFlags / 8 * 8, decide (x.offsetFlags % 2 ≠ 0),
        decide (x.offsetFlags / 8 = 0), !decide (x.offsetFlags % 2 ≠ 0)⟩
  refine Alike.tookIpv6 ?_ hfed.1 hfed.2
  exact ⟨rfl, h4, h6, rfl, rfl, rfl, rfl, rfl, rfl⟩

/-- **One call of the walk sees no token.** -/
theorem Alike.visit (henv : env.defrags = env'.defrags)
    (hi : TablesIndexed v.defrag) (e : WalkEvent) (hr : Roomy (v.visit σ env e).defrag) :
    Alike (v.visit σ env e) (v'.visit σ env' e) := by
  cases e with
  | ipv4 ip => exact h.onIpv4 henv ip hi.ipv4 hr.ipv4
  | fragment x => exact h.onFragment henv x hi.ipv6 hr.ipv6
  | _ =>
    obtain ⟨ctx, d, a, i, b, l, n, r, last, log⟩ := v
    obtain ⟨hctx, h4, h6, ha, hi', hb, hl, hlast, hlog⟩ := h
    subst hctx ha hi' hb hl hlast hlog
    clear hr
    simp only [Visitor.visit, Visitor.onL2Done, Visitor.onTcp, Visitor.onUdp]
    first
      | exact ⟨rfl, h4, h6, rfl, rfl, rfl, rfl, rfl, rfl⟩
      | (split <;> exact ⟨rfl, h4, h6, rfl, rfl, rfl, rfl, rfl, rfl⟩)

theorem Alike.walk (env env' : VisitorEnv) (henv : env.defrags = env'.defrags)
    (hi : TablesIndexed v.defrag) (calls : List WalkEvent)
    (hr : Roomy (v.walk σ env calls).defrag) :
    Alike (v.walk σ env calls) (v'.walk σ env' calls) ∧
      TablesIndexed (v.walk σ env calls).defrag := by
  induction calls generalizing v v' with
  | nil => exact ⟨h, hi⟩
  | cons e calls ih =>
    have hr' : Roomy (v.visit σ env e).defrag := roomy_of_walk σ env calls hr
    exact ih (h.visit henv hi e hr') (indexed_visit σ env hi e hr') hr

end

end Visitor

/-! ## The session -/

theorem evictLog_congr {ipVersion : ℕ} {l l' : List ReassemblySummary}
    (h : l.map (fun s => { s with tokens := [] }) = l'.map fun s => { s with tokens := [] }) :
    evictLog ipVersion l = evictLog ipVersion l' := by
  have hbare : ∀ l : List ReassemblySummary,
      evictLog ipVersion (l.map fun s => { s with tokens := [] }) = evictLog ipVersion l := by
    intro l
    rw [evictLog, filter_map, map_map]
    rfl
  rw [← hbare l, ← hbare l', h]

namespace Session

variable {σ : ComparisonSort} {opts : DecodeOptions} {s s' : Session}

/-- Two sessions that differ in tokens at most. -/
structure Alike (s s' : Session) : Prop where
  ipv4 : s.defrag.ipv4.view = s'.defrag.ipv4.view
  ipv6 : s.defrag.ipv6.view = s'.defrag.ipv6.view
  ifaceLink : s.ifaceLink = s'.ifaceLink
  pid : s.pid = s'.pid
  sectionLittle : s.sectionLittle = s'.sectionLittle

section

variable (h : Alike s s') (hi : TablesIndexed s.defrag)
include h hi

/-- **A packet's walk sees no token.** -/
theorem Alike.walked (b : Block)
    (token token' : Token) (e : EpbView) (hr : Roomy (s.walked σ opts b token e).defrag) :
    (s.walked σ opts b token e).log = (s'.walked σ opts b token' e).log ∧
    (s.walked σ opts b token e).defrag.ipv4.view
      = (s'.walked σ opts b token' e).defrag.ipv4.view ∧
    (s.walked σ opts b token e).defrag.ipv6.view
      = (s'.walked σ opts b token' e).defrag.ipv6.view ∧
    TablesIndexed (s.walked σ opts b token e).defrag := by
  have hlink : s'.linkType e = s.linkType e := by rw [linkType, linkType, h.ifaceLink]
  unfold Session.walked at hr ⊢
  split
  · rename_i pkt hpkt
    rw [hpkt] at hr
    have hstart : (s.visitor e pkt).Alike (s'.visitor e pkt) :=
      ⟨by rw [visitor, visitor, h.pid, hlink], h.ipv4, h.ipv6, rfl, rfl, rfl, rfl, rfl, rfl⟩
    obtain ⟨hend, hindexed⟩ := hstart.walk (σ := σ)
      ⟨token, s.tracking || decide (token ≠ kNoToken), opts.decodeDefrag⟩
      ⟨token', s'.tracking || decide (token' ≠ kNoToken), opts.decodeDefrag⟩
      rfl hi (walkPacketExt (s.linkType e) pkt).1 hr
    unfold walkPacket
    rw [hlink]
    exact ⟨hend.log, hend.ipv4, hend.ipv6, hindexed⟩
  · exact ⟨rfl, h.ipv4, h.ipv6, hi⟩

/-- **A packet block's rows depend on no token.** -/
theorem Alike.feedEpb (b : Block) (little : Bool)
    (token token' : Token) (kind : Kind) (fileOffset : ℕ)
    (hr : Roomy (s.feedEpb σ opts b little token kind fileOffset).1.defrag) :
    let out := s.feedEpb σ opts b little token kind fileOffset
    let out' := s'.feedEpb σ opts b little token' kind fileOffset
    out.2.2 = out'.2.2 ∧ Alike out.1 out'.1 ∧ TablesIndexed out.1.defrag := by
  unfold Session.feedEpb at hr ⊢
  dsimp only at hr ⊢
  split
  · exact ⟨rfl, ⟨h.ipv4, h.ipv6, h.ifaceLink, h.pid, h.sectionLittle⟩, hi⟩
  rename_i e he
  rw [he] at hr
  obtain ⟨hlog, h4, h6, hindexed⟩ := h.walked hi b token token' e ⟨hr.ipv4, hr.ipv6⟩
  obtain ⟨hleft4, hgone4⟩ := evictStale_congr h4 s.pid
  obtain ⟨hleft6, hgone6⟩ := evictStale_congr h6 s.pid
  rw [← h.pid]
  refine ⟨?_, ⟨hleft4, hleft6, h.ifaceLink, rfl, h.sectionLittle⟩, ?_⟩
  · rw [hlog, evictLog_congr hgone4, evictLog_congr hgone6]
  · exact ⟨hindexed.ipv4.step (σ := σ) (.evictStale s.pid) hr.ipv4,
      hindexed.ipv6.step (σ := σ) (.evictStale s.pid) hr.ipv6⟩

theorem Alike.feed {c c' : Call} (hc : c.untag = c'.untag) (hr : Roomy (s.step σ opts c).defrag) :
    (s.feed σ opts c).2.2 = (s'.feed σ opts c').2.2 ∧
    Alike (s.step σ opts c) (s'.step σ opts c') ∧ TablesIndexed (s.step σ opts c).defrag := by
  cases c <;> cases c' <;> cases hc
  case shb.shb.refl b => exact ⟨rfl, ⟨h.ipv4, h.ipv6, rfl, h.pid, rfl⟩, hi⟩
  case idb.idb.refl b little declaredLength =>
    change _ ∧ Alike (s.feedIdb b little declaredLength) (s'.feedIdb b little declaredLength) ∧
      TablesIndexed (s.feedIdb b little declaredLength).defrag
    unfold feedIdb
    dsimp only
    split
    · exact ⟨rfl, ⟨h.ipv4, h.ipv6, by rw [h.ifaceLink], h.pid, h.sectionLittle⟩, hi⟩
    · exact ⟨rfl, h, hi⟩
  case epb.epb.refl b little token kind fileOffset token' =>
    exact h.feedEpb hi b little token token' kind fileOffset hr

end

theorem roomy_of_step (c : Call) (hr : Roomy (s.step σ opts c).defrag) : Roomy s.defrag := by
  cases c with
  | shb b => exact hr
  | idb b little declaredLength =>
    change Roomy (s.feedIdb b little declaredLength).defrag at hr
    rwa [(feedIdb_pins b little declaredLength).2] at hr
  | epb b little token kind fileOffset =>
    change Roomy (s.feedEpb σ opts b little token kind fileOffset).1.defrag at hr
    unfold feedEpb at hr
    split at hr
    · exact hr
    rename_i e _
    have hw : Roomy (s.walked σ opts b token e).defrag := ⟨hr.ipv4, hr.ipv6⟩
    unfold walked at hw
    split at hw
    · rename_i pkt _
      exact Visitor.roomy_of_walk σ _ (v := s.visitor e pkt) _ hw
    · exact hw

theorem roomy_of_run (calls : List Call) (hr : Roomy (Run.after (step σ opts) s calls).defrag) :
    Roomy s.defrag := by
  induction calls generalizing s with
  | nil => exact hr
  | cons c calls ih => exact roomy_of_step c (ih hr)

/-- Runs over the same blocks from sessions that differ in tokens put out
the same. -/
theorem Alike.runLog (h : Alike s s') (hi : TablesIndexed s.defrag) {calls calls' : List Call}
    (hblocks : calls.map Call.untag = calls'.map Call.untag)
    (hr : Roomy (Run.after (step σ opts) s calls).defrag) :
    runLog σ opts s calls = runLog σ opts s' calls' := by
  induction calls generalizing s s' calls' with
  | nil =>
    rw [map_nil, eq_comm, map_eq_nil_iff] at hblocks
    rw [hblocks]
    rfl
  | cons c calls ih =>
    rw [map_cons, eq_comm, map_eq_cons_iff] at hblocks
    obtain ⟨c', calls'', rfl, hc, hrest⟩ := hblocks
    obtain ⟨hlog, halike, hindexed⟩ := h.feed hi hc.symm (roomy_of_run calls hr)
    rw [Session.runLog, Session.runLog, hlog, ih halike hindexed hrest.symm hr]

/-- **Tokens do not interfere.** Any two assignments of tokens to the same
blocks leave every decoder's tables, and the states its protocols keep,
the same, in a run that opens fewer than `2 ^ 32` datagrams in each
reassembly table. -/
theorem rows_ignore_tokens (σ : ComparisonSort) (opts : DecodeOptions) (calls calls' : List Call)
    (hblocks : calls.map Call.untag = calls'.map Call.untag)
    (h4 : (after σ opts calls).defrag.ipv4.opened < 2 ^ 32)
    (h6 : (after σ opts calls).defrag.ipv6.opened < 2 ^ 32) {State ProtoRow : Type}
    (decoder : List (Protocol State ProtoRow)) (w : World State ProtoRow) :
    render decoder opts w (runLog σ opts (init opts) calls)
      = render decoder opts w (runLog σ opts (init opts) calls') := by
  have hstart : Alike (init opts) (init opts) := ⟨rfl, rfl, rfl, rfl, rfl⟩
  rw [hstart.runLog ⟨indexed_init, indexed_init⟩ hblocks ⟨h4, h6⟩]

/-- Without tokens the fragment fed twice puts out the same. -/
theorem rows_ignore_tokens_fragmentTwice :
    (after .insertion {} fragmentTwice).defrag.ipv4.opened < 2 ^ 32 ∧
    (after .insertion {} fragmentTwice).defrag.ipv6.opened < 2 ^ 32 ∧
    render ([] : List (Protocol Unit Unit)) {} ⟨(), []⟩
        (runLog .insertion {} (init {}) fragmentTwice)
      = render [] {} ⟨(), []⟩
        (runLog .insertion {} (init {}) (fragmentTwice.map Call.untag)) :=
  ⟨by decide, by decide, rows_ignore_tokens .insertion {} fragmentTwice
    (fragmentTwice.map Call.untag) rfl (by decide) (by decide) [] ⟨(), []⟩⟩

/-- **A token that changes a row.** After `2 ^ 32` datagrams the next one is given
the id of the first. Under tokens the first one's span was dropped when it
completed, and the new datagram completes on its entry; without them the span is
still there, and no row is pushed. -/
theorem rounds_to_retired :
    (roundCalls 1).map Call.untag = (roundCalls kNoToken).map Call.untag ∧
    datagramRows wide (roundCalls 1) = 2 ^ 32 + 1 ∧
    datagramRows wide (roundCalls kNoToken) = 2 ^ 32 := by
  refine ⟨?_, ?_, ?_⟩
  · rw [roundCalls_untag, roundCalls_untag]
  · rw [datagramRows_roundCalls, if_neg (by decide)]
  · rw [datagramRows_roundCalls, if_pos rfl, add_zero]

end Session

end Nanom.Decode
