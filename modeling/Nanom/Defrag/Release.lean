import Nanom.Defrag.Tokens
import Nanom.Defrag.Untagged
/-!
# Fragment reassembly — what is released, and when

A completed datagram's spans are dropped by `retire` or, later, by
`evict_stale`. The other calls do not see retirements, so a run and the run
without them store the same fragments, and once both have evicted everything
each tracked token has come back as often in one as in the other. Untracked
tokens are the difference: `evict_stale` leaves them out and `retire` does not.

An entry ages out by a sum of 64 bits, which a large `timeout_ticks` can bring
round.
-/

namespace Nanom.Defrag

open List

/-- The call is not a retirement. -/
def Op.keeps {Key : Type} : Op Key → Bool
  | .retire _ => false
  | .addFragment _ _ => true
  | .evictStale _ => true

namespace ReassemblyTable

variable {Key : Type} [DecidableEq Key] {σ : ComparisonSort} {cfg : Config}
variable {t t' : ReassemblyTable Key} {id now : ℕ} {ops : List (Op Key)}

/-! ## Runs without retirements -/

/-- The run without its retirements. -/
def unretired (ops : List (Op Key)) : List (Op Key) := ops.filter Op.keeps

theorem accepted_congr (h : t.view = t'.view) (op : Op Key) (hidx : t.Indexed)
    (ho : (t.step σ op).opened < 2 ^ 32) : t.accepted σ op = t'.accepted σ op := by
  cases op with
  | addFragment key f =>
    have hsame := (addFragment_congr (σ := σ) h (rfl : f.untag = f.untag) (hidx.slot_open ho)).1
    rw [accepted, accepted, hsame]
  | retire id | evictStale now => rfl

/-- A call that is no retirement keeps tables with the same view alike. -/
theorem view_step_congr (h : t.view = t'.view) {op : Op Key} (hkeeps : op.keeps = true)
    (hidx : t.Indexed) (ho : (t.step σ op).opened < 2 ^ 32) :
    (t.step σ op).view = (t'.step σ op).view := by
  cases op with
  | addFragment key f => exact (addFragment_congr h rfl (hidx.slot_open ho)).2
  | retire id => cases hkeeps
  | evictStale now => exact (evictStale_congr h now).1

/-- **Retirements are not seen**: without them the same fragments are
accepted, and the table looks the same in the end. -/
theorem unretired_congr (h : t.view = t'.view)
    (hrun : Run.Along (step σ) (fun t op => Indexed t ∧ (t.step σ op).opened < 2 ^ 32) t ops) :
    acceptedBy σ t ops = acceptedBy σ t' (unretired ops) ∧
    (Run.after (step σ) t ops).view = (Run.after (step σ) t' (unretired ops)).view := by
  induction ops generalizing t t' with
  | nil => exact ⟨rfl, h⟩
  | cons op ops ih =>
    obtain ⟨⟨hidx, ho⟩, hrest⟩ := hrun
    rw [unretired, filter_cons]
    split
    · rename_i hkeeps
      obtain ⟨hacc, hview⟩ := ih (view_step_congr h hkeeps hidx ho) hrest
      refine ⟨?_, hview⟩
      rw [acceptedBy, hacc, accepted_congr h op hidx ho]
      rfl
    · rename_i hkeeps
      cases op with
      | retire id =>
        obtain ⟨hacc, hview⟩ := ih ((view_retire id).trans h) hrest
        exact ⟨hacc, hview⟩
      | addFragment key f | evictStale now => exact absurd rfl hkeeps

/-! ## Untracked tokens -/

/-- A retirement finds no untracked span to report. -/
def RetiresTracked (t : ReassemblyTable Key) (op : Op Key) : Prop :=
  ∀ id r, op = .retire id → t.byId.find? id = some r → r.completed = true → r.retired = false →
    ∀ f ∈ r.fragments, f.token ≠ kNoToken

theorem kNoToken_not_mem_evictStale : kNoToken ∉ (t.returned (.evictStale now) : List Token) := by
  rw [returned, tokens_evictStale]
  intro hmem
  exact of_decide_eq_true (mem_filter.1 hmem).2 rfl

theorem retire_of_completed {r : Reassembly} (hr : t.byId.find? id = some r)
    (hc : r.completed = true) (hret : r.retired = false) :
    (t.retire id).2 = r.fragments.map FragmentSpan.token := by
  simp [retire, hr, hc, hret]

/-- **When a call reports an untracked token.** -/
theorem kNoToken_not_mem_returned_iff (op : Op Key) :
    kNoToken ∉ t.returned op ↔ t.RetiresTracked op := by
  cases op with
  | addFragment key f => exact ⟨fun _ _ _ h => (by cases h), fun _ h => (by cases h)⟩
  | evictStale now => exact ⟨fun _ _ _ h => (by cases h), fun _ => kNoToken_not_mem_evictStale⟩
  | retire id =>
    rw [returned]
    constructor
    · rintro hmem _ r ⟨⟩ hr hc hret f hf hno
      rw [retire_of_completed hr hc hret] at hmem
      exact hmem (mem_map.2 ⟨f, hf, hno⟩)
    · intro htracked hmem
      rcases retire_cases t id with he | ⟨r, hr, hc, hret, he⟩
      · rw [he] at hmem
        cases hmem
      · rw [he] at hmem
        obtain ⟨f, hf, hno⟩ := mem_map.1 hmem
        exact htracked id r rfl hr hc hret f hf hno

/-- **When a run does.** -/
theorem kNoToken_not_mem_returnedBy_iff :
    kNoToken ∉ returnedBy σ t ops ↔ Run.Along (step σ) RetiresTracked t ops := by
  induction ops generalizing t with
  | nil => simp [returnedBy, Run.Along]
  | cons op ops ih =>
    rw [returnedBy, mem_append, not_or, kNoToken_not_mem_returned_iff, ih]
    rfl

theorem kNoToken_not_mem_unretired : kNoToken ∉ returnedBy σ t (unretired ops) := by
  refine kNoToken_not_mem_returnedBy_iff.2 (Run.along_of_forall fun t op hop => ?_)
  rintro id r rfl
  cases (mem_filter.1 hop).2

theorem spans_of_size_eq_zero (h : t.byId.size = 0) : t.spans = [] := by
  rw [spans, length_eq_zero_iff.1 h]
  rfl

/-- **What is released, with and without retirements.** Up to the eviction
of every entry a tracked token comes back equally often in both runs. -/
theorem count_returnedBy_unretired (ho : (after σ cfg ops).opened < 2 ^ 32)
    (hempty : (after σ cfg ops).byId.size = 0) {T : Token} (hT : T ≠ kNoToken) :
    (returnedBy σ (init cfg) ops).count T
      = (returnedBy σ (init cfg) (unretired ops)).count T := by
  obtain ⟨hacc, hview⟩ := unretired_congr (rfl : (init cfg).view = (init cfg).view)
    (along_indexed ho)
  have hempty' : (after σ cfg (unretired ops)).byId.size = 0 := (size_congr hview).symm.trans hempty
  have hzero : ∀ ops' : List (Op Key), (after σ cfg ops').byId.size = 0 →
      tokenCount T (acceptedBy σ (init cfg) ops') = (returnedBy σ (init cfg) ops').count T := by
    intro ops' hsize
    have hcount := (tokens_conserved σ cfg ops').1 T hT
    rwa [spans_of_size_eq_zero hsize] at hcount
  rw [← hzero ops hempty, ← hzero (unretired ops) hempty', hacc]

/-- **Untracked tokens are not reported, and what is released does not
depend on retirements, exactly when no completed datagram with an
untracked fragment is retired.** -/
theorem untracked_unreported_iff (σ : ComparisonSort) (cfg : Config) (ops : List (Op Key))
    (ho : (after σ cfg ops).opened < 2 ^ 32) :
    (kNoToken ∉ returnedBy σ (init cfg) ops ∧ ((after σ cfg ops).byId.size = 0 →
        (returnedBy σ (init cfg) ops).Perm (returnedBy σ (init cfg) (unretired ops)))) ↔
    ∀ pre id post r, ops = pre ++ .retire id :: post →
      (after σ cfg pre).byId.find? id = some r → r.completed = true → r.retired = false →
      ∀ f ∈ r.fragments, f.token ≠ kNoToken := by
  have hcond : Run.Along (step σ) RetiresTracked (init cfg) ops ↔
      ∀ pre id post r, ops = pre ++ .retire id :: post →
        (after σ cfg pre).byId.find? id = some r → r.completed = true → r.retired = false →
        ∀ f ∈ r.fragments, f.token ≠ kNoToken := by
    rw [Run.along_iff_split]
    constructor
    · exact fun h pre id post r hops => h pre _ post hops id r rfl
    · rintro h pre _ post hops id r rfl
      exact h pre id post r hops
  rw [← hcond, ← kNoToken_not_mem_returnedBy_iff]
  refine ⟨And.left, fun hnone => ⟨hnone, fun hempty => perm_iff_count.2 fun T => ?_⟩⟩
  by_cases hT : T = kNoToken
  · rw [hT, count_eq_zero.2 hnone, count_eq_zero.2 kNoToken_not_mem_unretired]
  · exact count_returnedBy_unretired ho hempty hT

/-- A datagram of one tracked fragment, retired and then evicted. -/
theorem untracked_unreported_iff_tracked :
    (after .insertion {} [Op.addFragment (0 : ℕ) ⟨0, 0, false, [1], 5⟩, .retire 1,
      .evictStale 30]).opened < 2 ^ 32 ∧
    ∀ pre id post r, [Op.addFragment (0 : ℕ) ⟨0, 0, false, [1], 5⟩, .retire 1, .evictStale 30]
        = pre ++ .retire id :: post →
      (after .insertion {} pre).byId.find? id = some r → r.completed = true →
      r.retired = false → ∀ f ∈ r.fragments, f.token ≠ kNoToken :=
  ⟨by decide, (untracked_unreported_iff .insertion {} _ (by decide)).1
    ⟨by decide, fun _ => by decide⟩⟩

/-- The same datagram, untracked: `retire` reports `kNoToken`, and without
the retirement nothing is reported. -/
theorem retire_reports_untracked :
    returnedBy .insertion (init {}) [Op.addFragment (0 : ℕ) ⟨0, 0, false, [1], kNoToken⟩,
      .retire 1, .evictStale 30] = [kNoToken] ∧
    returnedBy .insertion (init {}) [Op.addFragment (0 : ℕ) ⟨0, 0, false, [1], kNoToken⟩,
      .evictStale 30] = [] ∧
    (after .insertion {} [Op.addFragment (0 : ℕ) ⟨0, 0, false, [1], kNoToken⟩, .retire 1,
      .evictStale 30]).byId.size = 0 := by
  decide

/-! ## Ageing out -/

/-- **An entry of a real packet ages out early exactly when the sum comes
round.** -/
theorem agedOut_early_iff {r : Reassembly} (hnow : now < 2 ^ 64)
    (hticks : cfg.timeoutTicks < 2 ^ 64) (hreal : r.lastPacketId ≠ kNoPacket)
    (hle : r.lastPacketId ≤ now) :
    (r.agedOut cfg now = true → cfg.timeoutTicks ≤ now - r.lastPacketId) ↔
      r.lastPacketId + cfg.timeoutTicks < 2 ^ 64 := by
  have haged : r.agedOut cfg now = true ↔ u64 (r.lastPacketId + cfg.timeoutTicks) ≤ now := by
    simp [Reassembly.agedOut, hreal]
  rw [haged, u64]
  omega

theorem find?_evictStale_eq_none {r : Reassembly} (hr : t.byId.find? id = some r) :
    (t.evictStale now).1.byId.find? id = none ↔ r.agedOut t.cfg now = true := by
  constructor
  · intro hnone
    by_contra haged
    rw [find?_evictStale.2 ⟨hr, Bool.eq_false_iff.2 haged⟩] at hnone
    cases hnone
  · intro haged
    refine Option.eq_none_iff_forall_ne_some.2 fun r' hr' => ?_
    obtain ⟨hfind, hfresh⟩ := find?_evictStale.1 hr'
    rw [hr, Option.some.injEq] at hfind
    rw [← hfind, haged] at hfresh
    cases hfresh

/-- **No entry of a real packet is evicted early exactly when no sum comes
round.** -/
theorem evicts_late_iff (σ : ComparisonSort) (cfg : Config) (ops : List (Op Key)) (now : ℕ)
    (hticks : cfg.timeoutTicks < 2 ^ 64) (hnow : now < 2 ^ 64) :
    (∀ id r, (after σ cfg ops).byId.find? id = some r → r.lastPacketId ≠ kNoPacket →
      r.lastPacketId ≤ now → ((after σ cfg ops).evictStale now).1.byId.find? id = none →
      cfg.timeoutTicks ≤ now - r.lastPacketId) ↔
    ∀ id r, (after σ cfg ops).byId.find? id = some r → r.lastPacketId ≠ kNoPacket →
      r.lastPacketId ≤ now → r.lastPacketId + cfg.timeoutTicks < 2 ^ 64 := by
  refine forall₄_congr fun id r hr hreal => forall_congr' fun hle => ?_
  rw [find?_evictStale_eq_none hr, cfg_after]
  exact agedOut_early_iff hnow hticks hreal hle

/-- The usual timeout, at the packet that ends it. -/
theorem evicts_late_iff_thirty :
    ({} : Config).timeoutTicks < 2 ^ 64 ∧
    ∀ id r, (after .insertion {} [Op.addFragment (0 : ℕ) ⟨0, 7, true, [1], 0⟩]).byId.find? id
        = some r → r.lastPacketId ≠ kNoPacket → r.lastPacketId ≤ 37 →
      ((after .insertion {} [Op.addFragment (0 : ℕ) ⟨0, 7, true, [1], 0⟩]).evictStale
        37).1.byId.find? id = none → 30 ≤ 37 - r.lastPacketId := by
  refine ⟨by decide, (evicts_late_iff .insertion {} _ 37 (by decide) (by decide)).2
    fun id r _ _ hle => ?_⟩
  have hticks : ({} : Config).timeoutTicks = 30 := rfl
  omega

/-- A timeout meant as never: the entry is gone in the packet it came
with. -/
theorem never_evicts_at_once : (after .insertion { timeoutTicks := 2 ^ 64 - 1 }
      [Op.addFragment (0 : ℕ) ⟨0, 5, true, [1], 0⟩]).byId.size = 1 ∧
    ((after .insertion { timeoutTicks := 2 ^ 64 - 1 }
      [Op.addFragment (0 : ℕ) ⟨0, 5, true, [1], 0⟩]).evictStale 5).1.byId.size = 0 ∧
    ((after .insertion { timeoutTicks := 2 ^ 64 - 1 }
      [Op.addFragment (0 : ℕ) ⟨0, 5, true, [1], 0⟩]).evictStale 5).2.map
        ReassemblySummary.lastPacketId = [5] ∧
    ¬ 2 ^ 64 - 1 ≤ 5 - 5 := by
  decide

end ReassemblyTable

end Nanom.Defrag
