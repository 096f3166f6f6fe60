import Nanom.Defrag.Index
import Nanom.Defrag.Soundness
/-!
# Fragment reassembly — coverage

What the table makes of the positions its fragments cover. The scan of
`add_fragment` stops at the first fragment that starts past the covered
positions, also where that fragment lies beyond the datagram's end; and
`gap_bytes` is read off the highest end of the stored fragments, so a hole
below that end is not counted. Both are exact where the fragments leave no
hole, and only there.
-/

namespace Nanom.Defrag

open Reassembly (exactEnd)

open List Reassembly

variable {σ : ComparisonSort} {f : FragmentSpan} {fs : List FragmentSpan} {p total : ℕ}

/-- Some fragment gives the position a byte. -/
def covers (fs : List FragmentSpan) (p : ℕ) : Bool := fs.any fun f => (f.byteAt p).isSome

theorem covers_iff : covers fs p = true ↔ ∃ f ∈ fs, (f.byteAt p).isSome := by
  simp [covers]

/-- The positions below the total that are covered by no fragment. -/
def uncovered (total : ℕ) (fs : List FragmentSpan) : ℕ :=
  (List.range total).countP fun p => !covers fs p

/-- Any two fragments agree wherever they overlap below the total. -/
def AgreeBelow (total : ℕ) (fs : List FragmentSpan) : Prop :=
  ∀ f ∈ fs, ∀ g ∈ fs, ∀ p < total, ∀ b c, f.byteAt p = some b → g.byteAt p = some c → b = c

/-- No fragment starts past a position that none covers. -/
def Reached (fs : List FragmentSpan) : Prop := ∀ f ∈ fs, ∀ p < f.offsetBytes, covers fs p = true

/-! ## The completing scan -/

/-- **The scan completes exactly where every fragment is reached**, of
fragments that cover the datagram and agree on it. -/
theorem stitch_complete_iff {r : Reassembly} (hfit : ∀ f ∈ r.fragments, f.Fits)
    (hlast : r.haveLast = true) (hcover : ∀ p < r.totalLength, covers r.fragments p = true)
    (hagree : AgreeBelow r.totalLength r.fragments) :
    (∃ parts, r.stitch σ = .complete parts) ↔ Reached r.fragments := by
  have hmem : ∀ g, g ∈ [] ++ σ.sort spanBefore r.fragments ↔ g ∈ r.fragments :=
    fun g => by rw [nil_append, σ.mem_sort]
  have hsome : ∀ p, covers r.fragments p = true →
      ∃ g ∈ [] ++ σ.sort spanBefore r.fragments, (g.byteAt p).isSome := by
    intro p hp
    obtain ⟨g, hg, hgp⟩ := covers_iff.1 hp
    exact ⟨g, (hmem g).2 hg, hgp⟩
  have hfit' : ∀ g ∈ σ.sort spanBefore r.fragments, g.Fits := fun g hg => hfit g (σ.mem_sort.1 hg)
  rw [stitch, if_pos hlast]
  constructor
  · -- whatever the scan passed starts at or below the mark, and below the mark all is covered
    rintro ⟨parts, hc⟩ f hf p hp
    obtain ⟨covered, -, hs⟩ := stitched_nil.of_complete hfit' hc
    have := hs.high f ((hmem f).2 hf)
    obtain ⟨g, hg, hgp⟩ := hs.covers p (by omega)
    exact covers_iff.2 ⟨g, (hmem g).1 hg, hgp⟩
  · intro hreach
    refine stitched_nil.complete hfit' (sort_offsets σ _) ?_ ?_ ?_
    · exact fun g hg p hp => hsome p (hreach g (σ.mem_sort.1 hg) p hp)
    · exact fun p hp => hsome p (hcover p hp)
    · exact fun g hg g' hg' => hagree g ((hmem g).1 hg) g' ((hmem g').1 hg')

/-- What a kept fragment leaves: the entry it was stored in, marked or
completed, and completed if the scan is. -/
theorem absorb_of_retained {r : Reassembly} {cfg : Config}
    (h : (r.absorb σ cfg f).2.retained = true) :
    (r.absorb σ cfg f).1.fragments = (r.stored f).fragments ∧
    (r.absorb σ cfg f).1.haveLast = (r.stored f).haveLast ∧
    (r.absorb σ cfg f).1.totalLength = (r.stored f).totalLength ∧
    ((r.absorb σ cfg f).2.completed = true ↔ ∃ parts, (r.stored f).stitch σ = .complete parts) := by
  rcases absorb_cases σ cfg r f with ⟨-, he⟩ | ⟨-, ⟨hst, he⟩ | ⟨hst, he⟩ | ⟨parts, hst, he⟩⟩
  · rw [he] at h
    cases h
  · rw [he, hst]
    exact ⟨rfl, rfl, rfl, by simp⟩
  · rw [he, hst]
    exact ⟨rfl, rfl, rfl, by simp⟩
  · rw [he, hst]
    exact ⟨rfl, rfl, rfl, by simp⟩

/-! ## The high-water mark -/

theorem le_exactEnd (h : f ∈ fs) : f.offsetBytes + f.data.length ≤ exactEnd fs := by
  induction fs with
  | nil => cases h
  | cons g fs ih =>
    have hcons : exactEnd (g :: fs)
        = max (g.offsetBytes + g.data.length) (exactEnd fs) := rfl
    rcases mem_cons.1 h with rfl | h
    · omega
    · have := ih h
      omega

theorem exists_of_lt_exactEnd (h : p < exactEnd fs) :
    ∃ f ∈ fs, p < f.offsetBytes + f.data.length := by
  induction fs with
  | nil => exact absurd h (Nat.not_lt_zero p)
  | cons g fs ih =>
    have hcons : exactEnd (g :: fs)
        = max (g.offsetBytes + g.data.length) (exactEnd fs) := rfl
    by_cases hg : p < g.offsetBytes + g.data.length
    · exact ⟨g, mem_cons_self, hg⟩
    · obtain ⟨f, hf, hlt⟩ := ih (by omega)
      exact ⟨f, mem_cons_of_mem g hf, hlt⟩

theorem covers_eq_false_of_le (h : exactEnd fs ≤ p) : covers fs p = false := by
  by_contra hc
  obtain ⟨f, hf, hfp⟩ := covers_iff.1 (by simpa using hc)
  have := le_exactEnd hf
  have := (byteAt_isSome.1 hfp).2
  omega

/-- The uncovered positions, counted on either side of the highest end. -/
theorem uncovered_eq (total : ℕ) (fs : List FragmentSpan) :
    uncovered total fs = uncovered (min (exactEnd fs) total) fs
      + (total - exactEnd fs) := by
  set high := exactEnd fs with hhigh
  have hsplit : total = min high total + (total - high) := by omega
  have habove : ((range (total - high)).map (min high total + ·)).countP
      (fun p => !covers fs p) = total - high := by
    rw [countP_eq_length.2, length_map, length_range]
    intro p hp
    obtain ⟨i, hi, rfl⟩ := mem_map.1 hp
    have := mem_range.1 hi
    rw [covers_eq_false_of_le (by omega)]
    rfl
  conv_lhs => rw [hsplit]
  rw [uncovered, range_add, countP_append, habove, uncovered]

theorem uncovered_eq_zero_iff : uncovered total fs = 0 ↔ ∀ p < total, covers fs p = true := by
  simp [uncovered]

namespace Reassembly

variable {r : Reassembly} {cfg : Config}

/-- **The reported gap is exact where no hole lies below an end.** -/
theorem gapBytes_eq_iff (hcount : r.Counted cfg) (hret : r.retired = false)
    (hfit : ∀ g ∈ r.fragments, g.Fits) (hlast : r.haveLast = true) :
    r.summary.gapBytes = uncovered r.totalLength r.fragments ↔
      ∀ g ∈ r.fragments, ∀ p < min (g.offsetBytes + g.data.length) r.totalLength,
        covers r.fragments p = true := by
  have hhigh : r.coveredHigh = exactEnd r.fragments := by
    rw [hcount.high hret, highestEnd_eq_exactEnd hfit]
  have hgap : r.summary.gapBytes = r.totalLength - exactEnd r.fragments := by
    simp only [summary, hlast, Bool.true_and, decide_eq_true_eq]
    split <;> omega
  rw [uncovered_eq r.totalLength r.fragments]
  refine Iff.trans (b := uncovered (min (exactEnd r.fragments) r.totalLength) r.fragments = 0)
    (by omega) (uncovered_eq_zero_iff.trans ⟨?_, ?_⟩)
  · intro h g hg p hp
    have := le_exactEnd hg
    exact h p (by omega)
  · intro h p hp
    obtain ⟨g, hg, hlt⟩ := exists_of_lt_exactEnd (show p < exactEnd r.fragments by omega)
    exact h g hg p (by omega)

end Reassembly

namespace ReassemblyTable

variable {Key : Type} [DecidableEq Key] {cfg : Config}

/-- **When a covered datagram completes.** A fragment that is kept leaves an entry
holding it. Where a terminal fragment has been seen and the stored fragments cover
the datagram and agree on it, the call returns completed exactly if none of them
starts past a position that none covers, beyond the datagram's end as well. -/
theorem covered_completes_iff (σ : ComparisonSort) (cfg : Config) (ops : List (Op Key))
    (hops : ∀ key f, Op.addFragment key f ∈ ops → f.Fits) (key : Key) (f : FragmentSpan)
    (hf : f.Fits) (hkept : ((after σ cfg ops).addFragment σ key f).2.retained = true) :
    ∃ r, ((after σ cfg ops).addFragment σ key f).1.find
        ((after σ cfg ops).addFragment σ key f).2.datagramId = some r ∧ f ∈ r.fragments ∧
      (r.haveLast = true → (∀ p < r.totalLength, covers r.fragments p = true) →
        AgreeBelow r.totalLength r.fragments →
        (((after σ cfg ops).addFragment σ key f).2.completed = true ↔ Reached r.fragments)) := by
  set t := after σ cfg ops with ht
  rcases hs : t.slot key f.packetId with - | s
  · rw [addFragment_of_none hs] at hkept
    cases hkept
  have hout := addFragment_of_slot (σ := σ) hs
  have hid : (t.addFragment σ key f).2.datagramId = s.id := by rw [hout]
  have hdone : (t.addFragment σ key f).2.completed = (s.entry.absorb σ t.cfg f).2.completed := by
    rw [hout]
  have hkept' : (s.entry.absorb σ t.cfg f).2.retained = true := by rw [hout] at hkept; exact hkept
  obtain ⟨hfrags, hlast, htotal, hiff⟩ := absorb_of_retained hkept'
  refine ⟨(s.entry.absorb σ t.cfg f).1, ?_, ?_, ?_⟩
  · rw [find, hid, find?_addFragment_of_slot hs, if_pos rfl]
  · rw [hfrags]
    exact mem_append_right _ (mem_singleton_self f)
  · rw [hfrags, hlast, htotal, hdone, hiff]
    refine fun hl hcover hagree => stitch_complete_iff ?_ hl hcover hagree
    intro g hg
    rw [stored_fragments] at hg
    rcases mem_append.1 hg with hg | hg
    · exact fits_slot hops hs g hg
    · rwa [mem_singleton.1 hg]

/-- Two halves of a datagram, and nothing past its end. -/
theorem covered_completes_iff_halves :
    ∃ r, ((after .insertion {} [Op.addFragment 0 ⟨2, 0, false, [7, 8], 1⟩]).addFragment
        .insertion 0 ⟨0, 1, true, [5, 6], 2⟩).1.find 1 = some r ∧
      (⟨0, 1, true, [5, 6], 2⟩ : FragmentSpan) ∈ r.fragments ∧
      (r.haveLast = true → (∀ p < r.totalLength, covers r.fragments p = true) →
        AgreeBelow r.totalLength r.fragments → (true = true ↔ Reached r.fragments)) := by
  refine covered_completes_iff .insertion {} [Op.addFragment (0 : ℕ) ⟨2, 0, false, [7, 8], 1⟩] ?_
    0 ⟨0, 1, true, [5, 6], 2⟩ (by unfold FragmentSpan.Fits; decide) (by decide)
  intro key f hf
  simp only [mem_singleton, Op.addFragment.injEq] at hf
  rw [hf.2]
  decide

/-- A fragment past the end of a datagram holds it open. The second
fragment is terminal and the whole datagram; the first lies ten bytes
beyond it. -/
theorem stray_holds_open :
    ∃ r, ((after .insertion {} [Op.addFragment 0 ⟨14, 0, true, [9], 1⟩]).addFragment
        .insertion 0 ⟨0, 1, false, [5, 6, 7, 8], 2⟩).1.find 1 = some r ∧
      r.haveLast = true ∧ r.totalLength = 4 ∧ (∀ p < r.totalLength, covers r.fragments p = true) ∧
      AgreeBelow r.totalLength r.fragments ∧
      ((after .insertion {} [Op.addFragment 0 ⟨14, 0, true, [9], 1⟩]).addFragment
        .insertion 0 ⟨0, 1, false, [5, 6, 7, 8], 2⟩).2
          = { datagramId := 1, completed := false, retained := true, parts := [] } := by
  refine ⟨{
      datagramId := 1, firstPacketId := 0, lastPacketId := 1, haveLast := true, totalLength := 4,
      fragmentCount := 2, coveredHigh := 15,
      fragments := [⟨14, 0, true, [9], 1⟩, ⟨0, 1, false, [5, 6, 7, 8], 2⟩] },
    by decide, rfl, rfl, by decide, ?_, by decide⟩
  -- the two do not overlap, and each agrees with itself
  intro f hf g hg p hp b c hb hc
  change p < 4 at hp
  simp only [mem_cons, not_mem_nil, or_false] at hf hg
  rcases hf with rfl | rfl
  · have := (lt_of_byteAt hb).1
    dsimp only at this
    omega
  rcases hg with rfl | rfl
  · have := (lt_of_byteAt hc).1
    dsimp only at this
    omega
  · rw [hb, Option.some.injEq] at hc
    exact hc

/-- **The gap an eviction reports.** After any run, an entry that has seen a
terminal fragment and is evicted reports as its gap the number of positions of the
datagram that no fragment covers, exactly if every position below the end of a
stored fragment is covered. -/
theorem gapBytes_exact_iff (σ : ComparisonSort) (cfg : Config) (ops : List (Op Key))
    (hops : ∀ key f, Op.addFragment key f ∈ ops → f.Fits) (hretire : ∀ id, Op.retire id ∉ ops)
    (now id : ℕ) (r : Reassembly) (hr : (after σ cfg ops).find id = some r)
    (haged : r.agedOut cfg now = true) (hlast : r.haveLast = true) :
    r.summary ∈ ((after σ cfg ops).evictStale now).2 ∧
    (r.summary.gapBytes = uncovered r.totalLength r.fragments ↔
      ∀ g ∈ r.fragments, ∀ p < min (g.offsetBytes + g.data.length) r.totalLength,
        covers r.fragments p = true) := by
  have hret : r.retired = false := by
    refine entry_inv_along (P := fun _ r => r.retired = false)
      (C := fun _ op => ∀ d, op ≠ Op.retire d) (fun _ _ => rfl) ?_ ?_ ?_ id r hr
    · exact fun t key f s _ _ h => absorb_retired.trans h
    · exact fun t d h => absurd rfl (h d)
    · exact Run.along_of_forall fun _ op hop d he => hretire d (he ▸ hop)
  refine ⟨?_, ?_⟩
  · refine mem_map.2 ⟨(id, r), mem_filter.2 ⟨Assoc.mem_entries_iff.2 hr, ?_⟩, rfl⟩
    rw [cfg_after]
    exact haged
  · exact gapBytes_eq_iff (counted_after σ cfg ops id r hr) hret
      (fits_after hops id r hr) hlast

/-- An entry whose terminal fragment was too large to keep: eight bytes
are missing, all past what it stores. -/
theorem gapBytes_exact_iff_short :
    ∃ r, (after .insertion ⟨10, 4, 30⟩ [Op.addFragment 0 ⟨0, 0, true, [1, 2, 3, 4], 1⟩,
        Op.addFragment 0 ⟨4, 1, false, [1, 2, 3, 4, 5, 6, 7, 8], 2⟩]).find 1 = some r ∧
      r.totalLength = 12 ∧ r.summary.gapBytes = uncovered r.totalLength r.fragments := by
  refine ⟨{
      datagramId := 1, firstPacketId := 0, lastPacketId := 1, haveLast := true, totalLength := 12,
      fragmentCount := 1, coveredHigh := 4, fragments := [⟨0, 0, true, [1, 2, 3, 4], 1⟩] },
    by decide, rfl, (gapBytes_exact_iff .insertion ⟨10, 4, 30⟩
      [Op.addFragment (0 : ℕ) ⟨0, 0, true, [1, 2, 3, 4], 1⟩,
        Op.addFragment 0 ⟨4, 1, false, [1, 2, 3, 4, 5, 6, 7, 8], 2⟩] ?_ ?_ 31 1 _ (by decide)
      (by decide) rfl).2.2 (by decide)⟩
  · intro key f hf
    simp only [mem_cons, not_mem_nil, or_false] at hf
    rcases hf with ⟨-, rfl⟩ | ⟨-, rfl⟩ <;> unfold FragmentSpan.Fits <;> decide
  · intro id hid
    simp at hid

/-- A hole in the middle is not reported. -/
theorem gapBytes_misses_hole :
    ∃ r, (after .insertion {} [Op.addFragment 0 ⟨0, 0, true, [1, 2, 3, 4], 1⟩,
        Op.addFragment 0 ⟨8, 1, false, [5, 6, 7, 8], 2⟩]).find 1 = some r ∧
      r.agedOut {} 31 = true ∧ r.haveLast = true ∧ r.totalLength = 12 ∧
      uncovered r.totalLength r.fragments = 4 ∧
      ((after .insertion {} [Op.addFragment 0 ⟨0, 0, true, [1, 2, 3, 4], 1⟩,
        Op.addFragment 0 ⟨8, 1, false, [5, 6, 7, 8], 2⟩]).evictStale 31).2.map
          ReassemblySummary.gapBytes = [0] := by
  refine ⟨{
      datagramId := 1, firstPacketId := 0, lastPacketId := 1, haveLast := true, totalLength := 12,
      fragmentCount := 2, coveredHigh := 12,
      fragments := [⟨0, 0, true, [1, 2, 3, 4], 1⟩, ⟨8, 1, false, [5, 6, 7, 8], 2⟩] },
    by decide, by decide, rfl, rfl, by decide, by decide⟩

end ReassemblyTable

end Nanom.Defrag
