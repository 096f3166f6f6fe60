import Nanom.Defrag.Step
/-!
# Fragment reassembly — a completed datagram is its fragments

Whatever was fed before, under whatever keys and in whatever order, a
datagram handed back as completed spells its declared length and carries
at every position the byte that every stored fragment of it gives there.
The only thing a run must keep for this is that stored fragments end
below `2 ^ 32`.
-/

namespace Nanom.Defrag

open List

variable {Key : Type} [DecidableEq Key] {σ : ComparisonSort} {cfg : Config}

/-- The views a completed entry was stitched from agree with every
fragment it stores. -/
theorem Reassembly.absorb_sound {r : Reassembly} {f : FragmentSpan}
    (hr : ∀ g ∈ r.fragments, g.Fits) (hf : f.Fits) (hc : (r.absorb σ cfg f).2.completed = true) :
    ∃ covered, (r.absorb σ cfg f).1.totalLength ≤ covered ∧
      Stitched (r.absorb σ cfg f).1.totalLength (σ.sort spanBefore (r.absorb σ cfg f).1.fragments)
        covered (r.absorb σ cfg f).2.parts := by
  rcases absorb_cases σ cfg r f with ⟨-, h⟩ | ⟨-, ⟨-, h⟩ | ⟨-, h⟩ | ⟨parts, hst, h⟩⟩
  · simp [h] at hc
  · simp [h] at hc
  · simp [h] at hc
  rw [h]
  have hasm : assemble (r.stored f).totalLength (σ.sort spanBefore (r.stored f).fragments) 0 []
      = .complete parts := by
    unfold stitch at hst
    split at hst
    · exact hst
    · cases hst
  have hfit : ∀ g ∈ σ.sort spanBefore (r.stored f).fragments, g.Fits := by
    intro g hg
    rw [σ.mem_sort, stored_fragments, mem_append, mem_singleton] at hg
    rcases hg with hg | rfl
    · exact hr g hg
    · exact hf
  obtain ⟨covered, hle, hs⟩ := stitched_nil.of_complete hfit hasm
  exact ⟨covered, hle, by rwa [nil_append] at hs⟩

namespace ReassemblyTable

/-- Every fragment a run stores ends below `2 ^ 32`, where every fragment
it is fed does. -/
theorem fits_after {ops : List (Op Key)} (hops : ∀ key f, Op.addFragment key f ∈ ops → f.Fits) :
    ∀ id r, (after σ cfg ops).byId.find? id = some r → ∀ g ∈ r.fragments, g.Fits := by
  refine entry_inv ?_ ?_ ?_ hops
  · intro id pid g hg
    cases hg
  · intro r f hr hf g hg
    rw [Reassembly.absorb_fragments] at hg
    split at hg
    · rcases mem_append.1 hg with hg | hg
      · exact hr g hg
      · rwa [mem_singleton.1 hg]
    · exact hr g hg
  · intro r _ g hg
    cases hg

theorem fits_slot {ops : List (Op Key)} (hops : ∀ key f, Op.addFragment key f ∈ ops → f.Fits)
    {key : Key} {pid : ℕ} {s : Slot Key} (hs : (after σ cfg ops).slot key pid = some s) :
    ∀ g ∈ s.entry.fragments, g.Fits := by
  intro g hg
  rcases slot_entry hs with hold | ⟨-, hnew⟩
  · exact fits_after hops s.id s.entry hold g hg
  · rw [hnew] at hg
    cases hg

/-- **Reassembly soundness.** After any run, a fragment whose
`add_fragment` returns completed leaves an entry whose views spell
exactly its total length and, at every position, the byte every stored
fragment of the entry gives there. -/
theorem reassembly_sound (σ : ComparisonSort) (cfg : Config) (ops : List (Op Key))
    (hops : ∀ key f, Op.addFragment key f ∈ ops → f.Fits) (key : Key) (f : FragmentSpan)
    (hf : f.Fits) (hc : ((after σ cfg ops).addFragment σ key f).2.completed = true) :
    ∃ r, ((after σ cfg ops).addFragment σ key f).1.find
        ((after σ cfg ops).addFragment σ key f).2.datagramId = some r ∧
      ((after σ cfg ops).addFragment σ key f).2.parts.flatten.length = r.totalLength ∧
      ∀ g ∈ r.fragments, ∀ p < r.totalLength, ∀ b, g.byteAt p = some b →
        ((after σ cfg ops).addFragment σ key f).2.parts.flatten[p]? = some b := by
  set t := after σ cfg ops with ht
  rcases hs : t.slot key f.packetId with - | s
  · rw [addFragment_of_none hs] at hc
    cases hc
  have hentry : ∀ g ∈ s.entry.fragments, g.Fits := fits_slot hops hs
  have hout := addFragment_of_slot (σ := σ) hs
  have hc' : (s.entry.absorb σ t.cfg f).2.completed = true := by rw [hout] at hc; exact hc
  obtain ⟨covered, hle, hst⟩ := Reassembly.absorb_sound hentry hf hc'
  have hparts : (t.addFragment σ key f).2.parts = (s.entry.absorb σ t.cfg f).2.parts := by rw [hout]
  have hid : (t.addFragment σ key f).2.datagramId = s.id := by rw [hout]
  refine ⟨(s.entry.absorb σ t.cfg f).1, ?_, ?_, ?_⟩
  · rw [find, hid, find?_addFragment_of_slot hs, if_pos rfl]
  · rw [hparts, hst.length]
    omega
  · intro g hg p hp b hb
    rw [hparts]
    exact hst.agree g (σ.mem_sort.2 hg) p hp b hb

/-- A datagram of three bytes, its tail first. -/
theorem reassembly_sound_three :
    ∃ r, ((after .insertion {} [Op.addFragment 0 ⟨2, 0, false, [7], 1⟩]).addFragment
      .insertion 0 ⟨0, 1, true, [5, 6], 2⟩).1.find 1 = some r ∧
    [(5 : UInt8), 6, 7].length = r.totalLength ∧
    ∀ g ∈ r.fragments, ∀ p < r.totalLength, ∀ b, g.byteAt p = some b →
      [(5 : UInt8), 6, 7][p]? = some b := by
  refine reassembly_sound .insertion {} [Op.addFragment (0 : ℕ) ⟨2, 0, false, [7], 1⟩] ?_ 0
    ⟨0, 1, true, [5, 6], 2⟩ ?_ ?_
  · intro key f hf
    simp only [mem_singleton, Op.addFragment.injEq] at hf
    rw [hf.2]
    unfold FragmentSpan.Fits
    decide
  · unfold FragmentSpan.Fits
    decide
  · decide

end ReassemblyTable

end Nanom.Defrag
