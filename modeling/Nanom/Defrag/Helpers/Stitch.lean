import Nanom.Defrag.Model
/-!
# Fragment reassembly — the stitching loop

A fragment gives a byte at each position it covers (`byteAt`); the views emitted
so far spell a prefix of the datagram that agrees with every fragment passed
(`Stitched`). One round of the loop keeps that, whatever the overlaps, and fails
only at a position no fragment covers or two fragments dispute — so on sorted
fragments the loop decides coverage, in both directions.
-/

namespace Nanom.Defrag

open FragmentSpan

open List

variable {f g : FragmentSpan} {p total covered : ℕ} {b : UInt8} {parts : List Bytes}
variable {done fs : List FragmentSpan}

/-- The byte a fragment gives at a position of the datagram. -/
def FragmentSpan.byteAt (f : FragmentSpan) (p : ℕ) : Option UInt8 :=
  if f.offsetBytes ≤ p then f.data[p - f.offsetBytes]? else none

/-- The fragment ends below the width of its counters. -/
def FragmentSpan.Fits (f : FragmentSpan) : Prop := f.offsetBytes + f.data.length < 2 ^ 32

instance (f : FragmentSpan) : Decidable f.Fits := inferInstanceAs (Decidable (_ < _))

theorem endBytes_of_fits (h : f.Fits) : f.endBytes = f.offsetBytes + f.data.length := by
  unfold FragmentSpan.Fits at h
  rw [endBytes, u32_of_lt (n := f.data.length) (by omega), u32_of_lt h]

theorem byteAt_isSome :
    (f.byteAt p).isSome ↔ f.offsetBytes ≤ p ∧ p < f.offsetBytes + f.data.length := by
  rw [byteAt]
  split
  · rw [isSome_getElem?]; omega
  · simp; omega

theorem byteAt_add (i : ℕ) : f.byteAt (f.offsetBytes + i) = f.data[i]? := by
  rw [byteAt, if_pos (Nat.le_add_right _ _), Nat.add_sub_cancel_left]

theorem lt_of_byteAt (h : f.byteAt p = some b) :
    f.offsetBytes ≤ p ∧ p < f.offsetBytes + f.data.length :=
  byteAt_isSome.1 (by rw [h]; rfl)

/-! ## Comparing against what has been emitted -/

/-- **`range_equals` compares the range it is asked to.** The walk over
the parts reads `want` from `wi` on against the content from `skip` on,
wherever the part boundaries fall. -/
theorem rangeEqualsFrom_iff (want : Bytes) : ∀ (parts : List Bytes) (skip wi : ℕ),
    wi ≤ want.length → skip + (want.length - wi) ≤ parts.flatten.length →
    (rangeEqualsFrom want parts skip wi = true ↔
      subspan parts.flatten skip (want.length - wi) = want.drop wi) := by
  intro parts
  induction parts with
  | nil =>
    intro skip wi hwi hlen
    rw [flatten_nil, length_nil] at hlen
    have hwi' : wi = want.length := by omega
    simp [rangeEqualsFrom, hwi', subspan]
  | cons p ps ih =>
    intro skip wi hwi hlen
    rw [flatten_cons, length_append] at hlen
    rw [rangeEqualsFrom, flatten_cons]
    by_cases hskip : p.length ≤ skip
    · rw [if_pos hskip, ih _ _ hwi (by omega), subspan_append_of_le hskip]
    rw [if_neg hskip, subspan_append_of_lt (by omega)]
    set here := min (p.length - skip) (want.length - wi) with hhere
    have hleft : (subspan p skip here).length = here := length_subspan (by omega)
    have hsplit : want.drop wi = subspan want wi here ++ want.drop (wi + here) := by
      rw [subspan, ← drop_drop, take_append_drop]
    have hright : (subspan want wi here).length = here := length_subspan (by omega)
    -- both sides split after the bytes this part is compared on
    rw [hsplit, append_eq_append_of_length (by rw [hleft, hright])]
    by_cases heq : subspan p skip here = subspan want wi here
    · rw [if_neg (not_not.2 heq)]
      by_cases hend : wi + here = want.length
      · rw [if_pos hend, hend, show want.length - wi - (p.length - skip) = 0 by omega]
        exact ⟨fun _ => ⟨heq, by simp [subspan]⟩, fun _ => rfl⟩
      · rw [if_neg hend, ih 0 (wi + here) (by omega) (by omega)]
        -- the part is used up: the rest of `want` is compared from the next part's start
        rw [show want.length - wi - (p.length - skip) = want.length - (wi + here) by omega]
        simp [heq]
    · simp [heq]

theorem rangeEquals_iff {start : ℕ} {want : Bytes}
    (h : start + want.length ≤ parts.flatten.length) :
    rangeEquals parts start want = true ↔ subspan parts.flatten start want.length = want := by
  rw [rangeEquals, rangeEqualsFrom_iff want parts start 0 (Nat.zero_le _) (by omega)]
  simp

/-! ## One round of the loop -/

/-- The views emitted so far, against the fragments passed so far. -/
structure Stitched (total : ℕ) (done : List FragmentSpan) (covered : ℕ) (parts : List Bytes) :
    Prop where
  /-- They spell the covered prefix, clamped to the declared total. -/
  length : parts.flatten.length = min covered total
  /-- No fragment reaches past the high-water mark. -/
  high : ∀ f ∈ done, f.offsetBytes + f.data.length ≤ covered
  /-- Every position below the mark is some fragment's. -/
  covers : ∀ p < covered, ∃ f ∈ done, (f.byteAt p).isSome
  /-- The views carry the byte every fragment gives. -/
  agree : ∀ f ∈ done, ∀ p < total, ∀ b, f.byteAt p = some b → parts.flatten[p]? = some b

theorem stitched_nil : Stitched total [] 0 [] := ⟨by simp, by simp, by simp, by simp⟩

theorem overlapDisagrees_eq_false_iff (hlen : parts.flatten.length = min covered total) :
    overlapDisagrees total covered parts f = false ↔
      ∀ p < min covered total, ∀ b, f.byteAt p = some b → parts.flatten[p]? = some b := by
  set ov := min (min covered total - f.offsetBytes) f.data.length with hov
  by_cases hlt : f.offsetBytes < min covered total
  · have htake : (f.data.take ov).length = ov := by rw [length_take]; omega
    have hiff : overlapDisagrees total covered parts f = false ↔
        subspan parts.flatten f.offsetBytes ov = f.data.take ov := by
      rw [overlapDisagrees]
      simp only [hlt, decide_true, Bool.true_and, Bool.not_eq_false']
      rw [rangeEquals_iff (by rw [htake]; omega), htake]
    rw [hiff]
    constructor
    · intro h p hp b hb
      obtain ⟨hle, hend⟩ := lt_of_byteAt hb
      have hget := congrArg (fun l => l[p - f.offsetBytes]?) h
      simp only [getElem?_subspan, getElem?_take] at hget
      rw [if_pos (by omega), if_pos (by omega), Nat.add_sub_cancel' hle] at hget
      rw [byteAt, if_pos hle] at hb
      rw [hget, hb]
    · intro h
      refine ext_getElem? fun i => ?_
      rw [getElem?_subspan, getElem?_take]
      by_cases hi : i < ov
      · rw [if_pos hi, if_pos hi]
        have hsome : i < f.data.length := by omega
        rw [getElem?_eq_getElem hsome]
        exact h _ (by omega) _ (by rw [byteAt_add, getElem?_eq_getElem hsome])
      · rw [if_neg hi, if_neg hi]
  · -- nothing of the fragment lies below the mark, so there is nothing to compare
    constructor
    · intro _ p hp b hb
      have := (lt_of_byteAt hb).1
      omega
    · simp [overlapDisagrees, hlt]

theorem flatten_emitTail (hfit : f.Fits) (hgap : f.offsetBytes ≤ covered) :
    (emitTail total covered parts f).flatten = parts.flatten ++
      subspan f.data (covered - f.offsetBytes)
        (min (f.offsetBytes + f.data.length) total - covered) := by
  rw [emitTail, endBytes_of_fits hfit]
  by_cases hlt : max f.offsetBytes (min covered total) < min (f.offsetBytes + f.data.length) total
  -- a tail is emitted only below the total, so the mark is not clamped here
  · have hfrom : max f.offsetBytes (min covered total) = covered := by omega
    rw [hfrom] at hlt ⊢
    rw [if_pos hlt, flatten_append, flatten_singleton]
  · rw [if_neg hlt, show min (f.offsetBytes + f.data.length) total - covered = 0 by omega]
    simp [subspan]

/-- **One round of the loop** passes a fragment that neither leaves a gap
nor disputes a byte. -/
theorem Stitched.step (h : Stitched total done covered parts) (hfit : f.Fits)
    (hgap : f.offsetBytes ≤ covered) (hov : overlapDisagrees total covered parts f = false) :
    Stitched total (done ++ [f]) (if covered < f.endBytes then f.endBytes else covered)
      (emitTail total covered parts f) := by
  have hend := endBytes_of_fits hfit
  have hmark : (if covered < f.endBytes then f.endBytes else covered)
      = max covered (f.offsetBytes + f.data.length) := by
    rw [hend]; split <;> omega
  have hflat : (emitTail total covered parts f).flatten = parts.flatten ++
      subspan f.data (covered - f.offsetBytes)
        (min (f.offsetBytes + f.data.length) total - covered) := flatten_emitTail hfit hgap
  have hlen : (subspan f.data (covered - f.offsetBytes)
      (min (f.offsetBytes + f.data.length) total - covered)).length
        = min (f.offsetBytes + f.data.length) total - covered := by
    by_cases hz : min (f.offsetBytes + f.data.length) total ≤ covered
    · rw [Nat.sub_eq_zero_of_le hz]; simp [subspan]
    · exact length_subspan (by omega)
  have hplen := h.length
  constructor
  · rw [hflat, length_append]; omega
  · intro g hg
    rcases mem_append.1 hg with hg | hg
    · have := h.high g hg; omega
    · rw [mem_singleton.1 hg]; omega
  · intro p hp
    by_cases hc : p < covered
    · obtain ⟨g, hg, hgp⟩ := h.covers p hc
      exact ⟨g, mem_append_left _ hg, hgp⟩
    · exact ⟨f, by simp, byteAt_isSome.2 (by omega)⟩
  · intro g hg p hp b hb
    rw [hflat]
    rcases mem_append.1 hg with hg | hg
    -- a passed fragment's bytes were emitted before
    · have hlow : p < parts.flatten.length := by
        have := h.high g hg
        have := (lt_of_byteAt hb).2
        omega
      rw [getElem?_append_left hlow]
      exact h.agree g hg p hp b hb
    · rw [mem_singleton.1 hg] at hb
      by_cases hlow : p < parts.flatten.length
      -- of this fragment's: below the mark they were compared, above it they are the tail
      · rw [getElem?_append_left hlow]
        exact (overlapDisagrees_eq_false_iff hplen).1 hov p (by omega) b hb
      · obtain ⟨hle, hlt⟩ := lt_of_byteAt hb
        rw [getElem?_append_right (by omega), getElem?_subspan, if_pos (by omega)]
        rw [byteAt, if_pos hle] at hb
        rw [← hb]
        congr 1
        omega

/-! ## The whole loop -/

/-- **What a completed loop has stitched**: the views spell the whole
datagram and agree with every fragment of it. -/
theorem Stitched.of_complete {ps : List Bytes} (hfit : ∀ f ∈ fs, f.Fits)
    (h : Stitched total done covered parts) (hc : assemble total fs covered parts = .complete ps) :
    ∃ covered', total ≤ covered' ∧ Stitched total (done ++ fs) covered' ps := by
  induction fs generalizing done covered parts with
  | nil =>
    rw [assemble] at hc
    split at hc
    · cases hc
    · cases hc
      exact ⟨covered, by omega, by rwa [append_nil]⟩
  | cons f fs ih =>
    rw [assemble] at hc
    split at hc
    · cases hc
    split at hc
    · cases hc
    · rename_i hgap hov
      have hstep := h.step (hfit f mem_cons_self) (by omega) (by simpa using hov)
      obtain ⟨c, hle, hs⟩ := ih (forall_mem_cons.1 hfit).2 hstep hc
      exact ⟨c, hle, by rwa [append_assoc, singleton_append] at hs⟩

/-- **The loop completes where nothing stands in its way.** The fragments
are in order, every position before a fragment's start or below the total
is some fragment's, and no two give a position different bytes. -/
theorem Stitched.complete (hfit : ∀ f ∈ fs, f.Fits)
    (hsorted : fs.Pairwise fun f g => f.offsetBytes ≤ g.offsetBytes)
    (hreach : ∀ f ∈ fs, ∀ p < f.offsetBytes, ∃ g ∈ done ++ fs, (g.byteAt p).isSome)
    (hcover : ∀ p < total, ∃ f ∈ done ++ fs, (f.byteAt p).isSome)
    (hagree : ∀ f ∈ done ++ fs, ∀ g ∈ done ++ fs, ∀ p < total, ∀ b c,
      f.byteAt p = some b → g.byteAt p = some c → b = c) (h : Stitched total done covered parts) :
    ∃ ps, assemble total fs covered parts = .complete ps := by
  induction fs generalizing done covered parts with
  | nil =>
    rw [append_nil] at hcover
    rw [assemble, if_neg]
    · exact ⟨parts, rfl⟩
    -- the byte at the mark would be a passed fragment's, and none reaches past the mark
    · intro hlt
      obtain ⟨g, hg, hgp⟩ := hcover covered hlt
      have := h.high g hg
      have := (byteAt_isSome.1 hgp).2
      omega
  | cons f fs ih =>
    rw [pairwise_cons] at hsorted
    have hgap : ¬ covered < f.offsetBytes := by
      -- the byte at the mark is nobody's: not a passed fragment's, and the rest start later
      intro hlt
      obtain ⟨g, hg, hgp⟩ := hreach f mem_cons_self covered hlt
      obtain ⟨hle, hend⟩ := byteAt_isSome.1 hgp
      rcases mem_append.1 hg with hg | hg
      · have := h.high g hg; omega
      · rcases mem_cons.1 hg with rfl | hg
        · omega
        · have := hsorted.1 g hg; omega
    have hov : overlapDisagrees total covered parts f = false := by
      -- below the mark the views carry some passed fragment's byte, and the two agree
      rw [overlapDisagrees_eq_false_iff h.length]
      intro p hp b hb
      obtain ⟨g, hg, hgp⟩ := h.covers p (by omega)
      obtain ⟨c, hc⟩ := Option.isSome_iff_exists.1 hgp
      rw [hagree f (by simp) g (mem_append_left _ hg) p (by omega) b c hb hc]
      exact h.agree g hg p (by omega) c hc
    rw [assemble, if_neg hgap, if_neg (by simp [hov])]
    have happ : done ++ f :: fs = (done ++ [f]) ++ fs := by simp
    rw [happ] at hcover hagree hreach
    exact ih (forall_mem_cons.1 hfit).2 hsorted.2
      (forall_mem_cons.1 hreach).2 hcover hagree
      (h.step (hfit f mem_cons_self) (by omega) hov)

/-- **A conflict is a dispute.** The loop reports one only where two of
its fragments give a position below the total different bytes. -/
theorem Stitched.of_conflict (hfit : ∀ f ∈ fs, f.Fits) (h : Stitched total done covered parts)
    (hc : assemble total fs covered parts = .conflict) :
    ∃ f ∈ done ++ fs, ∃ g ∈ done ++ fs, ∃ p < total, ∃ b c,
      f.byteAt p = some b ∧ g.byteAt p = some c ∧ b ≠ c := by
  induction fs generalizing done covered parts with
  | nil =>
    rw [assemble] at hc
    split at hc <;> cases hc
  | cons f fs ih =>
    rw [assemble] at hc
    split at hc
    · cases hc
    by_cases hov : overlapDisagrees total covered parts f = false
    · rw [if_neg (by simp [hov])] at hc
      have hstep := h.step (hfit f mem_cons_self) (by omega) hov
      have hrest := ih (forall_mem_cons.1 hfit).2 hstep hc
      rwa [append_assoc, singleton_append] at hrest
    rw [overlapDisagrees_eq_false_iff h.length] at hov
    simp only [not_forall] at hov
    obtain ⟨p, hp, b, hb, hne⟩ := hov
    -- the views carry a passed fragment's byte there, and it is another one
    obtain ⟨g, hg, hgp⟩ := h.covers p (by omega)
    obtain ⟨c, hgc⟩ := Option.isSome_iff_exists.1 hgp
    refine ⟨f, by simp, g, mem_append_left _ hg, p, by omega, b, c, hb, hgc, ?_⟩
    rintro rfl
    exact hne (h.agree g hg p (by omega) b hgc)

/-! ## The order of stitching -/

theorem strictWeak_spanBefore : StrictWeak spanBefore := by
  constructor
  · intro a b h
    unfold spanBefore at h ⊢
    split at h <;> split <;> simp_all <;> omega
  · intro a b c hab hbc
    unfold spanBefore at hab hbc ⊢
    split at hab <;> split at hbc <;> split <;> simp_all <;> omega

theorem sort_offsets (σ : ComparisonSort) (l : List FragmentSpan) :
    (σ.sort spanBefore l).Pairwise fun f g => f.offsetBytes ≤ g.offsetBytes := by
  refine (σ.sorted strictWeak_spanBefore l).imp fun {f g} h => ?_
  unfold spanBefore at h
  split at h <;> simp_all

end Nanom.Defrag
