import Nanom.Defrag.Coverage
/-!
# Fragment reassembly — conflicts

An entry is marked where the scan meets two fragments that disagree; but every
later fragment runs the scan again, against the total length of the latest
terminal fragment. One that ends below the disputed position takes the dispute
out of the scan's sight, and the marked entry completes. While the length of a
marked entry is not lowered the mark is final.
-/

namespace Nanom.Defrag

open List Reassembly

variable {σ : ComparisonSort} {cfg : Config} {f : FragmentSpan}

/-- Two fragments give a position below the total different bytes. -/
def Disputed (total : ℕ) (fs : List FragmentSpan) : Prop :=
  ∃ f ∈ fs, ∃ g ∈ fs, ∃ p < total, ∃ b c, f.byteAt p = some b ∧ g.byteAt p = some c ∧ b ≠ c

theorem Disputed.mono {total total' : ℕ} {fs fs' : List FragmentSpan} (h : Disputed total fs)
    (hle : total ≤ total') (hsub : ∀ f ∈ fs, f ∈ fs') : Disputed total' fs' := by
  obtain ⟨f, hf, g, hg, p, hp, hd⟩ := h
  exact ⟨f, hsub f hf, g, hsub g hg, p, by omega, hd⟩

/-! ## A marked entry -/

namespace Reassembly

variable {r : Reassembly}

/-- The entry's fragments end below the width of the counters, and its
mark stands for a dispute it still has. -/
structure Marked (r : Reassembly) : Prop where
  fits : ∀ g ∈ r.fragments, g.Fits
  disputed : r.conflict = true → r.completed = false ∧ Disputed r.totalLength r.fragments

/-- The fragment does not lower the length of an entry in conflict. -/
def KeepsLength (r : Reassembly) (f : FragmentSpan) : Prop :=
  r.conflict = true → f.moreFragments = false → r.totalLength ≤ f.endBytes

instance (f : FragmentSpan) : Decidable (r.KeepsLength f) :=
  inferInstanceAs (Decidable (_ → _ → _))

theorem overlapConflict_iff :
    r.summary.completionStatus = .overlapConflict ↔ r.conflict = true := by
  simp only [summary]
  split
  · simp [*]
  · split <;> simp [*]

theorem marked_new (id pid : ℕ) : Marked { datagramId := id, firstPacketId := pid } :=
  ⟨fun g hg => (by cases hg), fun h => (by cases h)⟩

theorem Marked.retiredEntry (h : r.Marked) (hc : r.completed = true) : r.retiredEntry.Marked := by
  refine ⟨fun g hg => (by cases hg), fun hconf => ?_⟩
  rw [(h.disputed hconf).1] at hc
  cases hc

theorem le_touch_totalLength (hkeep : r.KeepsLength f) (hconf : r.conflict = true) :
    r.totalLength ≤ (r.touch f.packetId f.offsetBytes f.moreFragments f.data).totalLength := by
  cases hm : f.moreFragments with
  | true => exact le_refl _
  | false => exact hkeep hconf hm

/-- **A disputed datagram does not complete.** -/
theorem not_complete_of_disputed (hfit : ∀ g ∈ r.fragments, g.Fits)
    (hd : Disputed r.totalLength r.fragments) (parts : List Bytes) :
    r.stitch σ ≠ .complete parts := by
  intro hst
  rw [stitch] at hst
  split at hst
  · have hfit' : ∀ g ∈ σ.sort spanBefore r.fragments, g.Fits := fun g hg => hfit g (σ.mem_sort.1 hg)
    obtain ⟨covered, -, hs⟩ := stitched_nil.of_complete hfit' hst
    obtain ⟨f, hf, g, hg, p, hp, b, c, hb, hc, hne⟩ := hd
    -- the views would carry both bytes at the disputed position
    have hb' := hs.agree f (σ.mem_sort.2 hf) p hp b hb
    have hc' := hs.agree g (σ.mem_sort.2 hg) p hp c hc
    rw [hb', Option.some.injEq] at hc'
    exact hne hc'
  · cases hst

theorem disputed_of_conflict (hfit : ∀ g ∈ r.fragments, g.Fits) (h : r.stitch σ = .conflict) :
    Disputed r.totalLength r.fragments := by
  rw [stitch] at h
  split at h
  · obtain ⟨f, hf, g, hg, hd⟩ := stitched_nil.of_conflict (fun g hg => hfit g (σ.mem_sort.1 hg)) h
    exact ⟨f, σ.mem_sort.1 hf, g, σ.mem_sort.1 hg, hd⟩
  · cases h

theorem Marked.fits_stored (h : r.Marked) (hf : f.Fits) : ∀ g ∈ (r.stored f).fragments, g.Fits := by
  intro g hg
  rw [stored_fragments] at hg
  rcases mem_append.1 hg with hg | hg
  · exact h.fits g hg
  · rwa [mem_singleton.1 hg]

theorem Marked.disputed_stored (h : r.Marked) (hkeep : r.KeepsLength f)
    (hconf : r.conflict = true) : Disputed (r.stored f).totalLength (r.stored f).fragments := by
  refine (h.disputed hconf).2.mono (le_touch_totalLength hkeep hconf) fun g hg => ?_
  rw [stored_fragments]
  exact mem_append_left _ hg

theorem absorb_conflict_of_conflict (h : r.conflict = true) :
    (r.absorb σ cfg f).1.conflict = true := by
  rcases absorb_cases σ cfg r f with ⟨-, he⟩ | ⟨-, ⟨-, he⟩ | ⟨-, he⟩ | ⟨parts, -, he⟩⟩ <;>
    simp [he, push, h]

/-- **A marked entry does not complete** on a fragment that does not
lower its length. -/
theorem Marked.not_completed (h : r.Marked) (hf : f.Fits) (hkeep : r.KeepsLength f)
    (hconf : r.conflict = true) : (r.absorb σ cfg f).2.completed = false := by
  rcases absorb_cases σ cfg r f with ⟨-, he⟩ | ⟨-, ⟨-, he⟩ | ⟨-, he⟩ | ⟨parts, hst, he⟩⟩
  · rw [he]
  · rw [he]
  · rw [he]
  · exact absurd hst (not_complete_of_disputed (h.fits_stored hf) (h.disputed_stored hkeep hconf) _)

/-- **What one fragment preserves.** -/
theorem Marked.absorb (h : r.Marked) (hf : f.Fits) (hkeep : r.KeepsLength f)
    (hopen : r.completed = false) : (r.absorb σ cfg f).1.Marked := by
  have hconf : (r.stored f).conflict = r.conflict := touch_conflict
  have hfits := h.fits_stored hf
  have hstored : (r.stored f).completed = false := touch_completed.trans hopen
  rcases absorb_cases σ cfg r f with ⟨-, he⟩ | ⟨-, ⟨-, he⟩ | ⟨hst, he⟩ | ⟨parts, hst, he⟩⟩ <;>
    rw [he]
  · refine ⟨by rw [touch_fragments]; exact h.fits, fun hc => ?_⟩
    rw [touch_conflict] at hc
    rw [touch_fragments, touch_completed]
    exact ⟨hopen, (h.disputed hc).2.mono (le_touch_totalLength hkeep hc) fun _ hg => hg⟩
  · exact ⟨hfits, fun hc => ⟨hstored, h.disputed_stored hkeep (hconf ▸ hc)⟩⟩
  · exact ⟨hfits, fun _ => ⟨hstored, disputed_of_conflict hfits hst⟩⟩
  · refine ⟨hfits, fun hc => ?_⟩
    have hd := h.disputed_stored hkeep (hconf ▸ hc)
    exact absurd hst (not_complete_of_disputed hfits hd parts)

end Reassembly

/-! ## Runs -/

namespace ReassemblyTable

variable {Key : Type} [DecidableEq Key] {t : ReassemblyTable Key} {id : ℕ}

/-- The call's fragment ends below the width of the counters, and lowers
the length of no entry in conflict. -/
def KeepsLength (t : ReassemblyTable Key) : Op Key → Prop
  | .addFragment key f => f.Fits ∧ ∀ s ∈ t.slot key f.packetId, s.entry.KeepsLength f
  | .retire _ => True
  | .evictStale _ => True

instance : ∀ op : Op Key, Decidable (t.KeepsLength op)
  | .addFragment key f =>
    inferInstanceAs (Decidable (f.Fits ∧ ∀ s ∈ t.slot key f.packetId, s.entry.KeepsLength f))
  | .retire _ | .evictStale _ => inferInstanceAs (Decidable True)

theorem marked_after {ops : List (Op Key)} (hops : Run.Along (step σ) KeepsLength (init cfg) ops)
    (ho : (after σ cfg ops).opened < 2 ^ 32) :
    ∀ id r, (after σ cfg ops).byId.find? id = some r → r.Marked := by
  refine entry_inv_along (P := fun _ r => r.Marked) marked_new ?_ ?_
    (hops.and (along_indexed ho))
  · rintro t key f s ⟨⟨hf, hkeep⟩, hidx, hop⟩ hs hr
    have hfresh := hidx.fresh hs (by rwa [← opened_addFragment_of_slot (σ := σ) hs])
    exact hr.absorb hf (hkeep s hs) (hidx.keyed.slot hfresh hs).1
  · exact fun _ _ _ _ r hc hr => hr.retiredEntry hc

theorem datagramId_after (σ : ComparisonSort) (cfg : Config) (ops : List (Op Key)) :
    ∀ id r, (after σ cfg ops).byId.find? id = some r → r.datagramId = id := by
  refine entry_inv_along (P := fun id r => r.datagramId = id) (C := fun _ _ => True)
    (fun _ _ => rfl) ?_ (fun _ _ _ _ _ _ h => h) (Run.along_of_forall fun _ _ _ => trivial)
  exact fun t key f s _ _ h => absorb_datagramId.trans h

/-- **An entry's past.** An id given out before a run is not given out
again in it: the entry it has afterwards is the one it had, with whatever
was marked on it. -/
theorem entry_past (hgiven : t.IdsGiven) {ops : List (Op Key)}
    (ho : (Run.after (step σ) t ops).opened < 2 ^ 32) (hid : id ≤ t.opened) {r' : Reassembly}
    (hr' : (Run.after (step σ) t ops).byId.find? id = some r') :
    ∃ r, t.byId.find? id = some r ∧ (r.conflict = true → r'.conflict = true) ∧
      (r.completed = true → r'.completed = true) := by
  refine (Run.inv_of_forall (Q := fun _ => True) (I := fun u : ReassemblyTable Key =>
    u.opened < 2 ^ 32 → u.IdsGiven ∧ t.opened ≤ u.opened ∧ ∀ r', u.byId.find? id = some r' →
      ∃ r, t.byId.find? id = some r ∧ (r.conflict = true → r'.conflict = true) ∧
        (r.completed = true → r'.completed = true)) ?_ ?_ (fun _ _ => trivial) ho).2.2 r' hr'
  · intro u op hI _ hop
    have hmono := opened_le_step (σ := σ) (t := u) op
    obtain ⟨hg, hle, hpast⟩ := hI (by omega)
    refine ⟨hg.step op hop, by omega, fun r' hr' => ?_⟩
    cases op with
    | addFragment key f =>
      change (u.addFragment σ key f).1.byId.find? id = some r' at hr'
      rcases hs : u.slot key f.packetId with - | s
      · rw [addFragment_of_none hs] at hr'
        exact hpast r' hr'
      rw [find?_addFragment_of_slot hs] at hr'
      split at hr'
      · rename_i heq
        cases hr'
        rcases slot_cases hs with ⟨-, ht⟩ | ⟨-, -, ht, hnext⟩
        · have hfind := find?_entry s
          rw [ht, ← heq] at hfind
          obtain ⟨r, hr, hconf, hdone⟩ := hpast s.entry hfind
          refine ⟨r, hr, fun hc => absorb_conflict_of_conflict (hconf hc), ?_⟩
          intro hc
          rw [absorb_completed, hdone hc, Bool.true_or]
        · -- a new entry's id is past every id given out before
          have hlt : s.table.opened < 2 ^ 32 := by
            rw [← opened_addFragment_of_slot (σ := σ) hs]
            exact hop
          have hopened : s.table.opened = u.opened + 1 := by rw [ht]; rfl
          have := (hg.nextId (by omega)).1
          omega
      · exact hpast r' hr'
    | retire d =>
      rcases find?_retire hr' with hold | ⟨r₀, hr₀, -, rfl⟩
      · exact hpast r' hold
      · exact hpast r₀ hr₀
    | evictStale now => exact hpast r' (find?_evictStale.1 hr').1
  · exact fun _ => ⟨hgiven, le_refl _, fun r' hr' => ⟨r', hr', fun h => h, fun h => h⟩⟩

section Completion

variable {u v : ReassemblyTable Key} {key : Key} {mid : List (Op Key)} {r : Reassembly}

theorem unmarked_before (hrun : Run.after (step σ) u mid = t) (hgiven : u.IdsGiven)
    (hidx : t.Indexed) (hmarked : ∀ id r, t.byId.find? id = some r → r.Marked)
    (hcall : t.KeepsLength (.addFragment key f)) (hop : (t.addFragment σ key f).1.opened < 2 ^ 32)
    (hc : (t.addFragment σ key f).2.completed = true)
    (hr : u.byId.find? (t.addFragment σ key f).2.datagramId = some r) : r.conflict = false := by
  rcases hs : t.slot key f.packetId with - | s
  · rw [addFragment_of_none hs] at hc
    cases hc
  have hlt : t.opened < 2 ^ 32 := lt_of_le_of_lt opened_le_addFragment hop
  rw [opened_addFragment_of_slot hs] at hop
  rw [addFragment_of_slot hs] at hc hr
  have hid := (hgiven s.id r hr).2
  rcases slot_cases hs with ⟨-, ht⟩ | ⟨-, -, ht, hnext⟩
  · have hfind := find?_entry s
    rw [ht] at hfind
    have hentry := hmarked s.id s.entry hfind
    by_contra hconf
    rw [← hrun] at hfind hlt
    obtain ⟨r₀, hr₀, hpast, -⟩ := entry_past hgiven hlt hid hfind
    have heq : r₀ = r := Option.some.inj (hr₀.symm.trans hr)
    have hmark : s.entry.conflict = true := hpast (by rw [heq]; simpa using hconf)
    rw [hentry.not_completed hcall.1 (hcall.2 s hs) hmark] at hc
    cases hc
  · -- the call opened the datagram, so its id was not given out before
    have hopened : s.table.opened = t.opened + 1 := by rw [ht]; rfl
    have hnew := (hidx.given.nextId (by omega)).1
    have hmono : u.opened ≤ t.opened := hrun ▸ opened_le_run u mid
    omega

theorem unmarked_after (hrun : Run.after (step σ) (t.addFragment σ key f).1 mid = v)
    (hgiven : (t.addFragment σ key f).1.IdsGiven) (hv : v.opened < 2 ^ 32)
    (hmarked : ∀ id r, v.byId.find? id = some r → r.Marked)
    (hc : (t.addFragment σ key f).2.completed = true)
    (hr : v.byId.find? (t.addFragment σ key f).2.datagramId = some r) : r.conflict = false := by
  rcases hs : t.slot key f.packetId with - | s
  · rw [addFragment_of_none hs] at hc
    cases hc
  have hentry : (t.addFragment σ key f).1.byId.find? s.id
      = some (s.entry.absorb σ t.cfg f).1 := by rw [find?_addFragment_of_slot hs, if_pos rfl]
  have hdone : (s.entry.absorb σ t.cfg f).1.completed = true := by
    rw [addFragment_of_slot hs] at hc
    rw [absorb_completed, hc, Bool.or_true]
  have hid : (t.addFragment σ key f).2.datagramId = s.id := by rw [addFragment_of_slot hs]
  rw [hid] at hr
  have hr' := hr
  rw [← hrun] at hr' hv
  obtain ⟨r₀, hr₀, -, hpast⟩ := entry_past hgiven hv (hgiven _ _ hentry).2 hr'
  by_contra hconf
  have hopen := ((hmarked s.id r hr).disputed (by simpa using hconf)).1
  rw [hentry, Option.some.injEq] at hr₀
  rw [hpast (hr₀ ▸ hdone)] at hopen
  cases hopen

end Completion

/-- **Conflict is final while lengths are not lowered.** In a run whose fragments
end below `2 ^ 32`, that opens fewer than `2 ^ 32` datagrams and lowers the length
of no entry in conflict, an id that is reported completed is never that of an entry
marked conflict, and no eviction reports it with status 3. -/
theorem conflict_final (σ : ComparisonSort) (cfg : Config) (ops : List (Op Key))
    (hops : Run.Along (step σ) KeepsLength (init cfg) ops)
    (ho : (after σ cfg ops).opened < 2 ^ 32) (pre post : List (Op Key)) (key : Key)
    (f : FragmentSpan) (hcall : ops = pre ++ .addFragment key f :: post)
    (hc : ((after σ cfg pre).addFragment σ key f).2.completed = true) :
    (∀ pre' post', ops = pre' ++ post' → ∀ r, (after σ cfg pre').find
        ((after σ cfg pre).addFragment σ key f).2.datagramId = some r → r.conflict = false) ∧
    ∀ pre' now post', ops = pre' ++ .evictStale now :: post' →
      ∀ s ∈ ((after σ cfg pre').evictStale now).2,
        s.datagramId = ((after σ cfg pre).addFragment σ key f).2.datagramId →
        s.completionStatus ≠ .overlapConflict := by
  subst hcall
  have hall := hops.and (along_indexed ho)
  obtain ⟨hkeep, hidx, hop⟩ := Run.along_iff_split.1 hall pre (.addFragment key f) post rfl
  have hmarked : ∀ pre' post', pre ++ .addFragment key f :: post = pre' ++ post' →
      (after σ cfg pre').opened < 2 ^ 32 ∧
        ∀ id r, (after σ cfg pre').byId.find? id = some r → r.Marked := by
    intro pre' post' he
    rw [he] at hops ho
    have hlt : (after σ cfg pre').opened < 2 ^ 32 := by
      rw [after, Run.after_append] at ho
      exact lt_of_le_of_lt (opened_le_run _ post') ho
    exact ⟨hlt, marked_after (Run.along_append.1 hops).1 hlt⟩
  have hunmarked : ∀ pre' post', pre ++ .addFragment key f :: post = pre' ++ post' →
      ∀ r, (after σ cfg pre').find ((after σ cfg pre).addFragment σ key f).2.datagramId = some r →
        r.conflict = false := by
    intro pre' post' he r hr
    obtain ⟨hlt, hmark⟩ := hmarked pre' post' he
    -- the point lies before the call or after it
    rcases append_eq_append_iff.1 he with ⟨mid, rfl, hmid⟩ | ⟨mid, rfl, -⟩
    · rcases cons_eq_append_iff.1 hmid with ⟨rfl, -⟩ | ⟨mid', rfl, -⟩
      · rw [append_nil] at hr hmark
        exact unmarked_before Run.after_nil hidx.given hidx hmark hkeep hop hc hr
      · have hrun : Run.after (step σ) ((after σ cfg pre).addFragment σ key f).1 mid'
            = after σ cfg (pre ++ .addFragment key f :: mid') := by
          rw [after_append_cons]
          rfl
        exact unmarked_after hrun (hidx.given.step (.addFragment key f) hop) hlt hmark hc hr
    · have hrun : Run.after (step σ) (after σ cfg pre') mid = after σ cfg (pre' ++ mid) :=
        Run.after_append.symm
      exact unmarked_before hrun (indexed_after hlt).given hidx (hmarked _ _ rfl).2 hkeep hop hc hr
  refine ⟨hunmarked, ?_⟩
  rintro pre' now post' he s hs hid hstatus
  obtain ⟨⟨id, r⟩, hmem, rfl⟩ := mem_map.1 hs
  have hr := Assoc.mem_entries_iff.1 (mem_of_mem_filter hmem)
  have hsame : id = _ := (datagramId_after σ cfg pre' id r hr).symm.trans hid
  rw [hsame] at hr
  rw [overlapConflict_iff, hunmarked pre' (.evictStale now :: post') he r hr] at hstatus
  cases hstatus

/-- A datagram that completes beside one in conflict. -/
theorem conflict_final_two :
    ((after .insertion {} [Op.addFragment 0 ⟨0, 0, true, [1, 2, 3, 4], 1⟩,
      .addFragment 0 ⟨2, 1, false, [9, 9], 2⟩]).addFragment .insertion 1
        ⟨0, 2, false, [5], 3⟩).2.completed = true ∧
    ∀ s ∈ ((after .insertion {} [Op.addFragment 0 ⟨0, 0, true, [1, 2, 3, 4], 1⟩,
        .addFragment 0 ⟨2, 1, false, [9, 9], 2⟩, .addFragment 1 ⟨0, 2, false, [5], 3⟩]).evictStale
          32).2, s.datagramId = 2 → s.completionStatus ≠ .overlapConflict := by
  refine ⟨by decide, (conflict_final .insertion {}
    [Op.addFragment (0 : ℕ) ⟨0, 0, true, [1, 2, 3, 4], 1⟩,
    .addFragment 0 ⟨2, 1, false, [9, 9], 2⟩, .addFragment 1 ⟨0, 2, false, [5], 3⟩,
    .evictStale 32] ⟨?_, ?_, ?_, trivial, trivial⟩ (by decide)
    [.addFragment 0 ⟨0, 0, true, [1, 2, 3, 4], 1⟩, .addFragment 0 ⟨2, 1, false, [9, 9], 2⟩]
    [.evictStale 32] 1 ⟨0, 2, false, [5], 3⟩ rfl (by decide)).2 _ 32 [] rfl⟩
  all_goals decide

/-- Three fragments of which the second disputes the first's third byte,
and a copy of the first two bytes that ends the datagram there. -/
def shortened : List (Op ℕ) :=
  [.addFragment 0 ⟨0, 0, true, [1, 2, 3, 4], 1⟩, .addFragment 0 ⟨2, 1, false, [9, 9, 9, 9], 2⟩,
    .addFragment 0 ⟨0, 2, false, [1, 2], 3⟩]

/-- A datagram in conflict completes, under the id that is then evicted
with status 3. -/
theorem conflict_completes :
    ((after .insertion {} (shortened.take 2)).find 1).map conflict = some true ∧
    ((after .insertion {} (shortened.take 2)).addFragment .insertion 0 ⟨0, 2, false, [1, 2], 3⟩).2
      = { datagramId := 1, completed := true, retained := true, parts := [[1, 2]] } ∧
    ((after .insertion {} shortened).evictStale 32).2.map
      (fun s => (s.datagramId, s.completionStatus.toNat)) = [(1, 3)] := by
  decide

end ReassemblyTable

end Nanom.Defrag
