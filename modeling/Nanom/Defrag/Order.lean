import Mathlib.Data.List.Induction
import Nanom.Defrag.Index
import Nanom.Defrag.Soundness
/-!
# Fragment reassembly — the order of arrival does not matter

The fragments of one datagram, cut from its content in any way and arriving in
any order among those of other datagrams, complete it at the first arrival after
which they cover it. While a datagram is being collected its entry stores
exactly the fragments that have arrived (`Collects`, `Collecting`); another
key's fragment leaves it alone.

Two widths bound this: the datagram is shorter than `2 ^ 32` bytes, and fewer
than `2 ^ 32` datagrams have been opened. `wraps_out_of_order` runs past each.
-/

namespace Nanom.Defrag

open List Option Reassembly

variable {D : Bytes} {fs : List FragmentSpan} {f : FragmentSpan} {σ : ComparisonSort}
variable {cfg : Config}
variable {n pid : ℕ}

/-- A fragment cut from the datagram `D`; the ones that end where it does
say so. -/
structure CutFrom (D : Bytes) (f : FragmentSpan) : Prop where
  inside : f.offsetBytes + f.data.length ≤ D.length
  content : f.data = subspan D f.offsetBytes f.data.length
  terminal : f.moreFragments = false ↔ f.offsetBytes + f.data.length = D.length

/-- The fragments cover the datagram, and its end is known. -/
def Covering (D : Bytes) (fs : List FragmentSpan) : Prop :=
  (∀ p < D.length, ∃ f ∈ fs, (f.byteAt p).isSome) ∧ ∃ f ∈ fs, f.moreFragments = false

theorem Covering.mono {fs' : List FragmentSpan} (h : Covering D fs) : Covering D (fs ++ fs') := by
  obtain ⟨hcover, g, hg, hterm⟩ := h
  refine ⟨fun p hp => ?_, g, mem_append_left _ hg, hterm⟩
  obtain ⟨g, hg, hgp⟩ := hcover p hp
  exact ⟨g, mem_append_left _ hg, hgp⟩

theorem CutFrom.byteAt (h : CutFrom D f) {p : ℕ} {b : UInt8} (hb : f.byteAt p = some b) :
    D[p]? = some b := by
  obtain ⟨hle, hlt⟩ := lt_of_byteAt hb
  rw [FragmentSpan.byteAt, if_pos hle, h.content, getElem?_subspan, if_pos (by omega)] at hb
  rwa [Nat.add_sub_cancel' hle] at hb

theorem CutFrom.fits (h : CutFrom D f) (hD : D.length < 2 ^ 32) : f.Fits :=
  lt_of_le_of_lt h.inside hD

/-! ## The entry of a datagram being collected -/

namespace Reassembly

variable {r : Reassembly}

/-- The entry stores the fragments `fs` of `D` and has read its length off
the terminal ones. -/
structure Collects (D : Bytes) (fs : List FragmentSpan) (r : Reassembly) : Prop where
  fragments : r.fragments = fs
  haveLast : r.haveLast = true ↔ ∃ f ∈ fs, f.moreFragments = false
  total : r.haveLast = true → r.totalLength = D.length

theorem collects_new (D : Bytes) (id pid : ℕ) :
    Collects D [] { datagramId := id, firstPacketId := pid } :=
  ⟨rfl, by simp, fun h => (by cases h)⟩

theorem touch_totalLength_of_cut (hf : CutFrom D f) (hD : D.length < 2 ^ 32)
    (h : r.haveLast = true → r.totalLength = D.length)
    (hl : (r.touch f.packetId f.offsetBytes f.moreFragments f.data).haveLast = true) :
    (r.touch f.packetId f.offsetBytes f.moreFragments f.data).totalLength = D.length := by
  rw [touch_totalLength]
  split
  · rename_i hmore
    rw [touch_haveLast, hmore, Bool.not_true, Bool.or_false] at hl
    exact h hl
  -- a terminal cut ends where the datagram does
  rename_i hmore
  have hend := hf.terminal.1 (by simpa using hmore)
  change f.endBytes = _
  rw [endBytes_of_fits (hf.fits hD), hend]

theorem Collects.stored (h : Collects D fs r) (hf : CutFrom D f) (hD : D.length < 2 ^ 32) :
    Collects D (fs ++ [f]) (r.stored f) := by
  have hlast : (r.stored f).haveLast = (r.haveLast || !f.moreFragments) := touch_haveLast
  refine ⟨by rw [stored_fragments, h.fragments], ?_, touch_totalLength_of_cut hf hD h.total⟩
  rw [hlast, Bool.or_eq_true, h.haveLast, Bool.not_eq_true']
  simp only [mem_append, mem_singleton, or_and_right, exists_or, exists_eq_left]

/-- **Stitching decides coverage.** -/
theorem Collects.stitch_iff (h : Collects D fs r) (hfs : ∀ f ∈ fs, CutFrom D f)
    (hD : D.length < 2 ^ 32) : (∃ parts, r.stitch σ = .complete parts) ↔ Covering D fs := by
  have hmem : ∀ g ∈ σ.sort spanBefore r.fragments, g ∈ fs := fun g hg =>
    h.fragments ▸ σ.mem_sort.1 hg
  have hfit : ∀ g ∈ σ.sort spanBefore r.fragments, g.Fits := fun g hg => (hfs g (hmem g hg)).fits hD
  rw [stitch]
  by_cases hlast : r.haveLast = true
  · rw [if_pos hlast, h.total hlast]
    constructor
    · rintro ⟨parts, hc⟩
      obtain ⟨covered, hle, hs⟩ := stitched_nil.of_complete hfit hc
      refine ⟨fun p hp => ?_, h.haveLast.1 hlast⟩
      obtain ⟨g, hg, hgp⟩ := hs.covers p (by omega)
      exact ⟨g, hmem g hg, hgp⟩
    · rintro ⟨hcover, -⟩
      have hcovered : ∀ p < D.length, ∃ g ∈ [] ++ σ.sort spanBefore r.fragments,
          (g.byteAt p).isSome := by
        intro p hp
        obtain ⟨g, hg, hgp⟩ := hcover p hp
        exact ⟨g, σ.mem_sort.2 (h.fragments ▸ hg), hgp⟩
      refine stitched_nil.complete hfit (sort_offsets σ _) ?_ ?_ ?_
      · intro g hg p hp
        have := (hfs g (hmem g hg)).inside
        exact hcovered p (by omega)
      · exact hcovered
      · -- two cuts of one datagram cannot disagree
        intro g hg g' hg' p _ b c hb hc
        have hb' := (hfs g (hmem g hg)).byteAt hb
        have hc' := (hfs g' (hmem g' hg')).byteAt hc
        rw [hb', some.injEq] at hc'
        exact hc'
  · rw [if_neg hlast]
    constructor
    · rintro ⟨parts, hc⟩
      cases hc
    · rintro ⟨-, hterm⟩
      exact absurd (h.haveLast.2 hterm) hlast

/-- The entry holds cuts of `D` only, and knows of no other length. -/
structure Cuts (D : Bytes) (r : Reassembly) : Prop where
  cut : ∀ f ∈ r.fragments, CutFrom D f
  total : r.haveLast = true → r.totalLength = D.length

theorem Cuts.flatten_parts (h : Cuts D r) (hD : D.length < 2 ^ 32) {parts : List Bytes}
    (hst : r.stitch σ = .complete parts) : parts.flatten = D := by
  have hcut : ∀ g ∈ σ.sort spanBefore r.fragments, CutFrom D g := fun g hg =>
    h.cut g (σ.mem_sort.1 hg)
  have hlast : r.haveLast = true := by
    by_contra hlast
    rw [stitch, if_neg hlast] at hst
    cases hst
  rw [stitch, if_pos hlast, h.total hlast] at hst
  obtain ⟨covered, hle, hs⟩ := stitched_nil.of_complete (fun g hg => (hcut g hg).fits hD) hst
  have hlen : parts.flatten.length = D.length := by rw [hs.length]; omega
  refine ext_getElem? fun p => ?_
  by_cases hp : p < D.length
  · obtain ⟨g, hg, hgp⟩ := hs.covers p (by omega)
    obtain ⟨b, hb⟩ := isSome_iff_exists.1 hgp
    rw [hs.agree g hg p hp b hb, (hcut g hg).byteAt hb]
  · rw [getElem?_eq_none (by omega), getElem?_eq_none (by omega)]

theorem Collects.cuts (h : Collects D fs r) (hfs : ∀ f ∈ fs, CutFrom D f) : Cuts D r :=
  ⟨fun f hf => hfs f (h.fragments ▸ hf), h.total⟩

theorem cuts_new (D : Bytes) (id pid : ℕ) : Cuts D { datagramId := id, firstPacketId := pid } :=
  (collects_new D id pid).cuts fun f hf => (by cases hf)

theorem Cuts.touch (h : Cuts D r) (hf : CutFrom D f) (hD : D.length < 2 ^ 32) :
    Cuts D (r.touch f.packetId f.offsetBytes f.moreFragments f.data) :=
  ⟨by rw [touch_fragments]; exact h.cut, touch_totalLength_of_cut hf hD h.total⟩

theorem Cuts.absorb (h : Cuts D r) (σ : ComparisonSort) (cfg : Config) (hf : CutFrom D f)
    (hD : D.length < 2 ^ 32) :
    Cuts D (r.absorb σ cfg f).1 ∧
    ((r.absorb σ cfg f).2.completed = true → (r.absorb σ cfg f).2.parts.flatten = D) := by
  have htouch := h.touch hf hD
  have hst : Cuts D (r.stored f) := by
    refine ⟨fun g hg => ?_, htouch.total⟩
    rw [stored_fragments, mem_append, mem_singleton] at hg
    rcases hg with hg | rfl
    · exact h.cut g hg
    · exact hf
  rcases absorb_cases σ cfg r f with ⟨-, he⟩ | ⟨-, ⟨-, he⟩ | ⟨-, he⟩ | ⟨parts, hs, he⟩⟩
  · rw [he]
    exact ⟨htouch, fun hc => (by cases hc)⟩
  · rw [he]
    exact ⟨hst, fun hc => (by cases hc)⟩
  · rw [he]
    exact ⟨⟨hst.cut, hst.total⟩, fun hc => (by cases hc)⟩
  · rw [he]
    exact ⟨⟨hst.cut, hst.total⟩, fun _ => hst.flatten_parts hD hs⟩

/-- **One more fragment of the datagram** completes it exactly when it is
covered, and is stored either way. -/
theorem Collects.absorb (h : Collects D fs r) (hfs : ∀ g ∈ fs ++ [f], CutFrom D g)
    (hD : D.length < 2 ^ 32)
    (hroom : ((fs ++ [f]).map fun g => g.data.length).sum ≤ cfg.maxDatagramBytes) :
    ((r.absorb σ cfg f).2.completed = true ↔ Covering D (fs ++ [f])) ∧
    ((r.absorb σ cfg f).2.completed = true → (r.absorb σ cfg f).2.parts.flatten = D) ∧
    Collects D (fs ++ [f]) (r.absorb σ cfg f).1 ∧ (r.absorb σ cfg f).2.retained = true := by
  have hst := h.stored (hfs f (by simp)) hD
  have hiff := hst.stitch_iff (σ := σ) hfs hD
  have hbytes : r.storedBytes + f.data.length ≤ cfg.maxDatagramBytes := by
    rw [storedBytes, h.fragments]
    simpa using hroom
  rcases absorb_cases σ cfg r f with ⟨hover, -⟩ | ⟨-, ⟨hs, he⟩ | ⟨hs, he⟩ | ⟨parts, hs, he⟩⟩
  · omega
  · rw [he, ← hiff]
    exact ⟨by simp [hs], fun hc => (by cases hc), hst, rfl⟩
  · rw [he, ← hiff]
    exact ⟨by simp [hs], fun hc => (by cases hc), ⟨hst.fragments, hst.haveLast, hst.total⟩, rfl⟩
  · rw [he, ← hiff]
    exact ⟨by simp [hs], fun _ => (hst.cuts hfs).flatten_parts hD hs,
      ⟨hst.fragments, hst.haveLast, hst.total⟩, rfl⟩

end Reassembly

namespace ReassemblyTable

variable {Key : Type} [DecidableEq Key] {t : ReassemblyTable Key} {key k : Key}
variable {calls post : List (Key × FragmentSpan)}

/-! ## The table, one fragment at a time -/

/-- The table collects `D` under `key` and holds its fragments `fs`. -/
def Collecting (t : ReassemblyTable Key) (key : Key) (D : Bytes) (fs : List FragmentSpan) : Prop :=
  (t.keyToId.find? key = none ∧ fs = []) ∨
    ∃ id r, t.keyToId.find? key = some id ∧ t.byId.find? id = some r ∧ r.Collects D fs

/-- A datagram under `key` is open, or there is room to open one. -/
def Admits (t : ReassemblyTable Key) (key : Key) : Prop :=
  t.keyToId.find? key = none → t.byId.size < t.cfg.maxConcurrent

theorem Admits.slot (h : t.Admits key) (pid : ℕ) : ∃ s, t.slot key pid = some s := by
  rcases hs : t.slot key pid with - | s
  · obtain ⟨hnone, hcap⟩ := slot_eq_none_iff.1 hs
    have := h hnone
    omega
  · exact ⟨s, rfl⟩

theorem addFragment_other (hidx : Indexed t) (hne : k ≠ key)
    (ho : (t.addFragment σ k f).1.opened < 2 ^ 32) :
    (t.addFragment σ k f).1.keyToId.find? key = t.keyToId.find? key ∧
    ∀ id, t.keyToId.find? key = some id →
      (t.addFragment σ k f).1.byId.find? id = t.byId.find? id := by
  rcases hs : t.slot k f.packetId with - | s
  · rw [addFragment_of_none hs]
    exact ⟨rfl, fun _ _ => rfl⟩
  rw [opened_addFragment_of_slot hs] at ho
  -- ids have not come round, so no two keys share an entry
  obtain ⟨-, honly⟩ := hidx.keyed.slot (hidx.fresh hs ho) hs
  refine ⟨by rw [keyToId_addFragment_of_slot hs, if_neg (Ne.symm hne)], fun id hid => ?_⟩
  rw [find?_addFragment_of_slot hs, if_neg]
  rintro rfl
  exact hne (honly key hid).symm

section

variable (h : t.Collecting key D fs) (hidx : Indexed t)
include h hidx

theorem Collecting.add_other (hne : k ≠ key) (ho : (t.addFragment σ k f).1.opened < 2 ^ 32) :
    (t.addFragment σ k f).1.Collecting key D fs := by
  obtain ⟨hkey, hentry⟩ := addFragment_other hidx hne ho
  rcases h with ⟨hnone, hfs⟩ | ⟨id, r, hid, hr, hcol⟩
  · exact Or.inl ⟨hkey.trans hnone, hfs⟩
  · exact Or.inr ⟨id, r, hkey.trans hid, (hentry id hid).trans hr, hcol⟩

/-- The entry the datagram's next fragment goes to is the one collecting
it. -/
theorem Collecting.slot_entry
    {s : Slot Key} (hs : t.slot key pid = some s) (ho : s.table.opened < 2 ^ 32) :
    s.entry.Collects D fs := by
  rcases slot_fresh (hidx.fresh hs ho) hs with ⟨hid, hr⟩ | ⟨hnone, -, hnew⟩
  · rcases h with ⟨hnone, -⟩ | ⟨id, r, hid', hr', hcol⟩
    · rw [hnone] at hid
      cases hid
    · rw [hid, some.injEq] at hid'
      rw [← hid', hr, some.injEq] at hr'
      rwa [hr']
  -- nothing collected yet: the entry is empty
  · rcases h with ⟨-, rfl⟩ | ⟨id, r, hid, -⟩
    · rw [hnew]
      exact collects_new D _ _
    · rw [hnone] at hid
      cases hid

/-- **A fragment of the datagram** completes it exactly when it is then
covered, and is collected otherwise. -/
theorem Collecting.add_own (hfs : ∀ g ∈ fs ++ [f], CutFrom D g) (hD : D.length < 2 ^ 32)
    (hroom : ((fs ++ [f]).map fun g => g.data.length).sum ≤ t.cfg.maxDatagramBytes)
    (hadm : t.Admits key) (ho : (t.addFragment σ key f).1.opened < 2 ^ 32) :
    ((t.addFragment σ key f).2.completed = true ↔ Covering D (fs ++ [f])) ∧
    ((t.addFragment σ key f).2.completed = true → (t.addFragment σ key f).2.parts.flatten = D) ∧
    (¬ Covering D (fs ++ [f]) → (t.addFragment σ key f).1.Collecting key D (fs ++ [f])) := by
  obtain ⟨s, hs⟩ := hadm.slot f.packetId
  rw [opened_addFragment_of_slot hs] at ho
  obtain ⟨hiff, hflat, hcol, -⟩ := (h.slot_entry hidx hs ho).absorb hfs hD hroom
  have hout : (t.addFragment σ key f).2
      = { (s.entry.absorb σ t.cfg f).2 with datagramId := s.id } := by
    rw [addFragment_of_slot hs]
  refine ⟨by rw [hout]; exact hiff, by rw [hout]; exact hflat, fun hnot => ?_⟩
  -- not covered, so not completed, and the key stays open
  have hopen : (s.entry.absorb σ t.cfg f).2.completed = false := by
    rw [← hiff] at hnot
    simpa using hnot
  refine Or.inr ⟨s.id, _, ?_, ?_, hcol⟩
  · rw [keyToId_addFragment_of_slot hs, if_pos rfl, hopen]
    rfl
  · rw [find?_addFragment_of_slot hs, if_pos rfl]

end

/-! ## A table that holds cuts of one datagram under its key -/

/-- The entry open under `key`, if there is one, holds cuts of `D` only. -/
def Holds (t : ReassemblyTable Key) (key : Key) (D : Bytes) : Prop :=
  ∀ id r, t.keyToId.find? key = some id → t.byId.find? id = some r → r.Cuts D

section

variable (h : t.Holds key D) (hidx : Indexed t)
include h hidx

theorem Holds.slot_entry {s : Slot Key}
    (hs : t.slot key pid = some s) (ho : s.table.opened < 2 ^ 32) : s.entry.Cuts D := by
  rcases slot_fresh (hidx.fresh hs ho) hs with ⟨hid, hr⟩ | ⟨-, -, hnew⟩
  · exact h s.id s.entry hid hr
  · rw [hnew]
    exact cuts_new D _ _

/-- **A cut of the datagram** is held, and what it completes is the
datagram. -/
theorem Holds.add_own (hf : CutFrom D f)
    (hD : D.length < 2 ^ 32) (ho : (t.addFragment σ key f).1.opened < 2 ^ 32) :
    (t.addFragment σ key f).1.Holds key D ∧
    ((t.addFragment σ key f).2.completed = true → (t.addFragment σ key f).2.parts.flatten = D) := by
  rcases hs : t.slot key f.packetId with - | s
  · rw [addFragment_of_none hs]
    exact ⟨h, fun hc => (by cases hc)⟩
  rw [opened_addFragment_of_slot hs] at ho
  obtain ⟨hcuts, hflat⟩ := (h.slot_entry hidx hs ho).absorb σ t.cfg hf hD
  refine ⟨fun id r hid hr => ?_, by rw [addFragment_of_slot hs]; exact hflat⟩
  rw [keyToId_addFragment_of_slot hs, if_pos rfl] at hid
  -- completed, the key is freed and nothing is open under it
  split at hid
  · cases hid
  · cases hid
    rw [find?_addFragment_of_slot hs, if_pos rfl, some.injEq] at hr
    exact hr ▸ hcuts

theorem Holds.step (hD : D.length < 2 ^ 32) (op : Op Key)
    (hcut : ∀ f, op = .addFragment key f → CutFrom D f) (ho : (t.step σ op).opened < 2 ^ 32) :
    (t.step σ op).Holds key D := by
  cases op with
  | addFragment k f =>
    by_cases hk : k = key
    · subst hk
      exact (h.add_own hidx (hcut f rfl) hD ho).1
    · obtain ⟨hkey, hentry⟩ := addFragment_other hidx hk ho
      intro id r hid hr
      have hid' := hkey.symm.trans hid
      exact h id r hid' ((hentry id hid').symm.trans hr)
  | retire d =>
    intro id r hid hr
    have hid' : t.keyToId.find? key = some id := by
      rcases retire_cases t d with he | ⟨r₀, -, -, -, he⟩
      · rwa [ReassemblyTable.step, he] at hid
      · rwa [ReassemblyTable.step, he] at hid
    rcases find?_retire hr with hold | ⟨r₀, hr₀, hc, -⟩
    · exact h id r hid' hold
    -- only completed entries are retired, and no key names one
    obtain ⟨r₁, hr₁, hopen⟩ := (hidx.keyed.image id).1 ⟨key, hid'⟩
    rw [hr₀, some.injEq] at hr₁
    rw [hr₁, hopen] at hc
    cases hc
  | evictStale now =>
    intro id r hid hr
    exact h id r (keyToId_evictStale.1 hid).1 (find?_evictStale.1 hr).1

end

/-- **Runs that cut one datagram under its key.** -/
theorem holds_after {ops : List (Op Key)} (hD : D.length < 2 ^ 32)
    (hcut : ∀ f, .addFragment key f ∈ ops → CutFrom D f)
    (ho : (after σ cfg ops).opened < 2 ^ 32) : (after σ cfg ops).Holds key D := by
  refine (Run.inv_of_forall
    -- the index is consistent as long as the ids have not come round
    (I := fun t : ReassemblyTable Key => t.opened < 2 ^ 32 → Indexed t ∧ t.Holds key D)
    (Q := fun op => ∀ f, op = .addFragment key f → CutFrom D f) (fun t op hI hq hlt => ?_)
    (fun _ => ⟨indexed_init, fun id r hid => by cases hid⟩)
    (fun op hop f he => hcut f (by rw [← he]; exact hop)) ho).2
  have hle := opened_le_step (σ := σ) (t := t) op
  obtain ⟨hidx, hholds⟩ := hI (by omega)
  exact ⟨hidx.step op hlt, hholds.step hidx hD op hq hlt⟩

/-! ## Runs -/

/-- The table after some fragments, each under its key. -/
abbrev feed (σ : ComparisonSort) (cfg : Config) (calls : List (Key × FragmentSpan)) :
    ReassemblyTable Key := after σ cfg (calls.map fun c => Op.addFragment c.1 c.2)

/-- The fragments fed under one key, in order of arrival. -/
def arrivals (key : Key) (calls : List (Key × FragmentSpan)) : List FragmentSpan :=
  (calls.filter fun c => c.1 = key).map Prod.snd

@[simp] theorem arrivals_append (key : Key) (pre post : List (Key × FragmentSpan)) :
    arrivals key (pre ++ post) = arrivals key pre ++ arrivals key post := by
  simp [arrivals]

@[simp] theorem arrivals_own (key : Key) (f : FragmentSpan) : arrivals key [(key, f)] = [f] := by
  simp [arrivals]

theorem arrivals_other (hne : k ≠ key) (f : FragmentSpan) : arrivals key [(k, f)] = [] := by
  simp [arrivals, hne]

theorem feed_append (pre : List (Key × FragmentSpan)) (k : Key) (f : FragmentSpan) :
    feed σ cfg (pre ++ [(k, f)]) = ((feed σ cfg pre).addFragment σ k f).1 := by
  rw [feed, map_append, after, Run.after_append]
  rfl

theorem opened_feed_le (pre post : List (Key × FragmentSpan)) :
    (feed σ cfg pre).opened ≤ (feed σ cfg (pre ++ post)).opened := by
  rw [feed, feed, map_append, after, after, Run.after_append]
  exact opened_le_run _ _

/-- The call feeding `f` after `pre` returns completed. -/
def CompletesAt (σ : ComparisonSort) (cfg : Config) (pre : List (Key × FragmentSpan)) (key : Key)
    (f : FragmentSpan) : Prop := ((feed σ cfg pre).addFragment σ key f).2.completed = true

/-- The datagram `D`'s fragments among the calls: cut from it, within the
table's limits. -/
structure Fed (cfg : Config) (D : Bytes) (key : Key) (calls : List (Key × FragmentSpan)) :
    Prop where
  cut : ∀ f ∈ arrivals key calls, CutFrom D f
  room : ((arrivals key calls).map fun f => f.data.length).sum ≤ cfg.maxDatagramBytes

theorem Fed.pre {pre : List (Key × FragmentSpan)} (h : Fed cfg D key (pre ++ post)) :
    Fed cfg D key pre := by
  obtain ⟨hcut, hroom⟩ := h
  rw [arrivals_append] at hcut hroom
  rw [map_append, sum_append] at hroom
  exact ⟨fun f hf => hcut f (mem_append_left _ hf), by omega⟩

/-- Every call of the datagram finds a place for it. -/
def Admitted (σ : ComparisonSort) (cfg : Config) (key : Key) (calls : List (Key × FragmentSpan)) :
    Prop :=
  ∀ pre f post, calls = pre ++ (key, f) :: post → (feed σ cfg pre).Admits key

theorem Admitted.pre {pre : List (Key × FragmentSpan)}
    (h : Admitted σ cfg key (pre ++ post)) : Admitted σ cfg key pre :=
  fun pre' f post' he => h pre' f (post' ++ post) (by rw [he]; simp)

theorem cfg_feed : (feed σ cfg calls).cfg = cfg := cfg_after

theorem size_feed_le (σ : ComparisonSort) (cfg : Config) (calls : List (Key × FragmentSpan)) :
    (feed σ cfg calls).byId.size ≤ calls.length := by
  induction calls using reverseRecOn with
  | nil => exact Nat.zero_le _
  | append_singleton pre c ih =>
    rw [feed_append, length_append, length_singleton]
    rcases hs : (feed σ cfg pre).slot c.1 c.2.packetId with - | s
    · rw [addFragment_of_none hs]
      exact Nat.le_succ_of_le ih
    rw [size_addFragment_of_slot hs]
    rcases slot_cases hs with ⟨-, ht⟩ | ⟨-, -, ht, -⟩
    · rw [ht]
      omega
    · rw [ht]
      exact le_trans Assoc.size_emplace_le (by omega)

theorem admitted_of_length_le
    (h : calls.length ≤ cfg.maxConcurrent) : Admitted σ cfg key calls := by
  rintro pre f post rfl -
  have := size_feed_le σ cfg pre
  rw [length_append, length_cons] at h
  rw [cfg_feed]
  omega

/-- **Until it is covered a datagram is collected**, whatever else
arrives. -/
theorem collecting_feed (hD : D.length < 2 ^ 32) {pre : List (Key × FragmentSpan)}
    (hfed : Fed cfg D key pre) (hadm : Admitted σ cfg key pre)
    (ho : (feed σ cfg pre).opened < 2 ^ 32) (hnot : ¬ Covering D (arrivals key pre)) :
    (feed σ cfg pre).Collecting key D (arrivals key pre) := by
  induction pre using reverseRecOn with
  | nil => exact Or.inl ⟨rfl, rfl⟩
  | append_singleton pre c ih =>
    obtain ⟨k, f⟩ := c
    -- coverage only grows, so the calls before this one had not covered it either
    have ho' := lt_of_le_of_lt (opened_feed_le pre [(k, f)]) ho
    have hnot' : ¬ Covering D (arrivals key pre) := by
      intro hcov
      rw [arrivals_append] at hnot
      exact hnot (Covering.mono hcov)
    have hcol := ih hfed.pre hadm.pre ho' hnot'
    have hidx : Indexed (feed σ cfg pre) := indexed_after ho'
    rw [feed_append] at ho ⊢
    by_cases hk : k = key
    · subst hk
      have hcut := hfed.cut
      have hroom := hfed.room
      rw [arrivals_append, arrivals_own] at hnot hcut hroom ⊢
      exact (hcol.add_own hidx hcut hD (by rwa [cfg_feed]) (hadm pre f [] rfl) ho).2.2 hnot
    · rw [arrivals_append, arrivals_other hk, append_nil]
      exact hcol.add_other hidx hk ho

theorem exists_first_covering {pre : List (Key × FragmentSpan)}
    (h : Covering D (arrivals key pre)) : ∃ pre' f post, pre = pre' ++ (key, f) :: post ∧
      ¬ Covering D (arrivals key pre') ∧ Covering D (arrivals key (pre' ++ [(key, f)])) := by
  induction pre using reverseRecOn with
  | nil =>
    obtain ⟨-, f, hf, -⟩ := h
    cases hf
  | append_singleton pre c ih =>
    by_cases hcov : Covering D (arrivals key pre)
    · obtain ⟨pre', f, post, rfl, hnot, hyes⟩ := ih hcov
      exact ⟨pre', f, post ++ [c], by simp, hnot, hyes⟩
    obtain ⟨k, f⟩ := c
    have hk : k = key := by
      by_contra hk
      rw [arrivals_append, arrivals_other hk, append_nil] at h
      exact hcov h
    subst hk
    exact ⟨pre, f, [], rfl, hcov, h⟩

theorem completesAt_iff (hD : D.length < 2 ^ 32) {pre : List (Key × FragmentSpan)}
    (hfed : Fed cfg D key (pre ++ [(key, f)])) (hadm : Admitted σ cfg key (pre ++ [(key, f)]))
    (ho : (feed σ cfg (pre ++ [(key, f)])).opened < 2 ^ 32)
    (hnot : ¬ Covering D (arrivals key pre)) :
    (CompletesAt σ cfg pre key f ↔ Covering D (arrivals key (pre ++ [(key, f)]))) ∧
    (CompletesAt σ cfg pre key f → ((feed σ cfg pre).addFragment σ key f).2.parts.flatten = D) := by
  have ho' := lt_of_le_of_lt (opened_feed_le pre [(key, f)]) ho
  have hcol := collecting_feed hD hfed.pre hadm.pre ho' hnot
  have hcut := hfed.cut
  have hroom := hfed.room
  rw [feed_append] at ho
  rw [arrivals_append, arrivals_own] at hcut hroom ⊢
  obtain ⟨hiff, hflat, -⟩ := hcol.add_own (indexed_after ho') hcut hD (by rwa [cfg_feed])
    (hadm pre f [] rfl) ho
  exact ⟨hiff, hflat⟩

/-- **Order independence.** Feed the fragments of a datagram in any order
among the fragments of others. A call is the first of the datagram's to
return completed exactly if it is the one after which its fragments cover
it, and then the views it returns spell the datagram. -/
theorem order_independent (σ : ComparisonSort) (cfg : Config) (D : Bytes)
    (hD : D.length < 2 ^ 32) (key : Key) (calls : List (Key × FragmentSpan))
    (hfed : Fed cfg D key calls) (hadm : Admitted σ cfg key calls)
    (ho : (feed σ cfg calls).opened < 2 ^ 32) (pre : List (Key × FragmentSpan)) (f : FragmentSpan)
    (post : List (Key × FragmentSpan)) (hcalls : calls = pre ++ (key, f) :: post) :
    ((CompletesAt σ cfg pre key f ∧
        ∀ pre' f' post', pre = pre' ++ (key, f') :: post' → ¬ CompletesAt σ cfg pre' key f') ↔
      (Covering D (arrivals key (pre ++ [(key, f)])) ∧ ¬ Covering D (arrivals key pre))) ∧
    (CompletesAt σ cfg pre key f → ¬ Covering D (arrivals key pre) →
      ((feed σ cfg pre).addFragment σ key f).2.parts.flatten = D) := by
  -- a prefix of the calls that ends in one of the datagram's, before it is covered
  have hat : ∀ pre' f' post', calls = pre' ++ (key, f') :: post' →
      ¬ Covering D (arrivals key pre') →
      (CompletesAt σ cfg pre' key f' ↔ Covering D (arrivals key (pre' ++ [(key, f')]))) ∧
      (CompletesAt σ cfg pre' key f' →
        ((feed σ cfg pre').addFragment σ key f').2.parts.flatten = D) := by
    intro pre' f' post' he hnot
    have happ : calls = (pre' ++ [(key, f')]) ++ post' := by rw [he]; simp
    rw [happ] at hfed hadm ho
    exact completesAt_iff hD hfed.pre hadm.pre
      (lt_of_le_of_lt (opened_feed_le _ post') ho) hnot
  refine ⟨⟨?_, ?_⟩, fun hc hnot => (hat pre f post hcalls hnot).2 hc⟩
  -- had it been covered before, the call that covered it would have completed it
  · rintro ⟨hc, hfirst⟩
    have hnot : ¬ Covering D (arrivals key pre) := by
      intro hcov
      obtain ⟨pre', f', post', he, hnot', hcov'⟩ := exists_first_covering hcov
      exact hfirst pre' f' post' he
        ((hat pre' f' (post' ++ (key, f) :: post) (by rw [hcalls, he]; simp) hnot').1.2 hcov')
    exact ⟨(hat pre f post hcalls hnot).1.1 hc, hnot⟩
  -- an earlier call that completed it would have covered it
  · rintro ⟨hcov, hnot⟩
    refine ⟨(hat pre f post hcalls hnot).1.2 hcov, fun pre' f' post' he hc => hnot ?_⟩
    have hnot' : ¬ Covering D (arrivals key pre') := by
      intro hcov'
      rw [he, arrivals_append] at hnot
      exact hnot (Covering.mono hcov')
    have hcov' := (hat pre' f' (post' ++ (key, f) :: post) (by rw [hcalls, he]; simp) hnot').1.1 hc
    have happ : pre = (pre' ++ [(key, f')]) ++ post' := by rw [he]; simp
    rw [happ, arrivals_append]
    exact Covering.mono hcov'

/-- The tail of a datagram of three bytes, and another datagram's
fragment. -/
def tailAndOther : List (ℕ × FragmentSpan) :=
  [(0, ⟨2, 0, false, [7], 0⟩), (1, ⟨0, 1, true, [9], 0⟩)]

/-- The head, arriving last, completes it. -/
theorem order_independent_three :
    ((feed .insertion {} tailAndOther).addFragment .insertion 0
      ⟨0, 2, true, [5, 6], 0⟩).2.parts.flatten = [5, 6, 7] := by
  have hcut : ∀ f ∈ arrivals 0 (tailAndOther ++ [(0, ⟨0, 2, true, [5, 6], 0⟩)]),
      CutFrom [5, 6, 7] f := by
    intro f hf
    rcases mem_cons.1 hf with rfl | hf
    · exact ⟨by decide, by decide, by decide⟩
    · rw [mem_singleton.1 hf]
      exact ⟨by decide, by decide, by decide⟩
  refine (order_independent .insertion {} [5, 6, 7] (by decide) 0 _ ⟨hcut, by decide⟩
    (admitted_of_length_le (by decide)) (by decide) tailAndOther ⟨0, 2, true, [5, 6], 0⟩ [] rfl).2
    ?_ ?_
  · unfold CompletesAt
    decide
  · rintro ⟨hcover, -⟩
    obtain ⟨f, hf, hb⟩ := hcover 0 (by decide)
    rw [show arrivals 0 tailAndOther = [⟨2, 0, false, [7], 0⟩] by decide, mem_singleton] at hf
    rw [hf] at hb
    cases hb

/-! ## Past the widths -/

section Wrap

/-- A datagram too long for `total_length`, in one fragment. -/
def longFragment (n : ℕ) : FragmentSpan := ⟨0, 0, false, List.replicate n 0, 0⟩

/-- The key of the datagram below. -/
def ownKey : Ipv6Key := ⟨List.replicate 16 1, List.replicate 16 2, 0⟩

/-- The keys of the datagrams opened before it. -/
def otherKey (i : ℕ) : Ipv6Key := ⟨List.replicate 16 3, List.replicate 16 2, i⟩

/-- The fragment each of them has. -/
def strayFragment : FragmentSpan := ⟨8, 0, true, [0], 0⟩

/-- A whole datagram of one byte. -/
def ownFragment : FragmentSpan := ⟨0, 0, false, [7], 0⟩

/-- Room for more datagrams than there are ids. -/
def wideConfig : Config := { maxDatagramBytes := 2 ^ 33, maxConcurrent := 2 ^ 33 }

/-- `n` datagrams opened and left open. -/
def others (n : ℕ) : List (Ipv6Key × FragmentSpan) :=
  (List.range n).map fun i => (otherKey i, strayFragment)

theorem otherKey_injective {i j : ℕ} (h : otherKey i = otherKey j) : i = j := by
  simpa [otherKey] using h

theorem ownKey_ne_otherKey (i : ℕ) : otherKey i ≠ ownKey := by
  simp [otherKey, ownKey]

theorem others_succ (n : ℕ) : others (n + 1) = others n ++ [(otherKey n, strayFragment)] := by
  simp [others, range_succ]

theorem length_others (n : ℕ) : (others n).length = n := by simp [others]

theorem arrivals_others (n : ℕ) : arrivals ownKey (others n) = [] := by
  simp [arrivals, others, ownKey_ne_otherKey]

theorem completes_long (σ : ComparisonSort) (h0 : u32 n = 0) (hn : n ≤ 2 ^ 33) :
    (feed σ wideConfig [] |>.addFragment σ ownKey (longFragment n)).2
      = { datagramId := 1, completed := true, retained := true, parts := [] } := by
  have hadm : (feed σ wideConfig [] : ReassemblyTable Ipv6Key).Admits ownKey :=
    fun _ => Nat.two_pow_pos 33
  obtain ⟨s, hs⟩ := hadm.slot (longFragment n).packetId
  have hid : s.id = 1 ∧ s.entry = { datagramId := 1, firstPacketId := 0 } := by
    rcases slot_cases hs with ⟨hid, -⟩ | ⟨-, -, -, hid⟩
    · cases hid
    rcases slot_entry hs with hold | ⟨-, hnew⟩
    · cases hold
    · have hid1 : s.id = 1 := hid
      rw [hid1] at hnew
      exact ⟨hid1, hnew⟩
  have hend : (longFragment n).endBytes = 0 := by
    simp [FragmentSpan.endBytes, longFragment, h0]
    rfl
  have hst : (s.entry.stored (longFragment n)).stitch σ = .complete [] := by
    have htotal : (s.entry.stored (longFragment n)).totalLength = (longFragment n).endBytes :=
      touch_totalLength
    have hfrag : (s.entry.stored (longFragment n)).fragments = [longFragment n] := by
      rw [hid.2]
      rfl
    rw [stitch, htotal, hfrag, σ.sort_singleton, assemble, emitTail, hend]
    rfl
  have hroom : s.entry.storedBytes + (longFragment n).data.length
      ≤ wideConfig.maxDatagramBytes := by
    rw [hid.2, longFragment, length_replicate]
    exact (zero_add n).symm ▸ hn
  rw [addFragment_of_slot hs]
  change { (s.entry.absorb σ wideConfig (longFragment n)).2 with datagramId := s.id } = _
  rw [absorb_of_complete hroom hst, hid.1]

/-- The table while others are opened: the first of them keeps its entry,
and only their keys are open. -/
structure Crowded (t : ReassemblyTable Ipv6Key) (n : ℕ) : Prop where
  opened : t.opened = n
  first : ∃ r, t.byId.find? 1 = some r ∧ r.fragments = [strayFragment]
  keys : ∀ k id, t.keyToId.find? k = some id → ∃ i < n, k = otherKey i

theorem crowded_one : Crowded (feed .insertion wideConfig (others 1)) 1 := by
  refine ⟨by decide, ⟨_, rfl, by decide⟩, fun k id h => ⟨0, Nat.one_pos, ?_⟩⟩
  have hmem := Assoc.mem_entries_iff.2 h
  rw [show (feed .insertion wideConfig (others 1)).keyToId.entries = [(otherKey 0, 1)] by decide,
    mem_singleton, Prod.mk.injEq] at hmem
  exact hmem.1

theorem Crowded.slot_id {t : ReassemblyTable Ipv6Key} {k : Ipv6Key}
    (h : Crowded t n) (hk : ∀ i < n, k ≠ otherKey i) {s : Slot Ipv6Key}
    (hs : t.slot k pid = some s) : s.id = u32 (n + 1) ∧ s.table.opened = n + 1 := by
  rcases slot_cases hs with ⟨hid, -⟩ | ⟨-, -, ht, hid⟩
  · obtain ⟨i, hi, he⟩ := h.keys k s.id hid
    exact absurd he (hk i hi)
  · exact ⟨by rw [hid, nextId, h.opened], by rw [ht]; exact congrArg (· + 1) h.opened⟩

theorem crowded_others (h1 : 1 ≤ n) (hn : n ≤ 2 ^ 32) :
    Crowded (feed .insertion wideConfig (others n)) n := by
  induction n, h1 using Nat.le_induction with
  | base => exact crowded_one
  | succ n h1 ih =>
    have hc := ih (by omega)
    have hadm : (feed .insertion wideConfig (others n)).Admits (otherKey n) := by
      intro _
      have := size_feed_le .insertion wideConfig (others n)
      rw [length_others] at this
      rw [cfg_feed]
      change _ < 2 ^ 33
      omega
    obtain ⟨s, hs⟩ := hadm.slot strayFragment.packetId
    obtain ⟨hid, hop⟩ := hc.slot_id (fun i hi he => by
      have := otherKey_injective he
      omega) hs
    have hne : (1 : ℕ) ≠ s.id := by rw [hid, u32]; omega
    rw [others_succ, feed_append]
    refine ⟨by rw [opened_addFragment_of_slot hs, hop], ?_, fun k id hk => ?_⟩
    · obtain ⟨r, hr, hfr⟩ := hc.first
      exact ⟨r, by rw [find?_addFragment_of_slot hs, if_neg hne, hr], hfr⟩
    · rw [keyToId_addFragment_of_slot hs] at hk
      split at hk
      · rename_i hkk
        exact ⟨n, by omega, hkk⟩
      · obtain ⟨i, hi, he⟩ := hc.keys k id hk
        exact ⟨i, by omega, he⟩

theorem crowded_incomplete {t : ReassemblyTable Ipv6Key} (h : Crowded t (2 ^ 32))
    (hcfg : t.cfg = wideConfig) (hadm : t.Admits ownKey) :
    (t.addFragment .insertion ownKey ownFragment).2.completed = false := by
  obtain ⟨s, hs⟩ := hadm.slot ownFragment.packetId
  obtain ⟨hid, -⟩ := h.slot_id (fun i _ he => ownKey_ne_otherKey i he.symm) hs
  have hid1 : s.id = 1 := by rw [hid]; decide
  obtain ⟨r, hr, hfr⟩ := h.first
  have hentry : s.entry = r := by
    rcases slot_entry hs with hold | ⟨hnone, -⟩
    · rw [hid1, hr, some.injEq] at hold
      exact hold.symm
    · rw [hid1, hr] at hnone
      cases hnone
  have hst : (s.entry.stored ownFragment).stitch .insertion = .incomplete := by
    have hlast : (s.entry.stored ownFragment).haveLast = true := by
      refine touch_haveLast.trans ?_
      simp [ownFragment]
    have htotal : (s.entry.stored ownFragment).totalLength = 1 := touch_totalLength
    have hfrag : (s.entry.stored ownFragment).fragments = [strayFragment, ownFragment] := by
      rw [stored_fragments, hentry, hfr]
      rfl
    rw [stitch, if_pos hlast, htotal, hfrag]
    decide
  have hroom : s.entry.storedBytes + ownFragment.data.length ≤ wideConfig.maxDatagramBytes := by
    rw [storedBytes, hentry, hfr]
    decide
  rw [addFragment_of_slot hs, hcfg]
  rw [absorb_of_incomplete hroom hst]

theorem cut_whole (D : Bytes) : CutFrom D ⟨0, 0, false, D, 0⟩ := ⟨by simp, by simp, by simp⟩

theorem covering_whole (D : Bytes) : Covering D [⟨0, 0, false, D, 0⟩] :=
  ⟨fun p hp => ⟨_, mem_singleton_self _, byteAt_isSome.2 ⟨Nat.zero_le _, by simpa using hp⟩⟩,
    _, mem_singleton_self _, rfl⟩

theorem not_covering_nil (D : Bytes) : ¬ Covering D [] := by
  rintro ⟨-, f, hf, -⟩
  cases hf

/-- **Past the widths reassembly depends on more than the fragments.** A
datagram of `2 ^ 32` bytes completes with no byte at all; and after
`2 ^ 32` others a whole datagram finds an id that has come round, with
another's fragment under it, and does not complete. -/
theorem wraps_out_of_order :
    (Fed wideConfig (replicate (2 ^ 32) 0) ownKey [(ownKey, longFragment (2 ^ 32))] ∧
      Admitted .insertion wideConfig ownKey [(ownKey, longFragment (2 ^ 32))] ∧
      CompletesAt .insertion wideConfig [] ownKey (longFragment (2 ^ 32)) ∧
      ((feed .insertion wideConfig []).addFragment .insertion ownKey
        (longFragment (2 ^ 32))).2.parts.flatten ≠ replicate (2 ^ 32) 0) ∧
    (Fed wideConfig [7] ownKey (others (2 ^ 32) ++ [(ownKey, ownFragment)]) ∧
      Admitted .insertion wideConfig ownKey (others (2 ^ 32) ++ [(ownKey, ownFragment)]) ∧
      Covering [7] (arrivals ownKey (others (2 ^ 32) ++ [(ownKey, ownFragment)])) ∧
      ¬ Covering [7] (arrivals ownKey (others (2 ^ 32))) ∧
      ¬ CompletesAt .insertion wideConfig (others (2 ^ 32)) ownKey ownFragment) := by
  have hlong := completes_long .insertion (n := 2 ^ 32) (by decide) (by decide)
  have harr : arrivals ownKey (others (2 ^ 32) ++ [(ownKey, ownFragment)]) = [ownFragment] := by
    rw [arrivals_append, arrivals_others, arrivals_own, nil_append]
  have hadm : Admitted .insertion wideConfig ownKey
      (others (2 ^ 32) ++ [(ownKey, ownFragment)]) := by
    refine admitted_of_length_le ?_
    rw [length_append, length_others]
    decide
  refine ⟨⟨⟨?_, ?_⟩, admitted_of_length_le (by decide), ?_, ?_⟩, ⟨?_, ?_⟩, hadm, ?_, ?_, ?_⟩
  · intro f hf
    rw [arrivals_own, mem_singleton] at hf
    rw [hf]
    exact cut_whole _
  · rw [arrivals_own, map_singleton, longFragment, length_replicate]
    decide
  · rw [CompletesAt, hlong]
  · rw [hlong]
    intro he
    have hlen := congrArg length he
    rw [length_replicate] at hlen
    exact absurd hlen (by decide)
  · intro f hf
    rw [harr, mem_singleton] at hf
    rw [hf]
    exact cut_whole _
  · rw [harr]
    decide
  · rw [harr]
    exact covering_whole _
  · rw [arrivals_others]
    exact not_covering_nil _
  · rw [CompletesAt, crowded_incomplete (crowded_others (by decide) (le_refl _)) cfg_feed
      (hadm _ _ [] rfl)]
    decide

end Wrap

end ReassemblyTable

end Nanom.Defrag
