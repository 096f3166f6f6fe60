import Nanom.Defrag.Index
/-!
# Fragment reassembly — tokens change nothing

What a caller can see of a table leaves out the tokens of its spans and what a
completed entry keeps only for its views. Two tables with the same view answer a
fragment alike and keep the same view, as long as the fragment's entry is open.
-/

namespace Nanom.Defrag

open FragmentSpan

open Reassembly

open List

/-- The fragment without its buffer's name. -/
def FragmentSpan.untag (f : FragmentSpan) : FragmentSpan := { f with token := kNoToken }

variable {σ : ComparisonSort} {cfg : Config}

theorem assemble_untag (total : ℕ) (fs : List FragmentSpan) (covered : ℕ) (parts : List Bytes) :
    assemble total (fs.map untag) covered parts = assemble total fs covered parts := by
  induction fs generalizing covered parts with
  | nil => rfl
  | cons f fs ih =>
    rw [map_cons, assemble, ih]
    rfl

theorem sort_untag (fs : List FragmentSpan) :
    σ.sort spanBefore (fs.map untag)
      = (σ.sort spanBefore fs).map untag := σ.map_eq untag fs fun _ _ _ _ => rfl

namespace Reassembly

variable {r r' : Reassembly} {f f' : FragmentSpan}

/-- What is seen of an entry. -/
def visible (r : Reassembly) : Reassembly :=
  { r with
    fragments := if r.completed then [] else r.fragments.map FragmentSpan.untag
    parts := []
    retired := false
    materialized := [] }

theorem visible_fragments (h : r.completed = false) :
    r.visible.fragments = r.fragments.map untag := by
  simp [visible, h]

theorem visible_retiredEntry (h : r.completed = true) : r.retiredEntry.visible = r.visible := by
  simp [visible, retiredEntry, h]

theorem storedBytes_visible (h : r.completed = false) : r.visible.storedBytes = r.storedBytes := by
  rw [storedBytes, visible_fragments h, map_map]
  rfl

theorem touch_visible (pid off : ℕ) (more : Bool) (payload : Bytes) :
    r.visible.touch pid off more payload = (r.touch pid off more payload).visible := by
  unfold touch
  split <;> rfl

theorem push_visible (h : r.completed = false) : r.visible.push f.untag = (r.push f).visible := by
  simp [visible, push, h]
  rfl

theorem stitch_visible (h : r.completed = false) : r.visible.stitch σ = r.stitch σ := by
  unfold stitch
  rw [visible_fragments h, sort_untag, assemble_untag]
  rfl

@[simp] theorem visible_visible : r.visible.visible = r.visible := by
  cases h : r.completed with
  | true => simp [visible, h]
  | false =>
    simp only [visible, h, Bool.false_eq_true, if_false, map_map]
    rfl

theorem tryComplete_visible (h : r.completed = false) :
    (r.visible.tryComplete σ).2 = (r.tryComplete σ).2 ∧
    (r.visible.tryComplete σ).1.visible = (r.tryComplete σ).1.visible := by
  unfold tryComplete
  rw [stitch_visible h]
  split
  · exact ⟨rfl, visible_visible⟩
  · refine ⟨rfl, ?_⟩
    change { r.visible.visible with conflict := true } = { r.visible with conflict := true }
    rw [visible_visible]
  · exact ⟨rfl, rfl⟩

/-- **A fragment sees no token** and no more of an open entry than is
visible. -/
theorem absorb_visible (σ : ComparisonSort) (cfg : Config) (f : FragmentSpan)
    (h : r.completed = false) :
    (r.visible.absorb σ cfg f.untag).2 = (r.absorb σ cfg f).2 ∧
    (r.visible.absorb σ cfg f.untag).1.visible = (r.absorb σ cfg f).1.visible := by
  have htouch : (r.touch f.packetId f.offsetBytes f.moreFragments f.data).completed = false := by
    rw [touch_completed, h]
  have hsame : r.visible.touch f.untag.packetId f.untag.offsetBytes f.untag.moreFragments
      f.untag.data = (r.touch f.packetId f.offsetBytes f.moreFragments f.data).visible :=
    touch_visible _ _ _ _
  have hdata : f.untag.data = f.data := rfl
  unfold absorb
  dsimp only
  rw [hsame, storedBytes_visible htouch, push_visible htouch, hdata]
  split
  · exact ⟨rfl, visible_visible⟩
  · exact tryComplete_visible htouch

theorem absorb_congr (σ : ComparisonSort) (cfg : Config) (hr : r.visible = r'.visible)
    (hf : f.untag = f'.untag) (h : r.completed = false) :
    (r.absorb σ cfg f).2 = (r'.absorb σ cfg f').2 ∧
    (r.absorb σ cfg f).1.visible = (r'.absorb σ cfg f').1.visible := by
  have h' : r'.completed = false := (congrArg completed hr).symm.trans h
  obtain ⟨hout, hvis⟩ := absorb_visible σ cfg f h
  obtain ⟨hout', hvis'⟩ := absorb_visible σ cfg f' h'
  rw [← hout, ← hvis, ← hout', ← hvis', hr, hf]
  exact ⟨rfl, rfl⟩

end Reassembly

/-! ## The view of a table -/

/-- What is seen of a table. -/
structure View (Key : Type) where
  cfg : Config
  keyToId : Assoc Key ℕ
  entries : Assoc ℕ Reassembly
  opened : ℕ

namespace ReassemblyTable

variable {Key : Type} [DecidableEq Key] {t t' : ReassemblyTable Key} {key : Key}
variable {f f' : FragmentSpan} {id now pid : ℕ} {s : Slot Key}

def view (t : ReassemblyTable Key) : View Key :=
  ⟨t.cfg, t.keyToId, t.byId.mapValues Reassembly.visible, t.opened⟩

section

variable (h : t.view = t'.view)
include h

theorem cfg_congr : t.cfg = t'.cfg := congrArg View.cfg h

theorem keyToId_congr : t.keyToId = t'.keyToId := congrArg View.keyToId h

theorem byId_congr : t.byId.mapValues visible = t'.byId.mapValues visible := congrArg View.entries h

theorem opened_congr : t.opened = t'.opened := congrArg View.opened h

theorem nextId_congr : t.nextId = t'.nextId := by
  rw [nextId, nextId, opened_congr h]

theorem find?_congr (id : ℕ) : (t.byId.find? id).map visible = (t'.byId.find? id).map visible := by
  rw [← Assoc.find?_mapValues, ← Assoc.find?_mapValues, byId_congr h]

theorem size_congr : t.byId.size = t'.byId.size := by
  rw [← Assoc.size_mapValues visible, byId_congr h, Assoc.size_mapValues]

end

theorem view_create (key : Key) (pid : ℕ) : (t.create key pid).view =
    ⟨t.view.cfg, t.view.keyToId.emplace key t.nextId,
      t.view.entries.emplace t.nextId { datagramId := t.nextId, firstPacketId := pid },
      t.view.opened + 1⟩ := by
  change View.mk _ _ ((t.byId.emplace t.nextId _).mapValues visible) _ = _
  rw [Assoc.mapValues_emplace]
  rfl

theorem view_store (id : ℕ) (r : Reassembly) : (t.store id r).view =
    { t.view with entries := t.view.entries.modify id fun _ => r.visible } := by
  change View.mk _ _ ((t.byId.modify id _).mapValues visible) _ = _
  rw [Assoc.mapValues_modify]
  rfl

theorem view_freeKey (key : Key) :
    (t.freeKey key).view = { t.view with keyToId := t.view.keyToId.erase key } := rfl

theorem slot_eq_none_congr (h : t.view = t'.view) (key : Key) (pid : ℕ) :
    t.slot key pid = none ↔ t'.slot key pid = none := by
  rw [slot_eq_none_iff, slot_eq_none_iff, keyToId_congr h, cfg_congr h, size_congr h]

theorem slot_congr (h : t.view = t'.view) (hs : t.slot key pid = some s) :
    ∃ s', t'.slot key pid = some s' ∧ s'.id = s.id ∧ s'.table.view = s.table.view ∧
      s'.entry.visible = s.entry.visible := by
  have hsome : t'.slot key pid ≠ none := by
    intro hnone
    rw [← slot_eq_none_congr h, hs] at hnone
    cases hnone
  obtain ⟨s', hs'⟩ := Option.ne_none_iff_exists'.1 hsome
  have hsame : s'.id = s.id ∧ s'.table.view = s.table.view := by
    rcases slot_cases hs with ⟨hid, ht⟩ | ⟨hkey, -, ht, hid⟩ <;>
      rcases slot_cases hs' with ⟨hid', ht'⟩ | ⟨hkey', -, ht', hid'⟩
    · rw [← keyToId_congr h, hid] at hid'
      exact ⟨(Option.some.inj hid').symm, by rw [ht, ht', h]⟩
    · rw [← keyToId_congr h, hid] at hkey'
      cases hkey'
    · rw [← keyToId_congr h, hkey] at hid'
      cases hid'
    · refine ⟨by rw [hid, hid', nextId_congr h], ?_⟩
      rw [ht, ht', view_create, view_create, h, nextId_congr h]
  refine ⟨s', hs', hsame.1, hsame.2, ?_⟩
  have hentry := find?_congr hsame.2 s.id
  rw [find?_entry s, ← hsame.1, find?_entry s'] at hentry
  exact Option.some.inj hentry

/-- **A fragment sees no token.** -/
theorem addFragment_congr (h : t.view = t'.view) (hf : f.untag = f'.untag)
    (hopen : ∀ s, t.slot key f.packetId = some s → s.entry.completed = false) :
    (t.addFragment σ key f).2 = (t'.addFragment σ key f').2 ∧
    (t.addFragment σ key f).1.view = (t'.addFragment σ key f').1.view := by
  have hpid : f'.packetId = f.packetId := (congrArg packetId hf).symm
  rcases hs : t.slot key f.packetId with - | s
  · have hs' : t'.slot key f'.packetId = none := hpid ▸ (slot_eq_none_congr h key f.packetId).1 hs
    rw [addFragment_of_none hs, addFragment_of_none hs']
    exact ⟨rfl, h⟩
  obtain ⟨s', hs', hid, hview, hentry⟩ := slot_congr h hs
  rw [← hpid] at hs'
  obtain ⟨hout, hvis⟩ := Reassembly.absorb_congr σ t.cfg hentry.symm hf (hopen s hs)
  have hstore : (s.table.store s.id (s.entry.absorb σ t.cfg f).1).view
      = (s'.table.store s'.id (s'.entry.absorb σ t.cfg f').1).view := by
    rw [view_store, view_store, hvis, hview, hid]
  rw [addFragment_of_slot hs, addFragment_of_slot hs', ← cfg_congr h, ← hout, hid]
  rw [hid] at hstore
  refine ⟨rfl, ?_⟩
  split
  · rw [view_freeKey, view_freeKey, hstore]
  · exact hstore

/-- **A retirement is not seen.** -/
theorem view_retire (id : ℕ) : (t.retire id).1.view = t.view := by
  rcases retire_cases t id with he | ⟨r, hr, hc, -, he⟩
  · rw [he]
  · rw [he]
    change View.mk _ _ ((t.byId.modify id _).mapValues visible) _ = _
    rw [Assoc.mapValues_modify_of_eq hr (Reassembly.visible_retiredEntry hc)]
    rfl

theorem stale_congr (h : t.view = t'.view) (now : ℕ) :
    (t.stale now).map (fun e => (e.1, e.2.visible))
      = (t'.stale now).map fun e => (e.1, e.2.visible) := by
  have hstale : ∀ u : ReassemblyTable Key, (u.stale now).map (fun e => (e.1, e.2.visible))
      = u.view.entries.entries.filter fun e => e.2.agedOut u.view.cfg now := by
    intro u
    change _ = (u.byId.entries.map fun e => (e.1, e.2.visible)).filter _
    rw [filter_map]
    rfl
  rw [hstale, hstale, h]

/-- **An eviction sees no token**: it keeps the same entries and tells the
same of those it removes, their tokens apart. -/
theorem evictStale_congr (h : t.view = t'.view) (now : ℕ) :
    (t.evictStale now).1.view = (t'.evictStale now).1.view ∧
    (t.evictStale now).2.map (fun s => { s with tokens := [] })
      = (t'.evictStale now).2.map fun s => { s with tokens := [] } := by
  have hstale := stale_congr h now
  have hview : ∀ u : ReassemblyTable Key, (u.evictStale now).1.view = ⟨u.view.cfg,
        u.view.keyToId.filter fun e =>
          !((u.stale now).map fun e => (e.1, e.2.visible)).any fun d => d.1 == e.2,
        u.view.entries.filter fun e => !e.2.agedOut u.view.cfg now, u.view.opened⟩ := by
    intro u
    simp only [any_map]
    change View.mk _ _ ((u.byId.filter _).mapValues visible) _ = _
    have hentries : (u.byId.filter fun e => !e.2.agedOut u.cfg now).mapValues visible
        = (u.byId.mapValues visible).filter fun e => !e.2.agedOut u.cfg now :=
      Assoc.mapValues_filter fun _ => rfl
    rw [hentries]
    rfl
  have hsummaries : ∀ u : ReassemblyTable Key,
      (u.evictStale now).2.map (fun s => { s with tokens := [] })
        = ((u.stale now).map fun e => (e.1, e.2.visible)).map
          fun e => { e.2.summary with tokens := [] } := by
    intro u
    change ((u.stale now).map fun e => e.2.summary).map _ = _
    rw [map_map, map_map]
    rfl
  refine ⟨?_, ?_⟩
  · rw [hview, hview, hstale, h]
  · rw [hsummaries, hsummaries, hstale]

end ReassemblyTable

end Nanom.Defrag
