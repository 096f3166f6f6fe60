import Nanom.Defrag.Conflict
/-!
# Fragment reassembly — dropped fragments

A fragment over the size limit is not stored, but its entry has been touched by
then: it carries the fragment's packet id, and a terminal fragment's end as its
total length. The packet id moves the entry's eviction and nothing else; the
total length is what later fragments are scanned against and what is reported.

Two runs are compared call by call, in what the caller is told (`seen`). They
differ in the last packet id of one entry (`retime`) until a fragment reaches
that entry again.
-/

namespace Nanom.Defrag

open Option (map_some some)

open List Reassembly

variable {σ : ComparisonSort} {cfg : Config} {f : FragmentSpan}

namespace Reassembly

variable {r : Reassembly} {p : ℕ}

/-- The entry as last touched by packet `p`. -/
def retime (p : ℕ) (r : Reassembly) : Reassembly := { r with lastPacketId := p }

/-- A dropped fragment that names no new length only touches the entry. -/
theorem touch_eq_retime
    (h : f.moreFragments = true ∨ r.haveLast = true ∧ r.totalLength = f.endBytes) :
    r.touch f.packetId f.offsetBytes f.moreFragments f.data = r.retime f.packetId := by
  unfold touch
  rcases h with hmore | ⟨hlast, htotal⟩
  · rw [if_pos hmore]
    rfl
  · split
    · rfl
    · rw [← FragmentSpan.endBytes, ← htotal, ← hlast]
      rfl

end Reassembly

/-- What a call tells its caller: a fragment's result with the entry it
went to, the tokens given back, or the summaries of the evicted. -/
inductive Answer
  | fragment (out : Result) (entry : Option Reassembly)
  | tokens (ts : List Token)
  | summaries (ss : List ReassemblySummary)

/-- The answer without the packet that last touched an entry. -/
def Answer.untimed : Answer → Answer
  | fragment out entry => fragment out (entry.map (Reassembly.retime 0))
  | tokens ts => tokens ts
  | summaries ss => summaries (ss.map fun s => { s with lastPacketId := 0 })

namespace ReassemblyTable

variable {Key : Type} [DecidableEq Key] {t : ReassemblyTable Key} {key k : Key} {id p now : ℕ}
variable {r : Reassembly} {s : Slot Key}

/-- What one call tells its caller. -/
def answer (σ : ComparisonSort) (t : ReassemblyTable Key) : Op Key → Answer
  | .addFragment key f => .fragment (t.addFragment σ key f).2
      ((t.addFragment σ key f).1.find (t.addFragment σ key f).2.datagramId)
  | .retire id => .tokens (t.retire id).2
  | .evictStale now => .summaries (t.evictStale now).2

/-- What a run tells its caller, the packets that last touched an entry
apart. -/
def seen (σ : ComparisonSort) (t : ReassemblyTable Key) : List (Op Key) → List Answer
  | [] => []
  | op :: ops => (t.answer σ op).untimed :: (t.step σ op).seen σ ops

/-- The evictions made before the next fragment of a key. -/
def pendingEvictions (key : Key) : List (Op Key) → List ℕ
  | [] => []
  | .addFragment k _ :: ops => if k = key then [] else pendingEvictions key ops
  | .retire _ :: ops => pendingEvictions key ops
  | .evictStale now :: ops => now :: pendingEvictions key ops

/-! ## A table with one entry touched at another time -/

/-- The table with the entry of `id` last touched by packet `p`. -/
def retime (t : ReassemblyTable Key) (id p : ℕ) : ReassemblyTable Key where
  cfg := t.cfg
  keyToId := t.keyToId
  byId := t.byId.modify id (Reassembly.retime p)
  opened := t.opened
  indexed k id' h := by rw [Assoc.modify_isSome]; exact t.indexed k id' h

theorem byId_retime : (t.retime id p).byId = t.byId.modify id (Reassembly.retime p) := rfl

theorem byId_store : (t.store id r).byId = t.byId.modify id fun _ => r := rfl

theorem eq_of_maps {t t' : ReassemblyTable Key} (hcfg : t.cfg = t'.cfg)
    (hkeys : t.keyToId = t'.keyToId) (hentries : t.byId = t'.byId) (ho : t.opened = t'.opened) :
    t = t' := by
  cases t
  cases hcfg
  cases hkeys
  cases hentries
  cases ho
  rfl

theorem retime_of_none (h : t.byId.find? id = none) : t.retime id p = t :=
  eq_of_maps rfl rfl (Assoc.modify_of_none h) rfl

theorem find?_retime {d : ℕ} : (t.retime id p).byId.find? d
    = if d = id then (t.byId.find? id).map (Reassembly.retime p) else t.byId.find? d :=
  Assoc.find?_modify

theorem slot_retime {pid : ℕ} (h : (t.byId.find? id).isSome)
    (hs : t.slot key pid = some s) : ∃ s', (t.retime id p).slot key pid = some s' ∧
      s'.id = s.id ∧ s'.table = s.table.retime id p := by
  have hsome : (t.retime id p).slot key pid ≠ none := by
    intro hnone
    rw [slot_eq_none_iff] at hnone
    have hnone' : t.slot key pid = none := by
      rw [slot_eq_none_iff]
      exact ⟨hnone.1, hnone.2.trans Assoc.size_modify.le⟩
    rw [hs] at hnone'
    cases hnone'
  obtain ⟨s', hs'⟩ := Option.ne_none_iff_exists'.1 hsome
  refine ⟨s', hs', ?_⟩
  rcases slot_cases hs with ⟨hid, ht⟩ | ⟨hkey, -, ht, hid⟩ <;>
    rcases slot_cases hs' with ⟨hid', ht'⟩ | ⟨hkey', -, ht', hid'⟩
  · exact ⟨some.inj (hid'.symm.trans hid), by rw [ht', ht]⟩
  · cases hkey'.symm.trans hid
  · cases hid'.symm.trans hkey
  · refine ⟨by rw [hid', hid]; rfl, ?_⟩
    rw [ht', ht]
    exact eq_of_maps rfl rfl (Assoc.modify_emplace h) rfl

theorem entry_of_retime {s' : Slot Key} (hid : s'.id = s.id) (ht : s'.table = s.table.retime id p) :
    s'.entry = if s.id = id then s.entry.retime p else s.entry := by
  have hfind := find?_entry s'
  rw [ht, hid, find?_retime] at hfind
  split at hfind
  · rename_i heq
    rw [← heq, find?_entry s, map_some, some.injEq] at hfind
    rw [if_pos heq, hfind]
  · rename_i hne
    rw [find?_entry s, some.injEq] at hfind
    rw [if_neg hne, hfind]

theorem store_retime {d : ℕ} : (t.retime id p).store d r
    = if d = id then t.store d r else (t.store d r).retime id p := by
  split
  · rename_i h
    subst h
    refine eq_of_maps rfl rfl ?_ rfl
    rw [byId_store, byId_store, byId_retime, Assoc.modify_modify]
  · rename_i h
    refine eq_of_maps rfl rfl ?_ rfl
    rw [byId_store, byId_retime, byId_retime, byId_store, Assoc.modify_comm (Ne.symm h)]

theorem store_retime_self : (t.retime id p).store id (r.retime p) = (t.store id r).retime id p := by
  refine eq_of_maps rfl rfl ?_ rfl
  rw [byId_store, byId_retime, byId_retime, byId_store, Assoc.modify_modify, Assoc.modify_modify]

/-- A fragment of another entry leaves the difference; one of this entry
removes it. -/
theorem addFragment_retime (h : (t.byId.find? id).isSome) (hs : t.slot key f.packetId = some s) :
    ((t.retime id p).addFragment σ key f).2 = (t.addFragment σ key f).2 ∧
    ((t.retime id p).addFragment σ key f).1 = if s.id = id then (t.addFragment σ key f).1
      else (t.addFragment σ key f).1.retime id p := by
  obtain ⟨s', hs', hid, ht⟩ := slot_retime (p := p) h hs
  have habsorb : s'.entry.absorb σ t.cfg f = s.entry.absorb σ t.cfg f := by
    rw [entry_of_retime hid ht]
    split <;> rfl
  have hcfg : (t.retime id p).cfg = t.cfg := rfl
  rw [addFragment_of_slot hs, addFragment_of_slot hs', hcfg, habsorb, hid, ht, store_retime]
  refine ⟨rfl, ?_⟩
  by_cases heq : s.id = id
  · rw [if_pos heq, if_pos heq]
  · split <;> rfl

theorem retire_retime (d : ℕ) :
    (t.retime id p).retire d = ((t.retire d).1.retime id p, (t.retire d).2) := by
  unfold retire
  rw [find?_retime]
  by_cases hd : d = id
  · subst hd
    rw [if_pos rfl]
    rcases hr : t.byId.find? d with - | r
    · rfl
    have hgone : (t.retime d p).store d (r.retiredEntry.retime p)
        = (t.store d r.retiredEntry).retime d p := store_retime_self
    dsimp only [map_some, Reassembly.retime]
    split
    · rfl
    · exact congrArg (·, r.fragments.map FragmentSpan.token) hgone
  · rw [if_neg hd]
    rcases hr : t.byId.find? d with - | r
    · rfl
    · dsimp only
      split
      · rfl
      · rw [store_retime, if_neg hd]

theorem evictStale_retime (h : ∀ r, t.byId.find? id = some r →
      (r.retime p).agedOut t.cfg now = r.agedOut t.cfg now) :
    ((t.retime id p).evictStale now).1 = (t.evictStale now).1.retime id p ∧
    ((t.retime id p).evictStale now).2.map (fun s => { s with lastPacketId := 0 })
      = (t.evictStale now).2.map fun s => { s with lastPacketId := 0 } := by
  have hstale : (t.retime id p).stale now
      = (t.stale now).map fun e => if e.1 = id then (e.1, e.2.retime p) else e := by
    exact congrArg Assoc.entries
      (Assoc.modify_filter (p := fun e : ℕ × Reassembly => e.2.agedOut t.cfg now) h)
  refine ⟨eq_of_maps rfl ?_ ?_ rfl, ?_⟩
  · change t.keyToId.filter _ = t.keyToId.filter _
    rw [hstale]
    congr 1
    funext e
    rw [any_map]
    congr 2
    funext d
    rw [Function.comp_apply]
    split <;> rfl
  · exact Assoc.modify_filter fun r hr => congrArg Bool.not (h r hr)
  · change ((t.retime id p).stale now |>.map fun e => e.2.summary).map _
      = ((t.stale now).map fun e => e.2.summary).map _
    rw [hstale, map_map, map_map, map_map]
    refine map_congr_left fun e _ => ?_
    simp only [Function.comp_apply]
    split <;> rfl

theorem find_retime_untimed (d : ℕ) : ((t.retime id p).find d).map (Reassembly.retime 0)
    = (t.find d).map (Reassembly.retime 0) := by
  rw [find, find?_retime]
  split
  · rename_i h
    rw [h, Option.map_map]
    rfl
  · rfl

/-- **What one call sees of the touch.** Its answer is the same, and
either it removes the difference or it leaves it with the entry open under
its key. -/
theorem step_retime (hkey : t.keyToId.find? key = some id)
    (hr : t.byId.find? id = some r) (op : Op Key)
    (htime : ∀ now, op = .evictStale now → (r.retime p).agedOut t.cfg now = r.agedOut t.cfg now) :
    ((t.retime id p).answer σ op).untimed = (t.answer σ op).untimed ∧
    ((t.retime id p).step σ op = t.step σ op ∨
      (t.retime id p).step σ op = (t.step σ op).retime id p ∧ (∀ f, op ≠ .addFragment key f) ∧
        (t.step σ op).keyToId.find? key = some id ∧
        ∃ r', (t.step σ op).byId.find? id = some r' ∧ r'.lastPacketId = r.lastPacketId) := by
  have hsome : (t.byId.find? id).isSome := by rw [hr]; rfl
  cases op with
  | addFragment k f =>
    rcases hs : t.slot k f.packetId with - | s
    · have hs' : (t.retime id p).slot k f.packetId = none := by
        rw [slot_eq_none_iff] at hs ⊢
        exact ⟨hs.1, hs.2.trans Assoc.size_modify.ge⟩
      simp only [answer, step, Answer.untimed, addFragment_of_none hs, addFragment_of_none hs',
        find_retime_untimed]
      refine ⟨trivial, .inr ⟨trivial, fun g hg => ?_, hkey, r, hr, rfl⟩⟩
      cases hg
      cases (slot_eq_none_iff.1 hs).1.symm.trans hkey
    obtain ⟨hout, htable⟩ := addFragment_retime (σ := σ) (p := p) hsome hs
    simp only [answer, step, Answer.untimed, hout]
    by_cases hid : s.id = id
    · rw [if_pos hid] at htable
      rw [htable]
      exact ⟨rfl, .inl rfl⟩
    rw [if_neg hid] at htable
    rw [htable, find_retime_untimed]
    have hne : key ≠ k := by
      rintro rfl
      rcases slot_cases hs with ⟨hfound, -⟩ | ⟨hnone, -⟩
      · exact hid (some.inj (hfound.symm.trans hkey))
      · cases hnone.symm.trans hkey
    refine ⟨rfl, .inr ⟨rfl, fun g hg => ?_, ?_, r, ?_, rfl⟩⟩
    · cases hg
      exact hne rfl
    · rw [keyToId_addFragment_of_slot hs, if_neg hne]
      exact hkey
    · rw [find?_addFragment_of_slot hs, if_neg (Ne.symm hid)]
      exact hr
  | retire d =>
    refine ⟨?_, .inr ⟨?_, fun g hg => (by cases hg), ?_, ?_⟩⟩
    · rw [answer, retire_retime]
      rfl
    · rw [step, retire_retime]
      rfl
    · rw [← hkey, step]
      rcases retire_cases t d with he | ⟨r₀, -, -, -, he⟩ <;> rw [he]
      rfl
    · rcases retire_cases t d with he | ⟨r₀, hr₀, -, -, he⟩
      · exact ⟨r, by rw [step, he, hr], rfl⟩
      · rw [step, he, byId_store, Assoc.find?_modify]
        split
        · rename_i hid
          rw [← hid, hr, some.injEq] at hr₀
          exact ⟨r₀.retiredEntry, by rw [← hid, hr]; rfl, by rw [hr₀]; rfl⟩
        · exact ⟨r, hr, rfl⟩
  | evictStale now =>
    have hsame : ∀ r', t.byId.find? id = some r' →
        (r'.retime p).agedOut t.cfg now = r'.agedOut t.cfg now := fun r' hr' => by
      rw [hr, some.injEq] at hr'
      exact hr' ▸ htime now rfl
    obtain ⟨htable, hout⟩ := evictStale_retime hsame
    refine ⟨congrArg Answer.summaries hout, ?_⟩
    by_cases haged : r.agedOut t.cfg now = true
    · -- both entries are evicted, and with them the difference
      refine .inl (htable.trans (retime_of_none ?_))
      by_contra hne
      obtain ⟨r', hr'⟩ := Option.ne_none_iff_exists'.1 hne
      obtain ⟨hold, hfresh⟩ := find?_evictStale.1 hr'
      rw [hr, some.injEq] at hold
      rw [← hold, haged] at hfresh
      cases hfresh
    · rw [Bool.not_eq_true] at haged
      refine .inr ⟨htable, fun g hg => (by cases hg), keyToId_evictStale.2 ⟨hkey, ?_⟩,
        r, find?_evictStale.2 ⟨hr, haged⟩, rfl⟩
      intro r' hr'
      rw [hr, some.injEq] at hr'
      rw [← hr', haged]

/-- **Nothing but an eviction sees the touch.** -/
theorem seen_retime (rest : List (Op Key)) (hkey : t.keyToId.find? key = some id)
    (hr : t.byId.find? id = some r) (htime : ∀ now ∈ pendingEvictions key rest,
      (r.retime p).agedOut t.cfg now = r.agedOut t.cfg now) :
    (t.retime id p).seen σ rest = t.seen σ rest := by
  -- by induction on the calls, until one of them removes the difference
  induction rest generalizing t r with
  | nil => rfl
  | cons op rest ih =>
    have hnow : ∀ now, op = .evictStale now →
        (r.retime p).agedOut t.cfg now = r.agedOut t.cfg now := by
      rintro now rfl
      exact htime now mem_cons_self
    obtain ⟨hans, hstep⟩ := step_retime (σ := σ) hkey hr op hnow
    rw [seen, seen]
    congr 1
    rcases hstep with hsame | ⟨hlate, hother, hkey', r', hr', hlast⟩
    · rw [hsame]
    rw [hlate]
    refine ih hkey' hr' fun now hmem => ?_
    rw [cfg_step]
    have hself : r'.agedOut t.cfg now = r.agedOut t.cfg now := by
      rw [agedOut, hlast, ← agedOut]
    rw [hself]
    refine htime now ?_
    cases op with
    | addFragment k f =>
      rw [pendingEvictions, if_neg (fun hk => hother f (by rw [hk]))]
      exact hmem
    | retire d => exact hmem
    | evictStale now' => exact mem_cons_of_mem now' hmem

theorem addFragment_of_dropped (hkey : t.keyToId.find? key = some id)
    (hr : t.byId.find? id = some r) (hdrop : (t.addFragment σ key f).2.retained = false) :
    t.cfg.maxDatagramBytes < r.storedBytes + f.data.length ∧ (t.addFragment σ key f).1
      = t.store id (r.touch f.packetId f.offsetBytes f.moreFragments f.data) := by
  rcases hs : t.slot key f.packetId with - | s
  · cases (slot_eq_none_iff.1 hs).1.symm.trans hkey
  rcases slot_cases hs with ⟨hid, ht⟩ | ⟨hnone, -⟩
  · have heq : s.id = id := some.inj (hid.symm.trans hkey)
    have hentry := find?_entry s
    rw [ht, heq, hr, some.injEq] at hentry
    rw [addFragment_of_slot hs] at hdrop ⊢
    obtain ⟨hover, he⟩ := absorb_of_not_retained hdrop
    rw [he, ht, heq, hentry]
    exact ⟨hover, rfl⟩
  · cases hnone.symm.trans hkey

theorem agedOut_last (r : Reassembly) : r.agedOut cfg (2 ^ 64 - 1) = true := by
  have hle : u64 (r.lastPacketId + cfg.timeoutTicks) ≤ 2 ^ 64 - 1 := by unfold u64; omega
  rw [agedOut, decide_eq_true hle, Bool.true_or]

/-- What the summaries of an eviction say of the lengths. -/
def evictedLengths (t : ReassemblyTable Key) (now : ℕ) : List (ℕ × ℕ) :=
  (t.evictStale now).2.map fun s => (s.totalLength, s.gapBytes)

theorem totalLength_of_evicted {r' : Reassembly} (hr : t.byId.find? id = some r)
    (h : (t.store id r').evictedLengths (2 ^ 64 - 1) = t.evictedLengths (2 ^ 64 - 1)) :
    r'.totalLength = r.totalLength := by
  have hstale : ∀ u : ReassemblyTable Key, u.stale (2 ^ 64 - 1) = u.byId.entries :=
    fun u => filter_eq_self.2 fun e _ => agedOut_last e.2
  simp only [evictedLengths, evictStale, hstale, byId_store, Assoc.modify, map_map,
    map_inj_left] at h
  have hentry := h (id, r) (Assoc.mem_entries_iff.2 hr)
  simp only [Function.comp_apply] at hentry
  exact congrArg Prod.fst hentry

theorem totalLength_after (σ : ComparisonSort) (cfg : Config) (ops : List (Op Key)) :
    ∀ id r, (after σ cfg ops).byId.find? id = some r → r.haveLast = false → r.totalLength = 0 := by
  refine entry_inv (P := fun r => r.haveLast = false → r.totalLength = 0) (Q := fun _ => True)
    (fun _ _ _ => rfl) ?_ (fun _ h => h) fun _ _ _ => trivial
  intro r f hr _ hlast
  have htouch : (r.touch f.packetId f.offsetBytes f.moreFragments f.data).haveLast = false →
      (r.touch f.packetId f.offsetBytes f.moreFragments f.data).totalLength = 0 := by
    intro h
    rw [touch_haveLast, Bool.or_eq_false_iff, Bool.not_eq_false'] at h
    rw [touch_totalLength, if_pos h.2]
    exact hr h.1
  rcases absorb_cases σ cfg r f with
    ⟨-, he⟩ | ⟨-, ⟨-, he⟩ | ⟨-, he⟩ | ⟨parts, -, he⟩⟩ <;> rw [he] at hlast ⊢ <;> exact htouch hlast

/-- **When a dropped fragment leaves no trace.** An oversized fragment of an open
datagram is dropped. If it is not terminal, or names the length the datagram has,
whatever calls follow are answered as if it had not been fed, provided evictions
before the key's next fragment treat the entry alike whichever packet touched it
last. For a fragment that ends below `2 ^ 32` this is also necessary. -/
theorem dropped_unseen_iff (σ : ComparisonSort) (cfg : Config) (pre : List (Op Key)) (key : Key)
    (f : FragmentSpan) (id : ℕ) (r : Reassembly)
    (hkey : (after σ cfg pre).keyToId.find? key = some id) (hr : (after σ cfg pre).find id = some r)
    (hdrop : ((after σ cfg pre).addFragment σ key f).2.retained = false) :
    ((f.moreFragments = true ∨ r.haveLast = true ∧ r.totalLength = f.endBytes) →
      ∀ rest, (∀ now ∈ pendingEvictions key rest,
        (r.retime f.packetId).agedOut cfg now = r.agedOut cfg now) →
        ((after σ cfg pre).addFragment σ key f).1.seen σ rest = (after σ cfg pre).seen σ rest) ∧
    (f.Fits → (∀ now, (r.retime f.packetId).agedOut cfg now = r.agedOut cfg now →
        ((after σ cfg pre).addFragment σ key f).1.evictedLengths now
          = (after σ cfg pre).evictedLengths now) →
      f.moreFragments = true ∨ r.haveLast = true ∧ r.totalLength = f.endBytes) := by
  obtain ⟨hover, htable⟩ := addFragment_of_dropped hkey hr hdrop
  have hcfg : (after σ cfg pre).cfg = cfg := cfg_after
  rw [htable]
  refine ⟨fun hcond rest htime => ?_, fun hfit hall => ?_⟩
  · have hlate : (after σ cfg pre).store id
        (r.touch f.packetId f.offsetBytes f.moreFragments f.data)
          = (after σ cfg pre).retime id f.packetId := by
      refine eq_of_maps rfl rfl ?_ rfl
      rw [byId_store]
      exact Assoc.modify_congr hr (touch_eq_retime hcond)
    rw [hlate]
    exact seen_retime rest hkey hr (by rw [hcfg]; exact htime)
  · -- the entries are compared at an eviction that takes them all
    have htotal := totalLength_of_evicted hr (hall (2 ^ 64 - 1) (by
      rw [agedOut_last, agedOut_last]))
    rcases hmore : f.moreFragments with - | -
    · rw [hmore] at htotal
      refine .inr ⟨?_, htotal.symm⟩
      by_contra hlast
      have hzero := totalLength_after σ cfg pre id r hr (by simpa using hlast)
      have hstored := (counted_after σ cfg pre id r hr).stored_le
      have hend := endBytes_of_fits hfit
      rw [hcfg] at hover
      change f.endBytes = r.totalLength at htotal
      omega
    · exact .inl rfl

/-- A middle fragment too large to keep, and the last fragment after it. -/
theorem dropped_unseen_iff_middle :
    ((after .insertion ⟨4, 4, 30⟩ [Op.addFragment 0 ⟨0, 0, true, [1, 2], 1⟩]).addFragment
      .insertion 0 ⟨2, 1, true, [7, 7, 7], 2⟩).1.seen .insertion
        [.addFragment 0 ⟨2, 2, false, [3], 3⟩, .evictStale 40]
      = (after .insertion ⟨4, 4, 30⟩ [Op.addFragment 0 ⟨0, 0, true, [1, 2], 1⟩]).seen .insertion
        [.addFragment 0 ⟨2, 2, false, [3], 3⟩, .evictStale 40] := by
  refine (dropped_unseen_iff .insertion ⟨4, 4, 30⟩
    [Op.addFragment (0 : ℕ) ⟨0, 0, true, [1, 2], 1⟩] 0 ⟨2, 1, true, [7, 7, 7], 2⟩ 1 {
      datagramId := 1, firstPacketId := 0, lastPacketId := 0, fragmentCount := 1, coveredHigh := 2,
      fragments := [⟨0, 0, true, [1, 2], 1⟩] }
    (by decide) (by decide) (by decide)).1 (.inl rfl) _ ?_
  intro now hnow
  cases hnow

/-- A last fragment too large to keep leaves its length: the entry is
evicted as 98 bytes short of 100, and without that fragment as of unknown
length. -/
theorem dropped_terminal_seen :
    ((after .insertion ⟨4, 4, 30⟩ [Op.addFragment 0 ⟨0, 0, true, [1, 2], 1⟩]).addFragment
      .insertion 0 ⟨95, 0, false, [7, 7, 7, 7, 7], 2⟩).2
        = { datagramId := 1, completed := false, retained := false, parts := [] } ∧
    ((after .insertion ⟨4, 4, 30⟩ [Op.addFragment 0 ⟨0, 0, true, [1, 2], 1⟩,
      .addFragment 0 ⟨95, 0, false, [7, 7, 7, 7, 7], 2⟩]).evictStale 40).2.map
        (fun s => (s.totalLength, s.gapBytes)) = [(100, 98)] ∧
    ((after .insertion ⟨4, 4, 30⟩ [Op.addFragment 0 ⟨0, 0, true, [1, 2], 1⟩]).evictStale 40).2.map
        (fun s => (s.totalLength, s.gapBytes)) = [(0, 0)] := by
  decide

end ReassemblyTable

end Nanom.Defrag
