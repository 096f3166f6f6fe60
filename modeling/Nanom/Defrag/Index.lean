import Nanom.Defrag.Step
/-!
# Fragment reassembly — the two maps agree

While fewer than `2 ^ 32` datagrams have been opened an id is never given
out twice, and then `key_to_id_` names exactly the open entries of
`by_id_`, one key each. The limits of the table and the running counters
of its entries need no such bound: they hold in the counters' own width.
-/

namespace Nanom.Defrag

/-! ## An entry's counters -/

namespace Reassembly

variable {σ : ComparisonSort} {cfg : Config} {r : Reassembly} {f : FragmentSpan}

/-- The highest end among fragments, in the width the code keeps it. -/
def highestEnd (fs : List FragmentSpan) : ℕ := (fs.map FragmentSpan.endBytes).foldr max 0

/-- The highest end among fragments. -/
def exactEnd (fs : List FragmentSpan) : ℕ :=
  (fs.map fun f => f.offsetBytes + f.data.length).foldr max 0

theorem highestEnd_append (fs : List FragmentSpan) :
    highestEnd (fs ++ [f]) = max (highestEnd fs) f.endBytes := by
  induction fs with
  | nil => simp [highestEnd]
  | cons g fs ih =>
    have hcons : ∀ l, highestEnd (g :: l) = max g.endBytes (highestEnd l) := fun _ => rfl
    rw [List.cons_append, hcons, hcons, ih, Nat.max_assoc]

theorem highestEnd_eq_exactEnd {fs : List FragmentSpan} (h : ∀ f ∈ fs, f.Fits) :
    highestEnd fs = exactEnd fs := by
  rw [highestEnd, exactEnd, List.map_congr_left fun f hf => endBytes_of_fits (h f hf)]

/-- An entry's running counters against the spans it stores. -/
structure Counted (cfg : Config) (r : Reassembly) : Prop where
  stored_le : r.storedBytes ≤ cfg.maxDatagramBytes
  count : r.retired = false → r.fragmentCount = u32 r.fragments.length
  high : r.retired = false → r.coveredHigh = highestEnd r.fragments

theorem counted_new (id pid : ℕ) : Counted cfg { datagramId := id, firstPacketId := pid } :=
  ⟨Nat.zero_le _, fun _ => rfl, fun _ => rfl⟩

theorem Counted.retiredEntry (_h : Counted cfg r) : Counted cfg r.retiredEntry :=
  ⟨Nat.zero_le _, fun h => (by cases h), fun h => (by cases h)⟩

theorem Counted.stored (h : Counted cfg r)
    (hle : r.storedBytes + f.data.length ≤ cfg.maxDatagramBytes) : Counted cfg (r.stored f) := by
  have hret : (r.stored f).retired = r.retired := touch_retired
  refine ⟨?_, fun hr => ?_, fun hr => ?_⟩
  · simpa [storedBytes] using hle
  · rw [stored_fragments, List.length_append, List.length_singleton]
    change u32 ((r.touch _ _ _ _).fragmentCount + 1) = _
    rw [touch_fragmentCount, h.count (hret ▸ hr), u32, u32, u32, Nat.mod_add_mod]
  · rw [stored_fragments, highestEnd_append]
    change max (r.touch _ _ _ _).coveredHigh f.endBytes = _
    rw [touch_coveredHigh, h.high (hret ▸ hr)]

theorem Counted.absorb (h : Counted cfg r) : Counted cfg (r.absorb σ cfg f).1 := by
  rcases absorb_cases σ cfg r f with ⟨-, he⟩ | ⟨hle, ⟨-, he⟩ | ⟨-, he⟩ | ⟨parts, -, he⟩⟩
  · rw [he]
    refine ⟨?_, fun hr => ?_, fun hr => ?_⟩
    · rw [touch_storedBytes]
      exact h.stored_le
    · rw [touch_fragmentCount, touch_fragments]
      exact h.count (by rwa [touch_retired] at hr)
    · rw [touch_coveredHigh, touch_fragments]
      exact h.high (by rwa [touch_retired] at hr)
  · rw [he]
    exact h.stored hle
  · rw [he]
    exact ⟨(h.stored hle).stored_le, (h.stored hle).count, (h.stored hle).high⟩
  · rw [he]
    exact ⟨(h.stored hle).stored_le, (h.stored hle).count, (h.stored hle).high⟩

end Reassembly

namespace ReassemblyTable

variable {Key : Type} [DecidableEq Key] {σ : ComparisonSort} {cfg : Config}
variable {t : ReassemblyTable Key} {key : Key} {f : FragmentSpan} {id now pid : ℕ}
variable {s : Slot Key}

/-! ## The number of datagrams opened, and of entries -/

theorem opened_addFragment_of_slot (hs : t.slot key f.packetId = some s) :
    (t.addFragment σ key f).1.opened = s.table.opened := by
  rw [addFragment_of_slot hs]
  split <;> rfl

theorem opened_le_addFragment : t.opened ≤ (t.addFragment σ key f).1.opened := by
  rcases hs : t.slot key f.packetId with - | s
  · rw [addFragment_of_none hs]
  · rw [opened_addFragment_of_slot hs]
    rcases slot_cases hs with ⟨-, ht⟩ | ⟨-, -, ht, -⟩
    · rw [ht]
    · rw [ht]; exact Nat.le_succ _

@[simp] theorem opened_retire : (t.retire id).1.opened = t.opened := by
  rcases retire_cases t id with he | ⟨r, -, -, -, he⟩
  · rw [he]
  · rw [he]; rfl

theorem opened_le_step (op : Op Key) : t.opened ≤ (t.step σ op).opened := by
  cases op with
  | addFragment key f => exact opened_le_addFragment
  | retire id => exact opened_retire.ge
  | evictStale now => exact le_refl _

theorem opened_le_run (t : ReassemblyTable Key) (ops : List (Op Key)) :
    t.opened ≤ (Run.after (step σ) t ops).opened :=
  Run.inv_of_forall (I := fun u : ReassemblyTable Key => t.opened ≤ u.opened) (Q := fun _ => True)
    (fun _ op h _ => le_trans h (opened_le_step op)) (le_refl _) fun _ _ => trivial

theorem size_addFragment_of_slot (hs : t.slot key f.packetId = some s) :
    (t.addFragment σ key f).1.byId.size = s.table.byId.size := by
  rw [addFragment_of_slot hs]
  split <;> exact Assoc.size_modify

theorem size_addFragment_le (h : t.byId.size ≤ t.cfg.maxConcurrent) :
    (t.addFragment σ key f).1.byId.size ≤ t.cfg.maxConcurrent := by
  rcases hs : t.slot key f.packetId with - | s
  · rwa [addFragment_of_none hs]
  rw [size_addFragment_of_slot hs]
  rcases slot_cases hs with ⟨-, ht⟩ | ⟨-, hlt, ht, -⟩
  · rwa [ht]
  · rw [ht]
    exact le_trans Assoc.size_emplace_le hlt

theorem size_step_le (op : Op Key) (h : t.byId.size ≤ t.cfg.maxConcurrent) :
    (t.step σ op).byId.size ≤ t.cfg.maxConcurrent := by
  cases op with
  | addFragment key f => exact size_addFragment_le h
  | retire id =>
    rcases retire_cases t id with he | ⟨r, -, -, -, he⟩
    · rw [step, he]; exact h
    · rw [step, he]; exact le_of_eq_of_le Assoc.size_modify h
  | evictStale now => exact le_trans Assoc.size_filter_le h

/-! ## The index -/

/-- The two maps agree: the keys name exactly the open entries, one key
each. -/
structure Keyed (t : ReassemblyTable Key) : Prop where
  injective : ∀ k k' id, t.keyToId.find? k = some id → t.keyToId.find? k' = some id → k = k'
  image : ∀ id, (∃ k, t.keyToId.find? k = some id) ↔
    ∃ r, t.byId.find? id = some r ∧ r.completed = false

/-- A datagram opened under `key` would get an id no entry has. -/
def Fresh (t : ReassemblyTable Key) (key : Key) : Prop :=
  t.keyToId.find? key = none → t.byId.find? t.nextId = none

theorem keyed_init : Keyed (init cfg : ReassemblyTable Key) := ⟨by simp [init], by simp [init]⟩

/-- The entry of a slot: the one open under its key, or a new one. -/
theorem slot_fresh (hfresh : t.Fresh key) (hs : t.slot key pid = some s) :
    (t.keyToId.find? key = some s.id ∧ t.byId.find? s.id = some s.entry) ∨
    (t.keyToId.find? key = none ∧ t.byId.find? s.id = none ∧
      s.entry = { datagramId := s.id, firstPacketId := pid }) := by
  rcases slot_cases hs with ⟨hid, ht⟩ | ⟨hkey, -, -, hid⟩
  · exact .inl ⟨hid, ht ▸ find?_entry s⟩
  rcases slot_entry hs with hold | hnew
  · rw [hid, hfresh hkey] at hold
    cases hold
  · exact .inr ⟨hkey, hnew⟩

theorem Keyed.slot (h : Keyed t) (hfresh : t.Fresh key) (hs : t.slot key pid = some s) :
    s.entry.completed = false ∧ ∀ k, t.keyToId.find? k = some s.id → k = key := by
  rcases slot_fresh hfresh hs with ⟨hid, hfind⟩ | ⟨-, hnone, hnew⟩
  · obtain ⟨r, hr, hopen⟩ := (h.image s.id).1 ⟨key, hid⟩
    rw [hfind, Option.some.injEq] at hr
    exact ⟨hr ▸ hopen, fun k hk => h.injective k key s.id hk hid⟩
  refine ⟨by rw [hnew], fun k hk => ?_⟩
  have hsome := t.indexed k s.id hk
  rw [hnone] at hsome
  cases hsome

/-- **A fragment keeps the maps in agreement.** -/
theorem Keyed.addFragment (h : Keyed t) (hfresh : t.Fresh key) :
    Keyed (t.addFragment σ key f).1 := by
  rcases hs : t.slot key f.packetId with - | s
  · rwa [addFragment_of_none hs]
  obtain ⟨hopen, honly⟩ := h.slot hfresh hs
  have hdone : (s.entry.absorb σ t.cfg f).1.completed = (s.entry.absorb σ t.cfg f).2.completed := by
    rw [Reassembly.absorb_completed, hopen, Bool.false_or]
  refine ⟨fun k k' id hk hk' => ?_, fun id => ?_⟩
  · rw [keyToId_addFragment_of_slot hs] at hk hk'
    -- the key of the fragment names `s.id` or nothing, every other key what it named before
    have hself : ∀ k, k ≠ key → t.keyToId.find? k ≠ some s.id := fun k hne he => hne (honly k he)
    by_cases hc : (s.entry.absorb σ t.cfg f).2.completed = true
    · split at hk
      · cases hk
      · split at hk'
        · cases hk'
        · exact h.injective k k' id hk hk'
    split at hk
    · rename_i hkk
      split at hk'
      · rename_i hkk'
        rw [hkk, hkk']
      · rename_i hkk'
        exact absurd (hk'.trans hk.symm) (hself k' hkk')
    · rename_i hkk
      split at hk'
      · exact absurd (hk.trans hk'.symm) (hself k hkk)
      · exact h.injective k k' id hk hk'
  · rw [find?_addFragment_of_slot hs]
    by_cases hid : id = s.id
    · subst hid
      rw [if_pos rfl]
      constructor
      · rintro ⟨k, hk⟩
        rw [keyToId_addFragment_of_slot hs] at hk
        refine ⟨_, rfl, ?_⟩
        rw [hdone]
        split at hk
        · split at hk
          · cases hk
          · rename_i hc
            simpa using hc
        · rename_i hkk
          exact absurd (honly k hk) hkk
      · rintro ⟨r, hr, hc⟩
        cases hr
        refine ⟨key, ?_⟩
        rw [keyToId_addFragment_of_slot hs, if_pos rfl, ← hdone, hc]
        rfl
    · rw [if_neg hid, ← h.image id]
      constructor
      · rintro ⟨k, hk⟩
        rw [keyToId_addFragment_of_slot hs] at hk
        split at hk
        · split at hk
          · cases hk
          · cases hk
            exact absurd rfl hid
        · exact ⟨k, hk⟩
      · rintro ⟨k, hk⟩
        refine ⟨k, ?_⟩
        rw [keyToId_addFragment_of_slot hs, if_neg]
        · exact hk
        · rintro rfl
          rcases slot_cases hs with ⟨hkey, -⟩ | ⟨hkey, -⟩
          · rw [hkey] at hk
            cases hk
            exact hid rfl
          · rw [hkey] at hk
            cases hk

theorem Keyed.retire (h : Keyed t) (id : ℕ) : Keyed (t.retire id).1 := by
  rcases retire_cases t id with he | ⟨r₀, hr₀, hc, -, he⟩
  · rwa [he]
  rw [he]
  have hfind : ∀ id', (t.store id r₀.retiredEntry).byId.find? id' =
      if id' = id then some r₀.retiredEntry else t.byId.find? id' := by
    intro id'
    change (t.byId.modify id fun _ => r₀.retiredEntry).find? id' = _
    rw [Assoc.find?_modify, hr₀]
    rfl
  refine ⟨h.injective, fun id' => ?_⟩
  · refine (h.image id').trans ?_
    rw [hfind]
    split
    · rename_i hid
      rw [hid, hr₀]
      constructor
      · rintro ⟨r, hr, ho⟩
        cases hr
        rw [hc] at ho
        cases ho
      · rintro ⟨r, hr, ho⟩
        cases hr
        rw [show r₀.retiredEntry.completed = r₀.completed from rfl, hc] at ho
        cases ho
    · rfl

theorem Keyed.evictStale (h : Keyed t) (now : ℕ) : Keyed (t.evictStale now).1 := by
  refine ⟨fun k k' id hk hk' => ?_, fun id => ?_⟩
  · exact h.injective k k' id (keyToId_evictStale.1 hk).1 (keyToId_evictStale.1 hk').1
  · constructor
    · rintro ⟨k, hk⟩
      obtain ⟨hk, hfresh⟩ := keyToId_evictStale.1 hk
      obtain ⟨r, hr, ho⟩ := (h.image id).1 ⟨k, hk⟩
      exact ⟨r, find?_evictStale.2 ⟨hr, hfresh r hr⟩, ho⟩
    · rintro ⟨r, hr, ho⟩
      obtain ⟨hr, hfresh⟩ := find?_evictStale.1 hr
      obtain ⟨k, hk⟩ := (h.image id).2 ⟨r, hr, ho⟩
      refine ⟨k, keyToId_evictStale.2 ⟨hk, fun r' hr' => ?_⟩⟩
      rw [hr] at hr'
      cases hr'
      exact hfresh

/-! ## Ids -/

/-- Entries carry ids already given out. -/
def IdsGiven (t : ReassemblyTable Key) : Prop :=
  ∀ id r, t.byId.find? id = some r → 1 ≤ id ∧ id ≤ t.opened

theorem IdsGiven.nextId (h : t.IdsGiven) (ho : t.opened + 1 < 2 ^ 32) :
    t.nextId = t.opened + 1 ∧ t.byId.find? t.nextId = none := by
  have hid : t.nextId = t.opened + 1 := u32_of_lt ho
  refine ⟨hid, ?_⟩
  rcases hfind : t.byId.find? t.nextId with - | r
  · rfl
  · have := (h _ r hfind).2
    omega

theorem IdsGiven.slot (h : t.IdsGiven) (hs : t.slot key pid = some s)
    (ho : s.table.opened < 2 ^ 32) : 1 ≤ s.id ∧ s.id ≤ s.table.opened := by
  rcases slot_cases hs with ⟨-, ht⟩ | ⟨-, -, ht, hid⟩
  · have hfind := find?_entry s
    rw [ht] at hfind ⊢
    exact h _ _ hfind
  · have hop : s.table.opened = t.opened + 1 := by rw [ht]; rfl
    have := (h.nextId (by omega)).1
    omega

theorem IdsGiven.step (h : t.IdsGiven) (op : Op Key) (ho : (t.step σ op).opened < 2 ^ 32) :
    (t.step σ op).IdsGiven := by
  intro id r hr
  cases op with
  | addFragment key f =>
    rcases hs : t.slot key f.packetId with - | s
    · rw [ReassemblyTable.step, addFragment_of_none hs] at hr ⊢
      exact h id r hr
    have hop := opened_addFragment_of_slot (σ := σ) hs
    have hmono : t.opened ≤ (t.addFragment σ key f).1.opened := opened_le_addFragment
    change (t.addFragment σ key f).1.opened < 2 ^ 32 at ho
    rw [ReassemblyTable.step, find?_addFragment_of_slot hs] at hr
    change 1 ≤ id ∧ id ≤ (t.addFragment σ key f).1.opened
    split at hr
    · have := h.slot hs (by omega)
      omega
    · have := h id r hr
      omega
  | retire d =>
    change 1 ≤ id ∧ id ≤ (t.retire d).1.opened
    rw [opened_retire]
    rcases find?_retire hr with hold | ⟨r₀, hr₀, -, -⟩
    · exact h id r hold
    · exact h id r₀ hr₀
  | evictStale now => exact h id r (find?_evictStale.1 hr).1

/-- The two maps of a table whose ids have not come round. -/
structure Indexed (t : ReassemblyTable Key) : Prop where
  keyed : Keyed t
  given : t.IdsGiven

theorem indexed_init : Indexed (init cfg : ReassemblyTable Key) :=
  ⟨keyed_init, fun id r hr => by simp [init] at hr⟩

/-- A fragment that leaves the ids short of coming round found a fresh
one. -/
theorem Indexed.fresh (h : Indexed t) (hs : t.slot key pid = some s)
    (ho : s.table.opened < 2 ^ 32) : t.Fresh key := by
  intro hkey
  rcases slot_cases hs with ⟨hid, -⟩ | ⟨-, -, ht, -⟩
  · rw [hkey] at hid
    cases hid
  · have hop : s.table.opened = t.opened + 1 := by rw [ht]; rfl
    exact (h.given.nextId (by omega)).2

/-- A fragment that leaves the ids short of coming round goes to an open
entry. -/
theorem Indexed.slot_open (h : Indexed t) (ho : (t.addFragment σ key f).1.opened < 2 ^ 32) :
    ∀ s, t.slot key f.packetId = some s → s.entry.completed = false := by
  intro s hs
  rw [opened_addFragment_of_slot hs] at ho
  exact (h.keyed.slot (h.fresh hs ho) hs).1

theorem Indexed.step (h : Indexed t) (op : Op Key) (ho : (t.step σ op).opened < 2 ^ 32) :
    Indexed (t.step σ op) := by
  refine ⟨?_, h.given.step op ho⟩
  cases op with
  | addFragment key f =>
    rcases hs : t.slot key f.packetId with - | s
    · rw [ReassemblyTable.step, addFragment_of_none hs]
      exact h.keyed
    · refine h.keyed.addFragment (h.fresh hs ?_)
      rw [← opened_addFragment_of_slot (σ := σ) hs]
      exact ho
  | retire id => exact h.keyed.retire id
  | evictStale now => exact h.keyed.evictStale now

/-- **Runs keep the maps in agreement**, until ids come round again. -/
theorem indexed_after {ops : List (Op Key)} (ho : (after σ cfg ops).opened < 2 ^ 32) :
    Indexed (after σ cfg ops) := by
  refine Run.inv_of_forall (I := fun t : ReassemblyTable Key => t.opened < 2 ^ 32 → Indexed t)
    (Q := fun _ => True) (fun t op hI _ hlt => ?_) (fun _ => indexed_init) (fun _ _ => trivial) ho
  have := opened_le_step (σ := σ) (t := t) op
  exact (hI (by omega)).step op hlt

theorem along_indexed {ops : List (Op Key)} (ho : (after σ cfg ops).opened < 2 ^ 32) :
    Run.Along (step σ) (fun t op => Indexed t ∧ (t.step σ op).opened < 2 ^ 32) (init cfg) ops := by
  refine Run.along_iff_split.2 ?_
  rintro pre op post rfl
  rw [after_append_cons] at ho
  have hstep := lt_of_le_of_lt (opened_le_run _ post) ho
  exact ⟨indexed_after (lt_of_le_of_lt (opened_le_step op) hstep), hstep⟩

section

variable (σ : ComparisonSort) (cfg : Config) (ops : List (Op Key))

theorem size_after_le : (after σ cfg ops).byId.size ≤ cfg.maxConcurrent := by
  have hrun : (after σ cfg ops).byId.size ≤ (after σ cfg ops).cfg.maxConcurrent := by
    refine Run.inv_of_forall (I := fun t : ReassemblyTable Key =>
      t.byId.size ≤ t.cfg.maxConcurrent) (Q := fun _ => True) (fun t op hle _ => ?_)
      (Nat.zero_le _) fun _ _ => trivial
    rw [cfg_step]
    exact size_step_le op hle
  rwa [cfg_after] at hrun

theorem counted_after : ∀ id r, (after σ cfg ops).byId.find? id = some r → r.Counted cfg :=
  entry_inv (P := fun r => r.Counted cfg) (Q := fun _ => True)
    (fun id pid => Reassembly.counted_new id pid) (fun _ _ h _ => h.absorb)
    (fun _ h => h.retiredEntry) fun _ _ _ => trivial

end

/-- **The table's index is consistent** after any run that has opened
fewer than `2 ^ 32` datagrams: `key_to_id_` is injective onto the open
entries of `by_id_`, the limits of the configuration hold, and until its
retirement an entry counts its fragments and their highest end, in 32
bits — exactly so for fewer than `2 ^ 32` fragments ending below
`2 ^ 32`. -/
theorem index_consistent (σ : ComparisonSort) (cfg : Config) (ops : List (Op Key))
    (ho : (after σ cfg ops).opened < 2 ^ 32) :
    (∀ k k' id, (after σ cfg ops).keyToId.find? k = some id →
      (after σ cfg ops).keyToId.find? k' = some id → k = k') ∧
    (∀ id, (∃ k, (after σ cfg ops).keyToId.find? k = some id) ↔
      ∃ r, (after σ cfg ops).byId.find? id = some r ∧ r.completed = false) ∧
    (after σ cfg ops).byId.size ≤ cfg.maxConcurrent ∧
    ∀ id r, (after σ cfg ops).byId.find? id = some r → r.storedBytes ≤ cfg.maxDatagramBytes ∧
      (r.retired = false → r.fragmentCount = u32 r.fragments.length ∧
        (r.fragments.length < 2 ^ 32 → r.fragmentCount = r.fragments.length) ∧
        r.coveredHigh = Reassembly.highestEnd r.fragments ∧
        ((∀ f ∈ r.fragments, f.Fits) → r.coveredHigh = Reassembly.exactEnd r.fragments)) := by
  have hidx := indexed_after ho
  refine ⟨hidx.keyed.injective, hidx.keyed.image, size_after_le σ cfg ops, fun id r hr => ?_⟩
  have hcnt := counted_after σ cfg ops id r hr
  refine ⟨hcnt.stored_le, fun hret => ⟨hcnt.count hret, fun hlt => ?_, hcnt.high hret,
    fun hfit => ?_⟩⟩
  · rw [hcnt.count hret, u32_of_lt hlt]
  · rw [hcnt.high hret, Reassembly.highestEnd_eq_exactEnd hfit]

/-- Two datagrams that stay open and one that completes between them, and then
the first is evicted. -/
def evictingRun : List (Op ℕ) :=
  [.addFragment 7 ⟨0, 0, true, [1], 5⟩, .addFragment 8 ⟨0, 40, false, [2], 6⟩,
    .addFragment 9 ⟨0, 41, true, [3], 7⟩, .evictStale 41]

theorem index_consistent_evictingRun : let t : ReassemblyTable ℕ := after .insertion {} evictingRun
    (t.opened = 3 ∧ t.byId.size = 2 ∧ t.keyToId.find? 7 = none ∧ t.keyToId.find? 8 = none) ∧
    (∀ k id, t.keyToId.find? 9 = some id → t.keyToId.find? k = some id → 9 = k) ∧
    (∀ id, (∃ k, t.keyToId.find? k = some id) ↔
      ∃ r, t.byId.find? id = some r ∧ r.completed = false) ∧ t.byId.size ≤ 4096 ∧
    ∀ r, t.byId.find? 3 = some r → r.storedBytes ≤ 65536 ∧
      (r.retired = false → r.coveredHigh = Reassembly.highestEnd r.fragments) := by
  obtain ⟨hkeys, hids, hsize, hentries⟩ := index_consistent .insertion {} evictingRun (by decide)
  refine ⟨by decide, fun k id => hkeys 9 k id, hids, hsize, fun r hr => ?_⟩
  obtain ⟨hstored, hcounts⟩ := hentries 3 r hr
  exact ⟨hstored, fun hret => (hcounts hret).2.2.1⟩

/-! ## Where the counters come round -/

/-- The key of the runs below. -/
def wrapKey : Ipv4Key := ⟨[10, 0, 0, 1], [10, 0, 0, 2], 17, 1⟩

/-- An empty fragment, not the last. -/
def emptyFragment : FragmentSpan := ⟨0, 0, true, [], 0⟩

theorem absorb_emptyFragment (σ : ComparisonSort) {r : Reassembly} (hlast : r.haveLast = false)
    (hbytes : r.storedBytes = 0) :
    r.absorb σ {} emptyFragment = (r.stored emptyFragment, { retained := true }) := by
  have hroom : r.storedBytes + emptyFragment.data.length ≤ ({} : Config).maxDatagramBytes := by
    rw [hbytes]
    decide
  refine Reassembly.absorb_of_incomplete hroom ?_
  rw [Reassembly.stitch, if_neg]
  change ¬ (r.touch 0 0 true []).haveLast = true
  simp [hlast]

/-- The table while empty fragments pile up under one key. -/
structure Piled (t : ReassemblyTable Ipv4Key) (n : ℕ) : Prop where
  cfg : t.cfg = {}
  key : t.keyToId.find? wrapKey = some 1
  opened : t.opened = 1
  entry : ∃ r, t.byId.find? 1 = some r ∧ r.retired = false ∧ r.haveLast = false ∧
    r.storedBytes = 0 ∧ r.fragments.length = n

theorem Piled.add {t : ReassemblyTable Ipv4Key} {n : ℕ} (h : Piled t n) (σ : ComparisonSort) :
    Piled (t.addFragment σ wrapKey emptyFragment).1 (n + 1) := by
  obtain ⟨r, hr, hret, hlast, hbytes, hlen⟩ := h.entry
  rcases hs : t.slot wrapKey emptyFragment.packetId with - | s
  · rw [slot_eq_none_iff, h.key] at hs
    cases hs.1
  rcases slot_cases hs with ⟨hid, hst⟩ | ⟨hnone, -⟩
  · -- the key is open, so its entry is the one that takes the fragment
    rw [h.key, Option.some.injEq] at hid
    have hentry : s.entry = r := by
      have hfind := find?_entry s
      rw [hst, ← hid, hr, Option.some.injEq] at hfind
      exact hfind.symm
    have habs := absorb_emptyFragment σ hlast hbytes
    refine ⟨cfg_addFragment.trans h.cfg, ?_, ?_, r.stored emptyFragment, ?_, ?_, ?_, ?_, ?_⟩
    · rw [keyToId_addFragment_of_slot hs, hentry, h.cfg, habs, hid]
      rfl
    · rw [opened_addFragment_of_slot hs, hst, h.opened]
    · rw [find?_addFragment_of_slot hs, if_pos hid, hentry, h.cfg, habs]
    · exact Reassembly.touch_retired.trans hret
    · change (r.touch 0 0 true []).haveLast = false
      simp [hlast]
    · rw [← hbytes]
      simp [Reassembly.storedBytes, emptyFragment]
    · rw [Reassembly.stored_fragments, List.length_append, hlen]
      rfl
  · rw [h.key] at hnone
    cases hnone

theorem piled_after_replicate (σ : ComparisonSort) (n : ℕ) :
    Piled (after σ {} (List.replicate (n + 1) (Op.addFragment wrapKey emptyFragment))) (n + 1) := by
  induction n with
  | zero => exact ⟨rfl, rfl, rfl, _, rfl, rfl, rfl, rfl, rfl⟩
  | succ n ih =>
    rw [List.replicate_succ', after, Run.after_append]
    exact ih.add σ

/-- **The counters are 32 bits wide.** A fragment ending at `2 ^ 32 + 1`
leaves a high mark of 1, and `2 ^ 32` empty fragments a count of 0. -/
theorem counters_wrap :
    (∃ r, (after .insertion {}
          [Op.addFragment wrapKey ⟨2 ^ 32 - 1, 0, true, [0, 0], 0⟩]).byId.find? 1
        = some r ∧ r.retired = false ∧ r.coveredHigh = 1 ∧
      Reassembly.exactEnd r.fragments = 2 ^ 32 + 1) ∧
    (after .insertion {} (List.replicate (2 ^ 32) (Op.addFragment wrapKey emptyFragment))).opened
      = 1 ∧
    ∃ r, (after .insertion {}
        (List.replicate (2 ^ 32) (Op.addFragment wrapKey emptyFragment))).byId.find? 1 = some r ∧
      r.retired = false ∧ r.fragmentCount = 0 ∧ r.fragments.length = 2 ^ 32 := by
  refine ⟨⟨_, rfl, rfl, by decide, by decide⟩, ?_⟩
  obtain ⟨-, -, hop, r, hr, hret, -, -, hlen⟩ := piled_after_replicate .insertion (2 ^ 32 - 1)
  refine ⟨hop, r, hr, hret, ?_, hlen⟩
  rw [(counted_after _ _ _ 1 r hr).count hret, hlen]
  decide

end ReassemblyTable

end Nanom.Defrag
