import Nanom.Common.Run
import Nanom.Defrag.Helpers.Stitch
/-!
# Fragment reassembly — runs of the table

A run is any list of `add_fragment`, `retire` and `evict_stale` calls on
one table. This file says once what each of the three does: to the entry
it touches (`absorb_cases`), and to the two maps (`slot_cases`,
`find?_addFragment`, `find?_retire`, `find?_evictStale`). An entry's own
invariants are carried over a run by `entry_inv`.
-/

namespace Nanom.Defrag

open Assoc

open Option

variable {cfg : Config}

/-- A call on a table. -/
inductive Op (Key : Type)
  | addFragment (key : Key) (f : FragmentSpan)
  | retire (id : ℕ)
  | evictStale (now : ℕ)

/-! ## What a fragment does to its entry -/

namespace Reassembly

variable {σ : ComparisonSort} {cfg : Config} {r : Reassembly} {f : FragmentSpan}

/-- The entry once `f` has been stored in it. -/
abbrev stored (r : Reassembly) (f : FragmentSpan) : Reassembly :=
  (r.touch f.packetId f.offsetBytes f.moreFragments f.data).push f

section Touch

variable {pid off : ℕ} {more : Bool} {payload : Bytes}

@[simp] theorem touch_fragments : (r.touch pid off more payload).fragments = r.fragments := by
  unfold touch; split <;> rfl

@[simp] theorem touch_completed : (r.touch pid off more payload).completed = r.completed := by
  unfold touch; split <;> rfl

@[simp] theorem touch_retired : (r.touch pid off more payload).retired = r.retired := by
  unfold touch; split <;> rfl

@[simp] theorem touch_lastPacketId : (r.touch pid off more payload).lastPacketId = pid := by
  unfold touch; split <;> rfl

@[simp] theorem touch_conflict : (r.touch pid off more payload).conflict = r.conflict := by
  unfold touch; split <;> rfl

@[simp] theorem touch_datagramId : (r.touch pid off more payload).datagramId = r.datagramId := by
  unfold touch; split <;> rfl

@[simp] theorem touch_fragmentCount :
    (r.touch pid off more payload).fragmentCount = r.fragmentCount := by
  unfold touch; split <;> rfl

@[simp] theorem touch_coveredHigh : (r.touch pid off more payload).coveredHigh = r.coveredHigh := by
  unfold touch; split <;> rfl

@[simp] theorem touch_storedBytes : (r.touch pid off more payload).storedBytes = r.storedBytes := by
  simp [storedBytes]

@[simp] theorem touch_haveLast :
    (r.touch pid off more payload).haveLast = (r.haveLast || !more) := by
  unfold touch; cases more <;> simp

theorem touch_totalLength : (r.touch pid off more payload).totalLength =
    if more then r.totalLength else u32 (off + u32 payload.length) := by
  unfold touch; cases more <;> rfl

end Touch

@[simp] theorem stored_fragments : (r.stored f).fragments = r.fragments ++ [f] := by
  change (r.touch _ _ _ _).fragments ++ [f] = _
  rw [touch_fragments]

/-- **What a fragment does to its entry**: it is dropped, or stored with
the datagram left open, or stored where two fragments disagree, or it
completes the datagram. -/
theorem absorb_cases (σ : ComparisonSort) (cfg : Config) (r : Reassembly) (f : FragmentSpan) :
    (cfg.maxDatagramBytes < r.storedBytes + f.data.length ∧
      r.absorb σ cfg f = (r.touch f.packetId f.offsetBytes f.moreFragments f.data, {})) ∨
    (r.storedBytes + f.data.length ≤ cfg.maxDatagramBytes ∧ ((r.stored f).stitch σ = .incomplete ∧
        r.absorb σ cfg f = (r.stored f, { retained := true }) ∨
      (r.stored f).stitch σ = .conflict ∧
        r.absorb σ cfg f = ({ r.stored f with conflict := true }, { retained := true }) ∨
      ∃ parts, (r.stored f).stitch σ = .complete parts ∧
        r.absorb σ cfg f = ({ r.stored f with parts := parts, completed := true },
          { completed := true, retained := true, parts := parts }))) := by
  unfold absorb
  simp only [touch_storedBytes]
  by_cases hover : r.storedBytes + f.data.length > cfg.maxDatagramBytes
  · exact .inl ⟨hover, if_pos hover⟩
  refine .inr ⟨by omega, ?_⟩
  rw [if_neg hover]
  unfold tryComplete
  rcases hst : (r.stored f).stitch σ with - | - | parts
  · exact .inl ⟨rfl, rfl⟩
  · exact .inr (.inl ⟨rfl, rfl⟩)
  · exact .inr (.inr ⟨parts, rfl, rfl⟩)

section

variable (hroom : r.storedBytes + f.data.length ≤ cfg.maxDatagramBytes)
include hroom

theorem absorb_of_incomplete (hst : (r.stored f).stitch σ = .incomplete) :
    r.absorb σ cfg f = (r.stored f, { retained := true }) := by
  rcases absorb_cases σ cfg r f with ⟨hover, -⟩ | ⟨-, ⟨-, he⟩ | ⟨he, -⟩ | ⟨parts, he, -⟩⟩
  · omega
  · exact he
  · rw [hst] at he
    cases he
  · rw [hst] at he
    cases he

theorem absorb_of_complete
    {parts : List Bytes} (hst : (r.stored f).stitch σ = .complete parts) :
    r.absorb σ cfg f = ({ r.stored f with parts := parts, completed := true },
      { completed := true, retained := true, parts := parts }) := by
  rcases absorb_cases σ cfg r f with ⟨hover, -⟩ | ⟨-, ⟨he, -⟩ | ⟨he, -⟩ | ⟨parts', hst', he⟩⟩
  · omega
  · rw [hst] at he
    cases he
  · rw [hst] at he
    cases he
  · rw [hst, Assembly.complete.injEq] at hst'
    rw [he, hst']

end

theorem absorb_of_not_retained (h : (r.absorb σ cfg f).2.retained = false) :
    cfg.maxDatagramBytes < r.storedBytes + f.data.length ∧
      r.absorb σ cfg f = (r.touch f.packetId f.offsetBytes f.moreFragments f.data, {}) := by
  rcases absorb_cases σ cfg r f with hdrop | ⟨-, ⟨-, he⟩ | ⟨-, he⟩ | ⟨parts, -, he⟩⟩
  · exact hdrop
  · rw [he] at h
    cases h
  · rw [he] at h
    cases h
  · rw [he] at h
    cases h

/-- A fragment that was retained was pushed; one that was not, was not. -/
theorem absorb_fragments : (r.absorb σ cfg f).1.fragments =
    if (r.absorb σ cfg f).2.retained then r.fragments ++ [f] else r.fragments := by
  rcases absorb_cases σ cfg r f with ⟨-, h⟩ | ⟨-, ⟨-, h⟩ | ⟨-, h⟩ | ⟨parts, -, h⟩⟩ <;>
    simp [h, push]

theorem absorb_completed :
    (r.absorb σ cfg f).1.completed = (r.completed || (r.absorb σ cfg f).2.completed) := by
  rcases absorb_cases σ cfg r f with ⟨-, h⟩ | ⟨-, ⟨-, h⟩ | ⟨-, h⟩ | ⟨parts, -, h⟩⟩ <;>
    simp [h, push]

@[simp] theorem absorb_retired : (r.absorb σ cfg f).1.retired = r.retired := by
  rcases absorb_cases σ cfg r f with ⟨-, h⟩ | ⟨-, ⟨-, h⟩ | ⟨-, h⟩ | ⟨parts, -, h⟩⟩ <;>
    simp [h, push]

@[simp] theorem absorb_lastPacketId : (r.absorb σ cfg f).1.lastPacketId = f.packetId := by
  rcases absorb_cases σ cfg r f with ⟨-, h⟩ | ⟨-, ⟨-, h⟩ | ⟨-, h⟩ | ⟨parts, -, h⟩⟩ <;>
    simp [h, push]

@[simp] theorem absorb_datagramId : (r.absorb σ cfg f).1.datagramId = r.datagramId := by
  rcases absorb_cases σ cfg r f with ⟨-, h⟩ | ⟨-, ⟨-, h⟩ | ⟨-, h⟩ | ⟨parts, -, h⟩⟩ <;>
    simp [h, push]

/-- The entry of a retired datagram. -/
def retiredEntry (r : Reassembly) : Reassembly :=
  { r with fragments := [], parts := [], retired := true }

end Reassembly

namespace ReassemblyTable

variable {Key : Type} [DecidableEq Key] {σ : ComparisonSort} {t : ReassemblyTable Key}
variable {key k : Key} {f : FragmentSpan} {id now pid : ℕ} {r : Reassembly} {s : Slot Key}

/-- The table after one call. -/
def step (σ : ComparisonSort) (t : ReassemblyTable Key) : Op Key → ReassemblyTable Key
  | .addFragment key f => (t.addFragment σ key f).1
  | .retire id => (t.retire id).1
  | .evictStale now => (t.evictStale now).1

/-- The table after a run from the start. -/
abbrev after (σ : ComparisonSort) (cfg : Config) (ops : List (Op Key)) : ReassemblyTable Key :=
  Run.after (step σ) (init cfg) ops

theorem after_append_cons (pre : List (Op Key)) (op : Op Key) (post : List (Op Key)) :
    after σ cfg (pre ++ op :: post) = Run.after (step σ) ((after σ cfg pre).step σ op) post := by
  rw [after, Run.after_append, Run.after_cons]

/-! ## The entry a fragment goes to -/

theorem find?_entry (s : Slot Key) : s.table.byId.find? s.id = some s.entry := find?_get s.found

theorem slot_cases (h : t.slot key pid = some s) :
    (t.keyToId.find? key = some s.id ∧ s.table = t) ∨
    (t.keyToId.find? key = none ∧ t.byId.size < t.cfg.maxConcurrent ∧
      s.table = t.create key pid ∧ s.id = t.nextId) := by
  unfold slot at h
  split at h
  · rename_i id hid
    cases h
    exact .inl ⟨hid, rfl⟩
  rename_i hnone
  split at h
  · cases h
  · cases h
    exact .inr ⟨hnone, by omega, rfl, rfl⟩

theorem slot_eq_none_iff : t.slot key pid = none ↔
    t.keyToId.find? key = none ∧ t.cfg.maxConcurrent ≤ t.byId.size := by
  unfold slot
  split
  · rename_i id hid
    simp [hid]
  rename_i hnone
  split
  · rename_i hcap
    exact ⟨fun _ => ⟨hnone, hcap⟩, fun _ => rfl⟩
  · rename_i hcap
    simp [hcap]

section

variable (h : t.slot key pid = some s)
include h

theorem slot_entry : t.byId.find? s.id = some s.entry ∨
    t.byId.find? s.id = none ∧ s.entry = { datagramId := s.id, firstPacketId := pid } := by
  have hfind := find?_entry s
  rcases slot_cases h with ⟨-, ht⟩ | ⟨-, -, ht, hid⟩
  · rw [ht] at hfind
    exact .inl hfind
  rw [ht, create, find?_emplace, if_pos hid] at hfind
  cases hold : t.byId.find? t.nextId with
  | none =>
    rw [hold, getD_none, some.injEq] at hfind
    exact .inr ⟨by rw [hid, hold], by rw [← hfind, hid]⟩
  | some r =>
    rw [hold, getD_some] at hfind
    exact .inl (by rw [hid, hold, hfind])

theorem slot_find?_of_ne (hne : id ≠ s.id) : s.table.byId.find? id = t.byId.find? id := by
  rcases slot_cases h with ⟨-, ht⟩ | ⟨-, -, ht, hid⟩
  · rw [ht]
  · rw [ht, create, find?_emplace, if_neg (by rwa [← hid])]

@[simp] theorem slot_cfg : s.table.cfg = t.cfg := by
  rcases slot_cases h with ⟨-, ht⟩ | ⟨-, -, ht, -⟩
  · rw [ht]
  · rw [ht]; rfl

end

/-! ## The three calls, on the two maps -/

theorem addFragment_of_none (h : t.slot key f.packetId = none) :
    t.addFragment σ key f = (t, {}) := by
  rw [addFragment, h]

section

variable (h : t.slot key f.packetId = some s)
include h

theorem addFragment_of_slot :
    t.addFragment σ key f = (if (s.entry.absorb σ t.cfg f).2.completed
        then (s.table.store s.id (s.entry.absorb σ t.cfg f).1).freeKey key
        else s.table.store s.id (s.entry.absorb σ t.cfg f).1,
      { (s.entry.absorb σ t.cfg f).2 with datagramId := s.id }) := by
  rw [addFragment, h]

theorem find?_addFragment_of_slot :
    (t.addFragment σ key f).1.byId.find? id =
      if id = s.id then some (s.entry.absorb σ t.cfg f).1 else t.byId.find? id := by
  have hstore : (t.addFragment σ key f).1.byId
      = s.table.byId.modify s.id fun _ => (s.entry.absorb σ t.cfg f).1 := by
    rw [addFragment_of_slot h]
    split <;> rfl
  rw [hstore, find?_modify, find?_entry s]
  split
  · rfl
  · rename_i hne; exact slot_find?_of_ne h hne

theorem keyToId_addFragment_of_slot :
    (t.addFragment σ key f).1.keyToId.find? k =
      if k = key then (if (s.entry.absorb σ t.cfg f).2.completed then none else some s.id)
      else t.keyToId.find? k := by
  have hslot : s.table.keyToId.find? k = if k = key then some s.id else t.keyToId.find? k := by
    rcases slot_cases h with ⟨hid, ht⟩ | ⟨hnone, -, ht, hid⟩
    · rw [ht]
      split
      · rename_i hk; rw [hk, hid]
      · rfl
    · rw [ht, create, find?_emplace, hnone, getD_none, hid]
  rw [addFragment_of_slot h]
  by_cases hc : (s.entry.absorb σ t.cfg f).2.completed = true
  · rw [if_pos hc, if_pos hc]
    change (s.table.keyToId.erase key).find? k = _
    rw [find?_erase, hslot]
    split <;> rfl
  · rw [if_neg hc, if_neg hc]
    exact hslot

end

/-- **What a fragment does to the entries.** -/
theorem find?_addFragment (h : (t.addFragment σ key f).1.byId.find? id = some r) :
    t.byId.find? id = some r ∨
    ∃ r₀, (t.byId.find? id = some r₀ ∨ r₀ = { datagramId := id, firstPacketId := f.packetId }) ∧
      r = (r₀.absorb σ t.cfg f).1 := by
  rcases hs : t.slot key f.packetId with - | s
  · rw [addFragment_of_none hs] at h
    exact .inl h
  rw [find?_addFragment_of_slot hs] at h
  split at h
  · rename_i hid
    subst hid
    refine .inr ⟨s.entry, ?_, by simpa using h.symm⟩
    exact (slot_entry hs).imp id And.right
  · exact .inl h

theorem retire_cases (t : ReassemblyTable Key) (id : ℕ) :
    t.retire id = (t, []) ∨
    ∃ r, t.byId.find? id = some r ∧ r.completed = true ∧ r.retired = false ∧
      t.retire id = (t.store id r.retiredEntry, r.fragments.map FragmentSpan.token) := by
  unfold retire
  cases hr : t.byId.find? id with
  | none => exact .inl rfl
  | some r =>
    by_cases hc : r.completed = true ∧ r.retired = false
    · exact .inr ⟨r, rfl, hc.1, hc.2, by simp [hc.1, hc.2, Reassembly.retiredEntry]⟩
    · refine .inl (if_pos ?_)
      cases hcm : r.completed <;> cases hrt : r.retired <;> simp_all

/-- **What a retirement does to the entries.** -/
theorem find?_retire {id' : ℕ} (h : (t.retire id).1.byId.find? id' = some r) :
    t.byId.find? id' = some r ∨
    ∃ r₀, t.byId.find? id' = some r₀ ∧ r₀.completed = true ∧ r = r₀.retiredEntry := by
  rcases retire_cases t id with he | ⟨r₀, hr₀, hc, -, he⟩
  · rw [he] at h
    exact .inl h
  rw [he] at h
  change (t.byId.modify id fun _ => r₀.retiredEntry).find? id' = some r at h
  rw [find?_modify] at h
  split at h
  · rename_i hid
    rw [hr₀, map_some, some.injEq] at h
    exact .inr ⟨r₀, by rw [hid, hr₀], hc, h.symm⟩
  · exact .inl h

/-- **What an eviction does to the entries.** -/
theorem find?_evictStale : (t.evictStale now).1.byId.find? id = some r ↔
    t.byId.find? id = some r ∧ r.agedOut t.cfg now = false := by
  change (t.byId.filter _).find? id = some r ↔ _
  rw [find?_filter, filter_eq_some_iff]
  simp

theorem keyToId_evictStale : (t.evictStale now).1.keyToId.find? k = some id ↔
    t.keyToId.find? k = some id ∧ ∀ r, t.byId.find? id = some r → r.agedOut t.cfg now = false := by
  change (t.keyToId.filter _).find? k = some id ↔ _
  rw [find?_filter, filter_eq_some_iff]
  refine and_congr_right fun _ => ?_
  simp only [Bool.not_eq_true', List.any_eq_false, beq_iff_eq]
  constructor
  · intro h r hr
    by_contra haged
    exact h (id, r) (List.mem_filter.2 ⟨Assoc.mem_entries_iff.2 hr, by simpa using haged⟩) rfl
  · rintro h ⟨id', r⟩ hmem rfl
    obtain ⟨hmem, haged⟩ := List.mem_filter.1 hmem
    rw [h r (Assoc.mem_entries_iff.1 hmem)] at haged
    cases haged

/-! ## Carrying an entry's invariant over a run -/

@[simp] theorem cfg_addFragment : (t.addFragment σ key f).1.cfg = t.cfg := by
  rcases hs : t.slot key f.packetId with - | s
  · rw [addFragment_of_none hs]
  · rw [addFragment_of_slot hs]
    split <;> exact slot_cfg hs

@[simp] theorem cfg_retire : (t.retire id).1.cfg = t.cfg := by
  rcases retire_cases t id with he | ⟨r, -, -, -, he⟩
  · rw [he]
  · rw [he]; rfl

@[simp] theorem cfg_step {op : Op Key} : (t.step σ op).cfg = t.cfg := by
  cases op with
  | addFragment key f => exact cfg_addFragment
  | retire id => exact cfg_retire
  | evictStale now => rfl

theorem cfg_after {ops : List (Op Key)} : (after σ cfg ops).cfg = cfg :=
  Run.inv_of_forall (I := fun t : ReassemblyTable Key => t.cfg = cfg) (Q := fun _ => True)
    (fun _ _ h _ => cfg_step.trans h) rfl fun _ _ => trivial

/-- **The entry rule.** What holds of a new entry and survives a fragment
and a retirement, made under the run's condition on its calls, holds of
every entry the run leaves. -/
theorem entry_inv_along {P : ℕ → Reassembly → Prop} {C : ReassemblyTable Key → Op Key → Prop}
    (hnew : ∀ id pid, P id { datagramId := id, firstPacketId := pid })
    (habsorb : ∀ t key f s, C t (.addFragment key f) → t.slot key f.packetId = some s →
      P s.id s.entry → P s.id (s.entry.absorb σ cfg f).1)
    (hretire : ∀ t d, C t (.retire d) → ∀ id r, r.completed = true → P id r → P id r.retiredEntry)
    {ops : List (Op Key)} (hops : Run.Along (step σ) C (init cfg) ops) :
    ∀ id r, (after σ cfg ops).byId.find? id = some r → P id r := by
  refine (Run.inv (I := fun t : ReassemblyTable Key =>
    t.cfg = cfg ∧ ∀ id r, t.byId.find? id = some r → P id r) ?_ ?_ hops :
      (after σ cfg ops).cfg = cfg ∧ _).2
  · rintro t op ⟨hcfg, hall⟩ hcond
    refine ⟨cfg_step.trans hcfg, fun id r hr => ?_⟩
    cases op with
    | addFragment key f =>
      change (t.addFragment σ key f).1.byId.find? id = some r at hr
      rcases hs : t.slot key f.packetId with - | s
      · rw [addFragment_of_none hs] at hr
        exact hall id r hr
      have hentry : P s.id s.entry := by
        rcases slot_entry hs with hold | ⟨-, hnew'⟩
        · exact hall s.id s.entry hold
        · rw [hnew']
          exact hnew s.id f.packetId
      rw [find?_addFragment_of_slot hs] at hr
      split at hr
      · rename_i hid
        cases hr
        rw [hid, hcfg]
        exact habsorb t key f s hcond hs hentry
      · exact hall id r hr
    | retire d =>
      rcases find?_retire hr with hold | ⟨r₀, hr₀, hc, rfl⟩
      · exact hall id r hold
      · exact hretire t d hcond id r₀ hc (hall id r₀ hr₀)
    | evictStale now => exact hall id r (find?_evictStale.1 hr).1
  · exact ⟨rfl, fun id r hr => by simp [init] at hr⟩

theorem entry_inv {P : Reassembly → Prop} {Q : FragmentSpan → Prop}
    (hnew : ∀ id pid, P { datagramId := id, firstPacketId := pid })
    (habsorb : ∀ r f, P r → Q f → P (r.absorb σ cfg f).1)
    (hretire : ∀ r, P r → P r.retiredEntry) {ops : List (Op Key)}
    (hops : ∀ key f, Op.addFragment key f ∈ ops → Q f) :
    ∀ id r, (after σ cfg ops).byId.find? id = some r → P r := by
  refine entry_inv_along (P := fun _ r => P r)
    (C := fun _ op => ∀ key f, op = Op.addFragment key f → Q f) hnew ?_ ?_ ?_
  · exact fun _ key f s hq _ hr => habsorb s.entry f hr (hq key f rfl)
  · exact fun _ _ _ _ r _ hr => hretire r hr
  · refine Run.along_of_forall fun _ op hop key f he => hops key f ?_
    rwa [← he]

end ReassemblyTable

end Nanom.Defrag
