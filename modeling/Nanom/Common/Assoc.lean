import Mathlib.Data.List.Nodup
import Mathlib.Data.List.Perm.Basic
/-!
# Finite maps as lists without repeated keys

`Assoc α β` is a finite map kept as the list of its entries in the order they
were added, with the keys' distinctness carried as a field. `emplace` adds an
entry and leaves an existing one alone, `modify` rewrites an entry in place,
`filter` drops entries without disturbing the order of the rest. Everything is
read off `find?` (`mem_entries_iff`).
-/

namespace Nanom

open List

/-- A finite map: its entries in insertion order, no key twice. -/
structure Assoc (α β : Type) where
  /-- The entries, oldest first. -/
  entries : List (α × β)
  /-- No key occurs twice. -/
  nodup : (entries.map Prod.fst).Nodup

namespace Assoc

variable {α β γ : Type} [DecidableEq α] {m : Assoc α β} {k k' : α} {v v' : β}
variable {f : β → β} {p : α × β → Bool}

omit [DecidableEq α] in
@[ext] theorem ext {m m' : Assoc α β} (h : m.entries = m'.entries) : m = m' := by
  cases m; cases m'; cases h; rfl

instance [DecidableEq β] : DecidableEq (Assoc α β) := fun m m' =>
  decidable_of_iff (m.entries = m'.entries) ⟨ext, fun h => h ▸ rfl⟩

/-- The map with no entry. -/
def empty : Assoc α β := ⟨[], List.nodup_nil⟩

instance : Inhabited (Assoc α β) := ⟨empty⟩

/-- The value at a key. -/
def find? (m : Assoc α β) (k : α) : Option β :=
  (m.entries.find? fun e => e.1 = k).map Prod.snd

/-- The number of entries. -/
def size (m : Assoc α β) : ℕ := m.entries.length

/-- Rewrite the value at a key in place; no effect where there is none. -/
def modify (m : Assoc α β) (k : α) (f : β → β) : Assoc α β where
  entries := m.entries.map fun e => if e.1 = k then (e.1, f e.2) else e
  nodup := by
    have hkeys : (m.entries.map fun e => if e.1 = k then (e.1, f e.2) else e).map Prod.fst
        = m.entries.map Prod.fst := by
      rw [List.map_map]
      refine map_congr_left fun e _ => ?_
      simp only [Function.comp_apply]
      split <;> rfl
    rw [hkeys]
    exact m.nodup

/-- Keep the entries satisfying a predicate. -/
def filter (m : Assoc α β) (p : α × β → Bool) : Assoc α β where
  entries := m.entries.filter p
  nodup := (List.Sublist.map Prod.fst List.filter_sublist).nodup m.nodup

/-- Drop the entry at a key. -/
def erase (m : Assoc α β) (k : α) : Assoc α β := m.filter fun e => e.1 ≠ k

theorem mem_entries_iff : (k, v) ∈ m.entries ↔ m.find? k = some v := by
  obtain ⟨l, hl⟩ := m
  simp only [find?]
  induction l with
  | nil => simp
  | cons e l ih =>
    simp only [map_cons, nodup_cons] at hl
    by_cases he : e.1 = k
    · subst he
      simp only [mem_cons, find?_cons, decide_true, Option.map_some, Option.some.injEq]
      constructor
      · rintro (h | h)
        · rw [← h]
        · exact absurd (mem_map_of_mem h) hl.1
      · rintro rfl
        exact Or.inl rfl
    · simp only [mem_cons, find?_cons, he, decide_false]
      rw [← ih hl.2]
      constructor
      · rintro (h | h)
        · exact absurd (by rw [← h]) he
        · exact h
      · exact Or.inr

theorem find?_eq_none : m.find? k = none ↔ k ∉ m.entries.map Prod.fst := by
  constructor
  · rintro h hk
    obtain ⟨⟨k', v⟩, he, rfl⟩ := mem_map.1 hk
    rw [mem_entries_iff.1 he] at h
    cases h
  · intro h
    cases hf : m.find? k with
    | none => rfl
    | some v => exact absurd (mem_map_of_mem (mem_entries_iff.2 hf)) h

/-- Add an entry, unless the key already has one. -/
def emplace (m : Assoc α β) (k : α) (v : β) : Assoc α β :=
  if h : m.find? k = none then
    { entries := m.entries ++ [(k, v)]
      nodup := by
        rw [List.map_append, List.nodup_append]
        refine ⟨m.nodup, List.nodup_singleton _, ?_⟩
        rintro a ha b hb rfl
        rw [List.map_singleton, mem_singleton] at hb
        rw [hb] at ha
        exact find?_eq_none.1 h ha }
  else m

/-- The value at a key that has one. -/
def get (m : Assoc α β) (k : α) (h : (m.find? k).isSome) : β := (m.find? k).get h

theorem find?_get (h : (m.find? k).isSome) : m.find? k = some (m.get k h) :=
  (Option.some_get h).symm

@[simp] theorem find?_empty : (empty : Assoc α β).find? k = none := rfl

/-! ## Adding -/

theorem entries_emplace_of_none (h : m.find? k = none) :
    (m.emplace k v).entries = m.entries ++ [(k, v)] := by
  rw [emplace, dif_pos h]

theorem emplace_of_some (h : m.find? k = some v') : m.emplace k v = m := by
  rw [emplace, dif_neg (by rw [h]; simp)]

theorem find?_emplace : (m.emplace k v).find? k' =
    if k' = k then some ((m.find? k).getD v) else m.find? k' := by
  cases h : m.find? k with
  | none =>
    have hk : m.entries.find? (fun e => e.1 = k) = none := by simpa [find?] using h
    simp only [find?, entries_emplace_of_none h]
    by_cases hkk : k' = k
    · subst hkk
      simp [hk]
    · rw [if_neg hkk]
      simp [Ne.symm hkk]
  | some w =>
    rw [emplace_of_some h]
    by_cases hkk : k' = k
    · subst hkk
      simp [h]
    · rw [if_neg hkk]

theorem find?_emplace_isSome : ((m.emplace k v).find? k).isSome := by
  rw [find?_emplace, if_pos rfl]; rfl

theorem size_emplace_of_none (h : m.find? k = none) : (m.emplace k v).size = m.size + 1 := by
  simp [size, entries_emplace_of_none h]

theorem size_emplace_le : (m.emplace k v).size ≤ m.size + 1 := by
  cases h : m.find? k with
  | none => exact Nat.le_of_eq (size_emplace_of_none h)
  | some w => rw [emplace_of_some h]; omega

/-! ## Rewriting in place -/

theorem find?_modify :
    (m.modify k f).find? k' = if k' = k then (m.find? k).map f else m.find? k' := by
  have hp : (fun e : α × β => decide (e.1 = k')) ∘ (fun e => if e.1 = k then (e.1, f e.2) else e)
      = fun e => decide (e.1 = k') := by
    funext e
    simp only [Function.comp_apply]
    split <;> rfl
  simp only [find?, modify, find?_map, hp]
  cases hf : m.entries.find? (fun e => decide (e.1 = k')) with
  | none =>
    by_cases hk : k' = k
    · rw [if_pos hk, ← hk, hf]; rfl
    · rw [if_neg hk]; rfl
  | some e =>
    have he : e.1 = k' := by simpa using find?_some hf
    by_cases hk : k' = k
    · rw [← hk, hf]
      simp [he, hk]
    · simp [he, hk]

@[simp] theorem size_modify : (m.modify k f).size = m.size := by
  simp [size, modify]

theorem modify_isSome : ((m.modify k f).find? k').isSome = (m.find? k').isSome := by
  rw [find?_modify]
  split
  · rename_i h; rw [h]; simp
  · rfl

theorem modify_of_none (h : m.find? k = none) : m.modify k f = m := by
  apply ext
  conv_rhs => rw [← map_id m.entries]
  refine map_congr_left fun e he => ?_
  have hne : e.1 ≠ k := fun hk => find?_eq_none.1 h (hk ▸ mem_map_of_mem he)
  rw [if_neg hne, id]

/-- A rewrite is what it does to the value that is there. -/
theorem modify_congr {g : β → β} (h : m.find? k = some v) (hfg : f v = g v) :
    m.modify k f = m.modify k g := by
  apply ext
  refine map_congr_left fun e he => ?_
  by_cases hk : e.1 = k
  · have hv : e.2 = v := Option.some.inj ((mem_entries_iff.1 (hk ▸ he)).symm.trans h)
    rw [if_pos hk, if_pos hk, hv, hfg]
  · rw [if_neg hk, if_neg hk]

theorem modify_modify {g : β → β} : (m.modify k f).modify k g = m.modify k fun v => g (f v) := by
  apply ext
  simp only [modify, map_map]
  refine map_congr_left fun e _ => ?_
  by_cases h : e.1 = k <;> simp [h]

/-- Rewrites of different entries commute. -/
theorem modify_comm {g : β → β} (hne : k ≠ k') :
    (m.modify k f).modify k' g = (m.modify k' g).modify k f := by
  apply ext
  simp only [modify, map_map]
  refine map_congr_left fun e _ => ?_
  by_cases h : e.1 = k
  · simp [h, hne]
  · by_cases h' : e.1 = k' <;> simp [h, h', Ne.symm hne]

/-- A new entry does not see a rewrite of one that is there. -/
theorem modify_emplace (h : (m.find? k').isSome) :
    (m.modify k' f).emplace k v = (m.emplace k v).modify k' f := by
  rcases hk : m.find? k with - | w
  · have hne : k ≠ k' := by
      rintro rfl
      rw [hk] at h
      cases h
    have hk' : (m.modify k' f).find? k = none := by rw [find?_modify, if_neg hne, hk]
    apply ext
    rw [entries_emplace_of_none hk']
    change _ = (m.emplace k v).entries.map _
    rw [entries_emplace_of_none hk]
    simp [modify, hne]
  · obtain ⟨w', hw'⟩ : ∃ w', (m.modify k' f).find? k = some w' :=
      Option.isSome_iff_exists.1 (by rw [modify_isSome, hk]; rfl)
    rw [emplace_of_some hk, emplace_of_some hw']

/-! ## Dropping -/

/-- Entries are dropped alike before and after a rewrite that the
predicate does not see. -/
theorem modify_filter (h : ∀ v, m.find? k = some v → p (k, f v) = p (k, v)) :
    (m.modify k f).filter p = (m.filter p).modify k f := by
  apply ext
  simp only [modify, filter, filter_map]
  congr 1
  refine filter_congr fun e he => ?_
  rw [Function.comp_apply]
  split
  · rename_i hk
    have hv := h e.2 (mem_entries_iff.1 (hk ▸ he))
    rw [hk, hv, ← hk]
  · rfl

theorem find?_filter : (m.filter p).find? k = (m.find? k).filter fun v => p (k, v) := by
  cases h : m.find? k with
  | none =>
    cases h' : (m.filter p).find? k with
    | none => rfl
    | some v =>
      have hm := mem_entries_iff.2 h'
      rw [filter, mem_filter] at hm
      rw [mem_entries_iff.1 hm.1] at h
      cases h
  | some v =>
    have hm := mem_entries_iff.2 h
    by_cases hp : p (k, v)
    · rw [Option.filter_some, if_pos hp]
      exact mem_entries_iff.1 (mem_filter.2 ⟨hm, hp⟩)
    rw [Option.filter_some, if_neg hp, find?_eq_none]
    intro hk
    obtain ⟨⟨k', w⟩, he, rfl⟩ := mem_map.1 hk
    obtain ⟨he, hpw⟩ := mem_filter.1 he
    rw [mem_entries_iff.1 he] at h
    cases h
    exact hp hpw

theorem find?_erase : (m.erase k).find? k' = if k' = k then none else m.find? k' := by
  rw [erase, find?_filter]
  by_cases h : k' = k
  · subst h
    cases m.find? k' <;> simp
  · cases m.find? k' <;> simp [h]

omit [DecidableEq α] in
theorem size_filter_le : (m.filter p).size ≤ m.size := length_filter_le _ _

/-! ## Sums over the entries -/

/-- The entries around one of them: an in-place rewrite touches that one
only, which is what any sum over the entries needs. -/
theorem exists_split (h : m.find? k = some v) : ∃ l₁ l₂, m.entries = l₁ ++ (k, v) :: l₂ ∧
    ∀ f : β → β, (m.modify k f).entries = l₁ ++ (k, f v) :: l₂ := by
  obtain ⟨l₁, l₂, hl⟩ := append_of_mem (mem_entries_iff.2 h)
  have hn := m.nodup
  rw [hl, map_append, nodup_append] at hn
  obtain ⟨-, h₂, h₁₂⟩ := hn
  refine ⟨l₁, l₂, hl, fun f => ?_⟩
  have hl₁ : ∀ e ∈ l₁, e.1 ≠ k := fun e he => h₁₂ e.1 (mem_map_of_mem he) k (by simp)
  have hl₂ : ∀ e ∈ l₂, e.1 ≠ k := by
    intro e he hek
    have hmem : e.1 ∈ l₂.map Prod.fst := mem_map_of_mem he
    rw [hek] at hmem
    exact (nodup_cons.1 h₂).1 hmem
  have hmap : ∀ l : List (α × β), (∀ e ∈ l, e.1 ≠ k) →
      l.map (fun e => if e.1 = k then (e.1, f e.2) else e) = l := by
    intro l hl
    conv_rhs => rw [← map_id l]
    exact map_congr_left fun e he => by simp [hl e he]
  simp only [modify]
  rw [hl, map_append, map_cons, hmap l₁ hl₁, hmap l₂ hl₂]
  simp

/-! ## What is seen of the values -/

/-- The map seen through a function of its values. -/
def mapValues (g : β → γ) (m : Assoc α β) : Assoc α γ where
  entries := m.entries.map fun e => (e.1, g e.2)
  nodup := by
    rw [List.map_map]
    exact m.nodup

section

variable (g : β → γ)

theorem find?_mapValues : (m.mapValues g).find? k = (m.find? k).map g := by
  simp only [find?, mapValues, find?_map, Option.map_map]
  rfl

omit [DecidableEq α] in
theorem size_mapValues : (m.mapValues g).size = m.size := length_map _

theorem mapValues_emplace : (m.emplace k v).mapValues g = (m.mapValues g).emplace k (g v) := by
  rcases h : m.find? k with - | w
  · have h' : (m.mapValues g).find? k = none := by rw [find?_mapValues, h]; rfl
    apply ext
    change (m.emplace k v).entries.map _ = _
    rw [entries_emplace_of_none h', entries_emplace_of_none h, map_append]
    rfl
  · have h' : (m.mapValues g).find? k = some (g w) := by rw [find?_mapValues, h]; rfl
    rw [emplace_of_some h, emplace_of_some h']

theorem mapValues_modify :
    (m.modify k fun _ => v).mapValues g = (m.mapValues g).modify k fun _ => g v := by
  apply ext
  simp only [mapValues, modify, map_map]
  refine map_congr_left fun e _ => ?_
  simp only [Function.comp_apply]
  split <;> rfl

end

/-- A rewrite that is not seen. -/
theorem mapValues_modify_of_eq {g : β → γ} (h : m.find? k = some v') (hg : g v = g v') :
    (m.modify k fun _ => v).mapValues g = m.mapValues g := by
  obtain ⟨l₁, l₂, hl, hmod⟩ := exists_split h
  simp only [mapValues, hmod, hl, map_append, map_cons, hg]

omit [DecidableEq α] in
theorem mapValues_filter {g : β → γ} {q : α × γ → Bool}
    (h : ∀ e, p e = q (e.1, g e.2)) : (m.filter p).mapValues g = (m.mapValues g).filter q := by
  apply ext
  simp only [mapValues, filter, filter_map]
  congr 2
  funext e
  exact h e

end Assoc

end Nanom
