import Nanom.Columnar.Bits
import Nanom.Common.Probing

/-!
# Columnar pages — dictionary builders

`fixed_dictionary` and `string_dictionary` give each distinct value an index in
the order the values first come up. Both keep the values, their hashes and a
table of slots, probed one after the other, that hold an index and one more, or
zero; it is at least twice as large as there are entries.

A value is compared by its bytes, which `repr` gives, and the hash is any
function of them. `Dictionary.Valid` relates the table to the entries, and
`Builder.FirstSeen` says what a caller sees of either builder.
-/

namespace Nanom.Columnar

open Probing List Nat

variable {b h i s : ℕ}
variable {α : Type} {repr : α → Bytes} {hash : Bytes → ℕ}

/-! ## The table -/

/-- `values_`, `hashes_` and `t_.slots`. -/
structure Dictionary (α : Type) where
  values : List α := []
  hashes : List ℕ := []
  slots : List ℕ := []

def needsGrow (slots : List ℕ) (entries : ℕ) : Bool := slots.length < (entries + 1) * 2

/-- `slots[s] == 0`. -/
def emptyAt (slots : List ℕ) (s : ℕ) : Except Fault Bool := do
  let held ← access slots[s]?
  return held = 0

/-- One old slot of `probe_slots::grow`. -/
def rehash (hashes : List ℕ) (slots : List ℕ) (held : ℕ) : Except Fault (List ℕ) :=
  if held = 0 then return slots
  else do
    let mask := slots.length - 1
    let h ← access hashes[held - 1]?
    let s ← walk .unfinished (emptyAt slots) mask slots.length (h &&& mask)
    return slots.set s held

def grow (hashes slots : List ℕ) : Except Fault (List ℕ) :=
  slots.foldlM (rehash hashes)
    (List.replicate (if slots.isEmpty then 64 else slots.length * 2) 0)

namespace Dictionary

/-- The probe loop goes no further: the slot is empty, or its entry has
the hash and the bytes of the value. -/
def stopAt (repr : α → Bytes) (d : Dictionary α) (slots : List ℕ) (v : α) (h s : ℕ) :
    Except Fault Bool := do
  let held ← access slots[s]?
  if held = 0 then return true
  else do
    let h' ← access d.hashes[held - 1]?
    if h' = h then do
      let w ← access d.values[held - 1]?
      return repr w = repr v
    else return false

/-- The table, grown where it has to be. -/
def roomy (d : Dictionary α) : Except Fault (List ℕ) :=
  if needsGrow d.slots d.values.length then grow d.hashes d.slots else return d.slots

/-- What both `index_of` start with: the table, where the probe loop ends
and what is there. -/
def locate (repr : α → Bytes) (hash : Bytes → ℕ) (d : Dictionary α) (v : α) :
    Except Fault (List ℕ × ℕ × ℕ) := do
  let slots ← d.roomy
  let h := hash (repr v)
  let mask := slots.length - 1
  let s ← walk .unfinished (d.stopAt repr slots v h) mask slots.length (h &&& mask)
  let held ← access slots[s]?
  return (slots, s, held)

/-- A new entry, in slot `s`. -/
def push (d : Dictionary α) (slots : List ℕ) (s : ℕ) (v : α) (h : ℕ) : Dictionary α :=
  ⟨d.values ++ [v], d.hashes ++ [h], slots.set s (u32 (d.values.length + 1))⟩

def indexOf (repr : α → Bytes) (hash : Bytes → ℕ) (d : Dictionary α) (v : α) :
    Except Fault (ℕ × Dictionary α) := do
  let (slots, s, held) ← d.locate repr hash v
  if held = 0 then return (u32 d.values.length, d.push slots s v (hash (repr v)))
  else return (held - 1, { d with slots })

def clear (d : Dictionary α) : Dictionary α := ⟨[], [], d.slots.map fun _ => 0⟩

end Dictionary

/-- A `string_dictionary` keeps the total size too. -/
structure StringDictionary extends Dictionary Bytes where
  bytes : ℕ := 0

namespace StringDictionary

def indexOf (hash : Bytes → ℕ) (d : StringDictionary) (v : Bytes) :
    Except Fault (ℕ × StringDictionary) := do
  let (slots, s, held) ← d.locate id hash v
  if held = 0 then
    return (u32 d.values.length, ⟨d.push slots s v (hash v), u64 (d.bytes + v.length)⟩)
  else return (held - 1, { d with slots })

def clear (d : StringDictionary) : StringDictionary := ⟨d.toDictionary.clear, 0⟩

end StringDictionary

/-! ## What the table has to do with the entries -/

/-- Where the probe loop for an entry starts. -/
def homeOf (hashes : List ℕ) (size a : ℕ) : ℕ := hashes.getD (a - 1) 0 % size

/-- The entries as the slots hold them. -/
def held (n : ℕ) : List ℕ := List.range' 1 n

/-- The slots of a dictionary of `n` entries. -/
structure Table (hashes : List ℕ) (n : ℕ) (slots : List ℕ) : Prop where
  size : slots = [] ∨ ∃ b, slots.length = 2 ^ (b + 6)
  half : n * 2 ≤ slots.length
  holds : Holds (homeOf hashes slots.length) (held n) slots

/-- **What every dictionary keeps.** -/
structure Dictionary.Valid (repr : α → Bytes) (hash : Bytes → ℕ) (d : Dictionary α) : Prop where
  hashes : d.hashes = d.values.map fun v => hash (repr v)
  distinct : (d.values.map repr).Nodup
  table : Table d.hashes d.values.length d.slots

variable {hashes slots : List ℕ} {n a : ℕ} {d : Dictionary α} {v : α}

theorem mem_held : a ∈ held n ↔ 0 < a ∧ a ≤ n := by
  rw [held, mem_range'_1]
  omega

theorem held_succ (n : ℕ) : ((n + 1) :: held n).Perm (held (n + 1)) := by
  rw [held, held, range'_concat, add_comm n 1, one_mul]
  exact (perm_append_singleton _ _).symm

theorem homeOf_eq (hget : hashes[a - 1]? = some h) (size : ℕ) :
    homeOf hashes size a = h % size := by
  rw [homeOf, getD_eq_getElem?_getD, hget]
  rfl

theorem homeOf_append {hs : List ℕ} {size : ℕ} (h0 : 0 < a) (h : a ≤ hashes.length) :
    homeOf (hashes ++ hs) size a = homeOf hashes size a := by
  rw [homeOf, homeOf, getD_eq_getElem?_getD, getD_eq_getElem?_getD, getElem?_append_left (by omega)]

theorem emptyAt_of_get {x : ℕ} (h : slots[s]? = some x) :
    emptyAt slots s = .ok (decide (x = 0)) := by
  rw [emptyAt, h]
  rfl

theorem exists_get (hpos : 0 < slots.length) : ∃ x, slots[s % slots.length]? = some x :=
  ⟨_, getElem?_eq_getElem (mod_lt s hpos)⟩

/-! ## Growing -/

/-- One old slot: its entry is placed behind its home in the new table. -/
theorem rehash_spec {placed : List ℕ} (hlen : slots.length = 2 ^ b)
    (h : Holds (homeOf hashes (2 ^ b)) placed slots) (ha : a ≠ 0) (hle : a ≤ hashes.length)
    (hroom : placed.length < slots.length) :
    ∃ slots', rehash hashes slots a = .ok slots' ∧ slots'.length = 2 ^ b ∧
      Holds (homeOf hashes (2 ^ b)) (a :: placed) slots' := by
  have hget : hashes[a - 1]? = some hashes[a - 1] := getElem?_eq_getElem (by omega)
  have hhome := homeOf_eq hget (2 ^ b)
  obtain ⟨j, hj, hempty, hbefore⟩ := h.exists_empty hroom (homeOf hashes (2 ^ b) a)
  have hwalk : walk .unfinished (emptyAt slots) (2 ^ b - 1) (2 ^ b) (hashes[a - 1] % 2 ^ b)
      = .ok ((homeOf hashes (2 ^ b) a + j) % 2 ^ b) := by
    rw [← hhome]
    rw [hlen] at hj hempty hbefore
    refine walk_eq (by rw [hhome]; exact mod_lt _ (Nat.two_pow_pos b)) (fun i hi => ?_) ?_ hj
    · have hpos : 0 < slots.length := by rw [hlen]; exact Nat.two_pow_pos b
      obtain ⟨x, hx⟩ := exists_get hpos
      rw [hlen] at hx
      have hne : x ≠ 0 := fun h0 => hbefore i hi (by rw [hx, h0])
      rw [emptyAt_of_get hx, decide_eq_false hne]
    · rw [emptyAt_of_get hempty, decide_eq_true rfl]
  refine ⟨slots.set ((homeOf hashes (2 ^ b) a + j) % 2 ^ b) a, ?_, ?_, ?_⟩
  · rw [rehash, if_neg ha]
    rw [access_of_eq hget, ok_bind, hlen, and_two_pow_sub_one_eq_mod, hwalk]
    rfl
  · rw [length_set, hlen]
  · have hplaced := h.place ha hj hempty hbefore
    rw [hlen] at hplaced
    exact hplaced

theorem grown_size (h : Table hashes n slots) :
    ∃ b, (if slots.isEmpty then 64 else slots.length * 2) = 2 ^ (b + 6) ∧
      (n + 1) * 2 ≤ 2 ^ (b + 6) := by
  have hhalf := h.half
  rcases h.size with rfl | ⟨b, hb⟩
  · rw [length_nil] at hhalf
    exact ⟨0, rfl, by norm_num; omega⟩
  have hpos : 0 < 2 ^ b := Nat.two_pow_pos b
  have hsplit : 2 ^ (b + 6) = 2 ^ b * 64 := pow_add 2 b 6
  have hnext : 2 ^ (b + 1 + 6) = 2 ^ (b + 6) * 2 := by rw [pow_succ]
  have hne : slots.isEmpty = false := by
    cases slots with
    | nil => rw [length_nil] at hb; omega
    | cons _ _ => rfl
  refine ⟨b + 1, ?_, by omega⟩
  rw [hne, if_neg Bool.false_ne_true, hb, hnext]

/-- **Growing keeps the entries**, and makes room for one more. -/
theorem grow_spec (h : Table hashes n slots) (hle : n ≤ hashes.length) :
    ∃ slots', grow hashes slots = .ok slots' ∧ Table hashes n slots' ∧
      (n + 1) * 2 ≤ slots'.length := by
  obtain ⟨b, hsize, hroom⟩ := grown_size h
  have hlen : (slots.filter (· ≠ 0)).length = n := by
    rw [h.holds.perm.length_eq, held, length_range']
  obtain ⟨slots', hrun, hlen', hholds⟩ := foldlM_inv (l := slots) (f := rehash hashes)
    (I := fun done s => s.length = 2 ^ (b + 6) ∧
      Holds (homeOf hashes (2 ^ (b + 6))) (done.filter (· ≠ 0)) s)
    (fun done a rest s hl ⟨hs, hI⟩ => by
      by_cases ha : a = 0
      · refine ⟨s, by rw [rehash, if_pos ha]; rfl, hs, ?_⟩
        rw [filter_append, filter_cons_of_neg (by simpa using ha), filter_nil, append_nil]
        exact hI
      · have hmem : a ∈ held n := h.holds.perm.mem_iff.1 (mem_filter.2
          ⟨by rw [hl]; exact mem_append_right _ mem_cons_self, decide_eq_true ha⟩)
        have hfewer : (done.filter (· ≠ 0)).length ≤ n := by
          rw [← hlen, hl, filter_append, length_append]
          exact le_add_right _ _
        obtain ⟨s', hs', hlen', hI'⟩ := rehash_spec hs hI ha
          (le_trans (mem_held.1 hmem).2 hle) (by rw [hs]; omega)
        refine ⟨s', hs', hlen', ?_⟩
        rw [filter_append, filter_cons_of_pos (by simpa using ha)]
        exact hI'.of_perm (perm_append_singleton _ _).symm)
    ⟨length_replicate, holds_empty _ _⟩
  refine ⟨slots', by rw [grow, hsize]; exact hrun, ⟨.inr ⟨b, hlen'⟩, by omega, ?_⟩, by omega⟩
  rw [hlen']
  exact hholds.of_perm h.holds.perm

theorem roomy_spec (h : d.Valid repr hash) :
    ∃ slots, d.roomy = .ok slots ∧ Table d.hashes d.values.length slots ∧
      (d.values.length + 1) * 2 ≤ slots.length := by
  rw [Dictionary.roomy]
  by_cases hgrow : needsGrow d.slots d.values.length = true
  · rw [if_pos hgrow]
    exact grow_spec h.table (by rw [h.hashes, length_map])
  · rw [if_neg hgrow]
    exact ⟨d.slots, rfl, h.table, Nat.le_of_not_lt fun hlt => hgrow (decide_eq_true hlt)⟩

/-! ## Looking a value up -/

theorem stopAt_of_empty (hget : slots[s]? = some 0) : d.stopAt repr slots v h s = .ok true := by
  rw [Dictionary.stopAt, access_of_eq hget]
  rfl

/-- At a slot that holds an entry the loop stops if its bytes are those of
the value: then the hashes are the same too. -/
theorem stopAt_of_entry (hd : d.Valid repr hash) {w : α}
    (hget : slots[s]? = some (i + 1)) (hw : d.values[i]? = some w) :
    d.stopAt repr slots v (hash (repr v)) s = .ok (decide (repr w = repr v)) := by
  have hhash : d.hashes[i]? = some (hash (repr w)) := by rw [hd.hashes, getElem?_map, hw]; rfl
  rw [Dictionary.stopAt, access_of_eq hget, ok_bind, Nat.add_sub_cancel, access_of_eq hhash,
    ok_bind]
  by_cases heq : hash (repr w) = hash (repr v)
  · rw [if_pos heq, access_of_eq hw]
    rfl
  · have hne : repr w ≠ repr v := fun h => heq (by rw [h])
    rw [if_neg heq, decide_eq_false hne]
    rfl

theorem exists_stopAt (hd : d.Valid repr hash) (htable : Table d.hashes d.values.length slots)
    (hpos : 0 < slots.length) (v : α) (s : ℕ) :
    ∃ x, d.stopAt repr slots v (hash (repr v)) (s % slots.length) = .ok x := by
  obtain ⟨a, ha⟩ := exists_get hpos
  cases a with
  | zero => exact ⟨true, stopAt_of_empty ha⟩
  | succ i =>
    have hle := (mem_held.1 (htable.holds.mem_placed ha (succ_ne_zero i))).2
    exact ⟨_, stopAt_of_entry hd ha (getElem?_eq_getElem (by omega))⟩

/-- **The probe loop ends**, within one round of the table: at the first
slot that is empty or holds the value. -/
theorem walk_stopAt (hd : d.Valid repr hash) (hlen : slots.length = 2 ^ b)
    (htable : Table d.hashes d.values.length slots) (hroom : d.values.length < slots.length)
    (v : α) :
    ∃ j < slots.length,
      walk .unfinished (d.stopAt repr slots v (hash (repr v))) (slots.length - 1) slots.length
        (hash (repr v) % slots.length) = .ok ((hash (repr v) + j) % slots.length) ∧
      d.stopAt repr slots v (hash (repr v)) ((hash (repr v) + j) % slots.length) = .ok true ∧
      ∀ i < j, d.stopAt repr slots v (hash (repr v)) ((hash (repr v) + i) % slots.length)
        = .ok false := by
  have hpos : 0 < slots.length := by omega
  obtain ⟨k, hk, hempty, -⟩ := htable.holds.exists_empty
    (by rw [held, length_range']; exact hroom) (hash (repr v))
  have hexists : ∃ j, d.stopAt repr slots v (hash (repr v)) ((hash (repr v) + j) % slots.length)
      = .ok true := ⟨k, stopAt_of_empty hempty⟩
  obtain ⟨j, hat, hle, hmin⟩ : ∃ j, d.stopAt repr slots v (hash (repr v))
      ((hash (repr v) + j) % slots.length) = .ok true ∧ j ≤ k ∧
      ∀ i < j, d.stopAt repr slots v (hash (repr v)) ((hash (repr v) + i) % slots.length)
        ≠ .ok true :=
    ⟨Nat.find hexists, Nat.find_spec hexists, Nat.find_min' hexists (stopAt_of_empty hempty),
      fun i hi => Nat.find_min hexists hi⟩
  have hbefore : ∀ i < j, d.stopAt repr slots v (hash (repr v))
      ((hash (repr v) + i) % slots.length) = .ok false := fun i hi => by
    obtain ⟨x, hx⟩ := exists_stopAt hd htable hpos v (hash (repr v) + i)
    cases x with
    | false => exact hx
    | true => exact absurd hx (hmin i hi)
  refine ⟨j, by omega, ?_, hat, hbefore⟩
  have hmod : ∀ i, (hash (repr v) % 2 ^ b + i) % 2 ^ b = (hash (repr v) + i) % 2 ^ b := fun i =>
    mod_add_mod _ _ _
  rw [hlen] at hbefore hat ⊢
  rw [walk_eq (mod_lt _ (Nat.two_pow_pos b)) (fun i hi => by rw [hmod]; exact hbefore i hi)
    (by rw [hmod]; exact hat) (by omega), hmod]

/-- What `locate` has found: the value's entry, or the slot for one. -/
inductive Located (repr : α → Bytes) (hash : Bytes → ℕ) (d : Dictionary α) (v : α)
    (slots : List ℕ) (s : ℕ) : ℕ → Prop
  | entry {i : ℕ} {w : α} : d.values[i]? = some w → repr w = repr v →
      Located repr hash d v slots s (i + 1)
  | none : repr v ∉ d.values.map repr →
      Table (d.hashes ++ [hash (repr v)]) (d.values.length + 1)
        (slots.set s (d.values.length + 1)) →
      Located repr hash d v slots s 0

theorem locate_spec (hd : d.Valid repr hash) (v : α) :
    ∃ slots s a, d.locate repr hash v = .ok (slots, s, a) ∧
      Table d.hashes d.values.length slots ∧ Located repr hash d v slots s a := by
  obtain ⟨slots, hroomy, htable, hroom⟩ := roomy_spec hd
  obtain ⟨b, hlen⟩ : ∃ b, slots.length = 2 ^ (b + 6) := by
    rcases htable.size with rfl | h
    · rw [length_nil] at hroom
      omega
    · exact h
  have hpos : 0 < slots.length := by omega
  obtain ⟨j, hj, hwalk, hstop, hbefore⟩ := walk_stopAt hd hlen htable (by omega) v
  obtain ⟨a, ha⟩ := exists_get hpos
  have hmask : hash (repr v) &&& slots.length - 1 = hash (repr v) % slots.length := by
    rw [hlen, and_two_pow_sub_one_eq_mod]
  refine ⟨slots, (hash (repr v) + j) % slots.length, a, ?_, htable, ?_⟩
  · rw [Dictionary.locate, hroomy, ok_bind]
    dsimp only
    rw [hmask, hwalk, ok_bind, access_of_eq ha]
    rfl
  -- before the slot there is no empty one
  have hfull : ∀ i < j, slots[(hash (repr v) + i) % slots.length]? ≠ some 0 := fun i hi h0 => by
    have := hbefore i hi
    rw [stopAt_of_empty h0] at this
    cases this
  cases a with
  | succ i =>
    have hle := (mem_held.1 (htable.holds.mem_placed ha (succ_ne_zero i))).2
    have hget := getElem?_eq_getElem (show i < d.values.length by omega)
    rw [stopAt_of_entry hd ha hget] at hstop
    exact .entry hget (of_decide_eq_true (Except.ok.inj hstop))
  | zero =>
    refine .none (fun hmem => ?_) ?_
    · -- the value's own slot comes before an empty one, and the loop stops at it
      obtain ⟨w, hw, heq⟩ := mem_map.1 hmem
      obtain ⟨i, hi, hget⟩ := getElem_of_mem hw
      have hval : d.values[i]? = some w := by rw [getElem?_eq_getElem hi, hget]
      have hhash : d.hashes[i + 1 - 1]? = some (hash (repr v)) := by
        rw [Nat.add_sub_cancel, hd.hashes, getElem?_map, hval, ← heq]
        rfl
      obtain ⟨k, hk, hown, hless⟩ := htable.holds.reach (i + 1) (mem_held.2 ⟨by omega, hi⟩)
      rw [homeOf_eq hhash slots.length, mod_add_mod] at hown
      have hmatch := stopAt_of_entry (v := v) hd hown hval
      rw [decide_eq_true heq] at hmatch
      rcases lt_trichotomy j k with hlt | rfl | hgt
      · have := hless j hlt
        rw [homeOf_eq hhash slots.length, mod_add_mod] at this
        exact this ha
      · rw [ha] at hown
        cases hown
      · rw [hbefore k hgt] at hmatch
        cases hmatch
    · have hhashes : d.values.length = d.hashes.length := by rw [hd.hashes, length_map]
      have hnew : homeOf (d.hashes ++ [hash (repr v)]) slots.length (d.values.length + 1)
          = hash (repr v) % slots.length := by
        refine homeOf_eq ?_ slots.length
        rw [Nat.add_sub_cancel, hhashes, getElem?_concat_length]
      have hold : Holds (homeOf (d.hashes ++ [hash (repr v)]) slots.length)
          (held d.values.length) slots := htable.holds.of_home fun a ha =>
        homeOf_append (mem_held.1 ha).1 (hhashes ▸ (mem_held.1 ha).2)
      have hplace := hold.place (succ_ne_zero d.values.length) hj
        (by rw [hnew, mod_add_mod]; exact ha)
        (fun i hi => by rw [hnew, mod_add_mod]; exact hfull i hi)
      rw [hnew, mod_add_mod] at hplace
      refine ⟨.inr ⟨b, by rw [length_set, hlen]⟩, by rw [length_set]; exact hroom, ?_⟩
      rw [length_set]
      exact hplace.of_perm (held_succ _)

/-! ## What a caller sees -/

/-- A call of a dictionary. -/
inductive Call (α : Type)
  | indexOf (v : α)
  | clear

/-- A dictionary, as far as a caller sees it. -/
structure Builder (α σ : Type) where
  init : σ
  indexOf : σ → α → Except Fault (ℕ × σ)
  clear : σ → σ
  values : σ → List α

/-- `fixed_dictionary<T>`. -/
def fixedDictionary (repr : α → Bytes) (hash : Bytes → ℕ) : Builder α (Dictionary α) where
  init := {}
  indexOf := Dictionary.indexOf repr hash
  clear := Dictionary.clear
  values := Dictionary.values

def stringDictionary (hash : Bytes → ℕ) : Builder Bytes StringDictionary where
  init := {}
  indexOf := StringDictionary.indexOf hash
  clear := StringDictionary.clear
  values d := d.values

/-- The values since the last clear. -/
def sinceClear (calls : List (Call α)) : List α :=
  calls.foldl (fun vs c => match c with
    | .indexOf v => vs ++ [v]
    | .clear => []) []

/-- Each value once, where it first comes up. -/
def firstSeen (l : List Bytes) : List Bytes :=
  l.foldl (fun seen x => if x ∈ seen then seen else seen ++ [x]) []

/-- The values that a dictionary has to hold behind some calls. -/
def seenBy (repr : α → Bytes) (calls : List (Call α)) : List Bytes :=
  firstSeen ((sinceClear calls).map repr)

/-- There are never more entries than an index has room for. -/
def Few (repr : α → Bytes) (calls : List (Call α)) : Prop :=
  ∀ pre, pre <+: calls → (seenBy repr pre).length < 2 ^ 32 - 1

theorem firstSeen_snoc (l : List Bytes) (x : Bytes) :
    firstSeen (l ++ [x]) = if x ∈ firstSeen l then firstSeen l else firstSeen l ++ [x] := by
  rw [firstSeen, foldl_append]
  rfl

theorem nodup_snoc {l : List Bytes} {x : Bytes} (h : l.Nodup) (hx : x ∉ l) : (l ++ [x]).Nodup :=
  nodup_append.2 ⟨h, pairwise_singleton _ x, fun _ ha _ hb hab =>
    hx (mem_singleton.1 hb ▸ hab ▸ ha)⟩

theorem nodup_firstSeen (l : List Bytes) : (firstSeen l).Nodup := by
  induction l using reverseRecOn with
  | nil => exact nodup_nil
  | append_singleton l x ih =>
    rw [firstSeen_snoc]
    split
    · exact ih
    · exact nodup_snoc ih ‹_›

theorem seenBy_indexOf (calls : List (Call α)) (v : α) :
    seenBy repr (calls ++ [.indexOf v])
      = if repr v ∈ seenBy repr calls then seenBy repr calls
        else seenBy repr calls ++ [repr v] := by
  rw [seenBy, sinceClear, foldl_append, foldl_cons, foldl_nil, map_append]
  exact firstSeen_snoc _ _

theorem seenBy_clear (calls : List (Call α)) : seenBy repr (calls ++ [.clear]) = [] := by
  rw [seenBy, sinceClear, foldl_append]
  rfl

namespace Builder

variable {σ : Type} {B : Builder α σ} {I : σ → Prop}

/-- One call. -/
def step (B : Builder α σ) (s : σ) : Call α → Except Fault σ
  | .indexOf v => do
      let (_, s) ← B.indexOf s v
      return s
  | .clear => return B.clear s

/-- The calls of a run, from a new dictionary on. -/
def run (B : Builder α σ) (calls : List (Call α)) : Except Fault σ := calls.foldlM B.step B.init

/-- What `index_of` does to the values: it finds one with the same bytes,
or there is none and it adds the value. -/
def Indexes (repr : α → Bytes) (values : List α) (v : α) (i : ℕ) (values' : List α) : Prop :=
  (∃ w, values[i]? = some w ∧ repr w = repr v ∧ values' = values) ∨
  (repr v ∉ values.map repr ∧ i = values.length ∧ values' = values ++ [v])

/-- An invariant with which the calls do what they are for. -/
structure Keeps (B : Builder α σ) (repr : α → Bytes) (I : σ → Prop) : Prop where
  init : I B.init ∧ B.values B.init = []
  clear : ∀ s, I s → I (B.clear s) ∧ B.values (B.clear s) = []
  indexOf : ∀ s v, I s → (B.values s).length < 2 ^ 32 - 1 →
    ∃ i s', B.indexOf s v = .ok (i, s') ∧ I s' ∧ Indexes repr (B.values s) v i (B.values s')

theorem Indexes.map_repr {values values' : List α} (h : Indexes repr values v i values') :
    values'.map repr
      = if repr v ∈ values.map repr then values.map repr else values.map repr ++ [repr v] := by
  rcases h with ⟨w, hw, heq, rfl⟩ | ⟨hnot, -, rfl⟩
  · rw [if_pos (mem_map.2 ⟨w, mem_of_getElem? hw, heq⟩)]
  · rw [if_neg hnot, map_append]
    rfl

/-- **What every run comes to**: by induction over its calls. -/
theorem Keeps.run (h : B.Keeps repr I) {calls : List (Call α)} (hfew : Few repr calls) :
    ∃ s, B.run calls = .ok s ∧ I s ∧ (B.values s).map repr = seenBy repr calls := by
  refine foldlM_inv (I := fun done s => I s ∧ (B.values s).map repr = seenBy repr done)
    (fun done c rest s hl ⟨hI, hvalues⟩ => ?_) ⟨h.init.1, by rw [h.init.2]; rfl⟩
  cases c with
  | clear =>
    obtain ⟨hI', hnil⟩ := h.clear s hI
    exact ⟨B.clear s, rfl, hI', by rw [hnil, seenBy_clear]; rfl⟩
  | indexOf v =>
    have hlen : (B.values s).length < 2 ^ 32 - 1 := by
      rw [← length_map repr, hvalues]
      exact hfew done (by rw [hl]; exact prefix_append _ _)
    obtain ⟨i, s', hs', hI', hindexes⟩ := h.indexOf s v hI hlen
    refine ⟨s', by rw [step, hs']; rfl, hI', ?_⟩
    rw [hindexes.map_repr, hvalues, seenBy_indexOf]

/-- **A dictionary of first-seen values.** Behind any run with room for the
entries, the calls have all returned, the values are those since the last clear,
each once, in the order in which they came up, and `index_of` finds each at its
index: the probe loop ends, and no entry has moved. -/
def FirstSeen (B : Builder α σ) (repr : α → Bytes) : Prop :=
  ∀ calls, Few repr calls → ∃ s, B.run calls = .ok s ∧
    (B.values s).map repr = seenBy repr calls ∧ ((B.values s).map repr).Nodup ∧
    ∀ v, ∃ i s', B.indexOf s v = .ok (i, s') ∧ B.values s <+: B.values s' ∧
      ∀ k, (B.values s')[k]?.map repr = some (repr v) ↔ k = i

theorem Keeps.firstSeen (h : B.Keeps repr I) : B.FirstSeen repr := by
  intro calls hfew
  obtain ⟨s, hrun, hI, hvalues⟩ := h.run hfew
  have hnodup : ((B.values s).map repr).Nodup := by rw [hvalues]; exact nodup_firstSeen _
  refine ⟨s, hrun, hvalues, hnodup, fun v => ?_⟩
  obtain ⟨i, s', hs', -, hindexes⟩ := h.indexOf s v hI (by
    rw [← length_map repr, hvalues]
    exact hfew calls (prefix_refl _))
  -- the value is at its index, and the values behind the call are distinct too
  have hat : ((B.values s').map repr)[i]? = some (repr v) := by
    rcases hindexes with ⟨w, hw, heq, hsame⟩ | ⟨-, rfl, hmore⟩
    · rw [hsame, getElem?_map, hw, ← heq]
      rfl
    · rw [hmore, getElem?_map, getElem?_concat_length]
      rfl
  have hnodup' : ((B.values s').map repr).Nodup := by
    rw [hindexes.map_repr, hvalues, ← seenBy_indexOf]
    exact nodup_firstSeen _
  refine ⟨i, s', hs', ?_, fun k => ⟨fun hk => ?_, fun hk => ?_⟩⟩
  · rcases hindexes with ⟨-, -, -, hsame⟩ | ⟨-, -, hmore⟩
    · exact hsame ▸ prefix_refl _
    · rw [hmore]
      exact prefix_append _ _
  · rw [← getElem?_map, ← hat] at hk
    exact ((getElem?_inj (List.getElem?_eq_some_iff.1 hat).1 hnodup').1 hk.symm).symm
  · rw [hk, ← getElem?_map, hat]

end Builder

/-! ## Both builders -/

theorem valid_init : ({} : Dictionary α).Valid repr hash :=
  ⟨rfl, nodup_nil, .inl rfl, le_refl 0, holds_empty _ 0⟩

theorem Dictionary.Valid.clear (h : d.Valid repr hash) : d.clear.Valid repr hash := by
  have hslots : (d.clear).slots = replicate d.slots.length 0 := map_const'
  refine ⟨rfl, nodup_nil, ?_, zero_le _, ?_⟩
  · rcases h.table.size with hnil | ⟨b, hb⟩
    · exact .inl (by rw [hslots, hnil]; rfl)
    · exact .inr ⟨b, by rw [hslots, length_replicate, hb]⟩
  · rw [hslots]
    exact holds_empty _ _

theorem Dictionary.Valid.push (h : d.Valid repr hash)
    (hlen : d.values.length < 2 ^ 32 - 1) (hnot : repr v ∉ d.values.map repr)
    (htable : Table (d.hashes ++ [hash (repr v)]) (d.values.length + 1)
      (slots.set s (d.values.length + 1))) :
    (d.push slots s v (hash (repr v))).Valid repr hash := by
  refine ⟨?_, ?_, ?_⟩
  · rw [Dictionary.push, h.hashes, map_append]
    rfl
  · rw [Dictionary.push, map_append]
    exact nodup_snoc h.distinct hnot
  · rw [Dictionary.push, u32_of_lt (by omega), length_append]
    exact htable

theorem Dictionary.Valid.with_slots (h : d.Valid repr hash)
    (htable : Table d.hashes d.values.length slots) : Dictionary.Valid repr hash { d with slots } :=
  ⟨h.hashes, h.distinct, htable⟩

theorem fixedDictionary_keeps (repr : α → Bytes) (hash : Bytes → ℕ) :
    (fixedDictionary repr hash).Keeps repr (Dictionary.Valid repr hash) where
  init := ⟨valid_init, rfl⟩
  clear := fun _ h => ⟨h.clear, rfl⟩
  indexOf := by
    intro d v h hlen
    obtain ⟨slots, s, a, hlocate, htable, hlocated⟩ := locate_spec h v
    change d.values.length < 2 ^ 32 - 1 at hlen
    change ∃ i s', Dictionary.indexOf repr hash d v = .ok (i, s') ∧ _
    rw [Dictionary.indexOf, hlocate]
    cases hlocated with
    | entry hw heq => exact ⟨_, _, rfl, h.with_slots htable, .inl ⟨_, hw, heq, rfl⟩⟩
    | none hnot hnew =>
      exact ⟨_, _, rfl, h.push hlen hnot hnew, .inr ⟨hnot, u32_of_lt (by omega), rfl⟩⟩

/-- A string dictionary keeps the sum of the sizes, as a `size_t`. -/
structure StringDictionary.Valid (hash : Bytes → ℕ) (d : StringDictionary) : Prop where
  valid : d.toDictionary.Valid id hash
  bytes : d.bytes = u64 (d.values.map List.length).sum

theorem stringDictionary_keeps (hash : Bytes → ℕ) :
    (stringDictionary hash).Keeps id (StringDictionary.Valid hash) where
  init := ⟨⟨valid_init, rfl⟩, rfl⟩
  clear := fun _ h => ⟨⟨h.valid.clear, rfl⟩, rfl⟩
  indexOf := by
    intro d v h hlen
    obtain ⟨slots, s, a, hlocate, htable, hlocated⟩ := locate_spec h.valid v
    change d.values.length < 2 ^ 32 - 1 at hlen
    change ∃ i s', StringDictionary.indexOf hash d v = .ok (i, s') ∧ _
    rw [StringDictionary.indexOf, hlocate]
    cases hlocated with
    | entry hw heq =>
      exact ⟨_, _, rfl, ⟨h.valid.with_slots htable, h.bytes⟩, .inl ⟨_, hw, heq, rfl⟩⟩
    | none hnot hnew =>
      refine ⟨_, _, rfl, ⟨h.valid.push hlen hnot hnew, ?_⟩, .inr ⟨hnot, u32_of_lt (by omega), rfl⟩⟩
      change u64 (d.bytes + v.length) = u64 ((d.values ++ [v]).map length).sum
      rw [h.bytes, map_append, List.sum_append, map_singleton, sum_singleton,
        u64, u64, u64, mod_add_mod]

/-- **Dictionary builders.** Whatever the hash is, `fixed_dictionary` and
`string_dictionary` are dictionaries of first-seen values, and the second
has the sum of their sizes. -/
theorem dictionaries_index_first_seen (repr : α → Bytes) (hash : Bytes → ℕ) :
    (fixedDictionary repr hash).FirstSeen repr ∧ (stringDictionary hash).FirstSeen id ∧
      ∀ calls, Few id calls → ∃ d, (stringDictionary hash).run calls = .ok d ∧
        d.bytes = u64 (d.values.map List.length).sum := by
  refine ⟨(fixedDictionary_keeps repr hash).firstSeen, (stringDictionary_keeps hash).firstSeen,
    fun calls hfew => ?_⟩
  obtain ⟨d, hrun, hvalid, -⟩ := (stringDictionary_keeps hash).run hfew
  exact ⟨d, hrun, hvalid.bytes⟩

end Nanom.Columnar
