import Nanom.Columnar.Dremel.Kernels

/-!
# Columnar pages — a list and its child

`list_slots` and the kernel of the list's child scan the same levels and count
the elements by different tests: the list takes every entry at its element's
repetition level, the child only those whose definition level reaches the
element. Malformed levels can make the two disagree; what the caller compares
is the two totals.

An entry that the child counts is one that the list counts, so equal totals
leave no room for a difference (`adds_eq_of_countP_eq`), and the offsets count
what lies between two slots (`starts_gap`).
-/

namespace Nanom.Columnar

open List Bool

variable {e : Entry}
variable {nd : DremelNode} {es : List Entry} {o : Bool} {c k : ℕ} {expected : ℤ} {m n : ℕ}

namespace DremelNode

/-- The entries of slot `k`: from its first one up to the next with
`rep <= r_enc`. -/
def slotSpan (nd : DremelNode) : List Entry → ℕ → List Entry
  | [], _ => []
  | e :: es, k =>
    if nd.isSlot e then
      match k with
      | 0 => e :: es.takeWhile fun t => nd.rEnc < t.rep
      | k + 1 => nd.slotSpan es k
    else nd.slotSpan es k

theorem slotSpan_of_not (h : nd.isSlot e = false) : nd.slotSpan (e :: es) k = nd.slotSpan es k := by
  rw [slotSpan.eq_def]
  dsimp only
  rw [h, if_neg Bool.false_ne_true]

theorem slotSpan_zero (h : nd.isSlot e = true) :
    nd.slotSpan (e :: es) 0 = e :: es.takeWhile fun t => nd.rEnc < t.rep := if_pos h

theorem slotSpan_succ (h : nd.isSlot e = true) :
    nd.slotSpan (e :: es) (k + 1) = nd.slotSpan es k := if_pos h

/-- The offsets from a count on: the elements in front of each slot, and
all of them. -/
def offsetsFrom (nd : DremelNode) (c : ℕ) (es : List Entry) : List ℕ :=
  nd.starts c es ++ [c + es.countP nd.adds]

theorem offsetsFrom_cons (c : ℕ) (e : Entry) (es : List Entry) :
    nd.offsetsFrom c (e :: es)
      = (if nd.isSlot e then [c] else []) ++ nd.offsetsFrom (c + (nd.adds e).toNat) es := by
  rw [offsetsFrom, starts, countP_head, ← add_assoc]
  split <;> rfl

theorem openAfter_of_lt (h : nd.rEnc < e.rep) : nd.openAfter o [e] = o := if_neg (not_le.2 h)

theorem adds_of_lt (h : nd.rEnc < e.rep) : nd.adds e = decide (e.rep = nd.repElem) :=
  if_neg (not_le.2 h)

theorem closed_adds (h : nd.Continues false es) :
    (es.takeWhile fun t => nd.rEnc < t.rep).countP nd.adds = 0 := by
  induction es with
  | nil => rfl
  | cons e es ih =>
    obtain ⟨hcont, hrest⟩ := h
    by_cases hrep : nd.rEnc < e.rep
    · have hne : e.rep ≠ nd.repElem := fun he => false_ne_true (hcont hrep he)
      rw [openAfter_of_lt hrep] at hrest
      rw [takeWhile_cons_of_pos (by exact decide_eq_true hrep), countP_cons_of_neg]
      · exact ih hrest
      · rw [adds_of_lt hrep, decide_eq_false hne]
        exact false_ne_true
    · rw [takeWhile_cons_of_neg (by simpa using hrep), countP_nil]

/-- The first offset counts what comes before the first entry that can be
a slot. -/
theorem head_offsetsFrom (h : nd.Continues o es) :
    (nd.offsetsFrom c es)[0]?
      = some (c + (es.takeWhile fun t => nd.rEnc < t.rep).countP nd.adds) := by
  induction es generalizing o c with
  | nil => rfl
  | cons e es ih =>
    rw [offsetsFrom_cons]
    by_cases hrep : nd.rEnc < e.rep
    · have hslot : nd.isSlot e = false := not_slot_iff.2 (.inl hrep)
      rw [hslot, if_neg Bool.false_ne_true, nil_append, ih h.2,
        takeWhile_cons_of_pos (by exact decide_eq_true hrep), countP_head, add_assoc]
    rw [takeWhile_cons_of_neg (by simpa using hrep)]
    cases hslot : nd.isSlot e with
    | true => rfl
    | false =>
      -- an empty or null ancestor: what follows it belongs to no slot either
      have hadds : nd.adds e = false := by
        have hdef : e.defn < nd.dEnc := by
          rcases not_slot_iff.1 hslot with h' | h'
          · exact absurd h' hrep
          · exact h'
        rw [adds, if_pos (not_lt.1 hrep), decide_eq_false (not_le.2 hdef), Bool.false_and]
      have hopen : nd.openAfter o [e] = false := (if_pos (not_lt.1 hrep)).trans hadds
      have hrest := h.2
      rw [hopen] at hrest
      rw [if_neg Bool.false_ne_true, nil_append, ih hrest, closed_adds hrest, hadds]
      rfl

/-- **Two neighbouring offsets** differ by what the slot adds. -/
theorem offsetsFrom_gap (h : nd.Continues o es) (hk : k < es.countP nd.isSlot) :
    ∃ a, (nd.offsetsFrom c es)[k]? = some a ∧
      (nd.offsetsFrom c es)[k + 1]? = some (a + (nd.slotSpan es k).countP nd.adds) := by
  induction es generalizing o c k with
  | nil => cases hk
  | cons e es ih =>
    rw [offsetsFrom_cons]
    cases hslot : nd.isSlot e with
    | false =>
      rw [countP_cons_of_neg (by rw [hslot]; exact false_ne_true)] at hk
      rw [slotSpan_of_not hslot]
      exact ih h.2 hk
    | true =>
      rw [if_pos rfl, singleton_append]
      cases k with
      | zero =>
        refine ⟨c, rfl, ?_⟩
        rw [getElem?_cons_succ, head_offsetsFrom h.2, slotSpan_zero hslot, countP_head, add_assoc]
      | succ k =>
        rw [countP_cons_of_pos hslot] at hk
        rw [slotSpan_succ hslot]
        exact ih h.2 (Nat.lt_of_succ_lt_succ hk)

theorem adds_of_child {child : DremelNode} (hrep : nd.repElem = nd.rEnc + 1)
    (hdef : nd.dEnc ≤ nd.defElem) (hr : child.rEnc = nd.repElem) (hd : child.dEnc = nd.defElem)
    (h : child.isSlot e = true) : nd.adds e = true := by
  obtain ⟨hle, hge⟩ := isSlot_iff.1 h
  rw [adds]
  by_cases he : e.rep ≤ nd.rEnc
  · rw [if_pos he, decide_eq_true (by omega), decide_eq_true (by omega)]
    rfl
  · rw [if_neg he]
    exact decide_eq_true (by omega)

theorem mem_offsetsFrom {x : ℕ} (h : x ∈ nd.offsetsFrom c es) :
    c ≤ x ∧ x ≤ c + es.countP nd.adds := by
  induction es generalizing c with
  | nil => rw [mem_singleton.1 h]; exact ⟨le_refl _, le_refl _⟩
  | cons e es ih =>
    rw [countP_head]
    rw [offsetsFrom_cons, mem_append] at h
    rcases h with h | h
    · cases hslot : nd.isSlot e with
      | false => rw [hslot] at h; cases h
      | true =>
        rw [hslot, if_pos rfl, mem_singleton] at h
        omega
    · have := ih h
      omega

theorem pairwise_offsetsFrom (c : ℕ) (es : List Entry) :
    (nd.offsetsFrom c es).Pairwise (· ≤ ·) := by
  induction es generalizing c with
  | nil => exact pairwise_singleton _ _
  | cons e es ih =>
    rw [offsetsFrom_cons]
    split
    · refine pairwise_cons.2 ⟨fun x hx => ?_, ih _⟩
      exact le_trans (Nat.le_add_right _ _) (mem_offsetsFrom hx).1
    · exact ih _

end DremelNode

/-- Of two tests, one of which implies the other, equal counts leave no
difference. -/
theorem eq_of_countP_eq {p q : Entry → Bool} (hpq : ∀ e, p e = true → q e = true)
    (h : es.countP q = es.countP p) : ∀ e ∈ es, q e = p e := by
  induction es with
  | nil => intro e he; cases he
  | cons a es ih =>
    have hmono : es.countP p ≤ es.countP q := countP_mono_left fun e _ => hpq e
    rw [countP_cons, countP_cons] at h
    have ha : q a = p a := by
      cases hp : p a with
      | true => exact hpq a hp
      | false =>
        rw [hp, if_neg Bool.false_ne_true] at h
        cases hq : q a with
        | false => rfl
        | true => rw [hq, if_pos rfl] at h; omega
    rw [ha] at h
    intro e he
    rcases mem_cons.1 he with rfl | he
    · exact ha
    · exact ih (by omega) e he

theorem slotSpan_subset (k : ℕ) : nd.slotSpan es k ⊆ es := by
  induction es generalizing k with
  | nil => exact List.Subset.refl _
  | cons e es ih =>
    cases hslot : nd.isSlot e with
    | false =>
      rw [DremelNode.slotSpan_of_not hslot]
      exact List.Subset.trans (ih k) (subset_cons_self e es)
    | true =>
      cases k with
      | zero =>
        rw [DremelNode.slotSpan_zero hslot]
        exact cons_subset_cons e (takeWhile_sublist _).subset
      | succ k =>
        rw [DremelNode.slotSpan_succ hslot]
        exact List.Subset.trans (ih k) (subset_cons_self e es)

theorem ListSlots.Describes.offsets_eq {r : ListSlots n m} (h : r.Describes nd es expected) :
    r.offsets.elems.take (es.countP nd.isSlot + 1)
      = (nd.offsetsFrom 0 es).map fun x : ℕ => (x : ℤ) := by
  have hoffsets := h.offsets
  have hfrom : nd.starts 0 es ++ [r.elements] = nd.offsetsFrom 0 es := by
    rw [DremelNode.offsetsFrom, zero_add, h.elements]
  rw [hoffsets, hfrom]
  refine map_congr_left fun x hx => int32_of_le ?_
  have hx' := (DremelNode.mem_offsetsFrom hx).2
  rw [zero_add, ← h.elements] at hx'
  exact le_trans hx' h.elements_le

/-- **A list and its child agree slot by slot.** Where `list_slots` and
`struct_slots` of its child both have a result, the child with as many slots as
the list has elements, the offsets go up from zero to the number of elements, as
far at each slot as there are slots of the child among its entries. -/
theorem list_agrees_with_child {child : DremelNode} (hrep : nd.repElem = nd.rEnc + 1)
    (hdef : nd.dEnc ≤ nd.defElem) (hr : child.rEnc = nd.repElem) (hd : child.dEnc = nd.defElem)
    {offsets : Buffer ℤ n} {validity : Buffer UInt8 m} {r : ListSlots n m}
    (hlist : listSlots es nd expected offsets validity = .ok r)
    {m' : ℕ} {validity' : Buffer UInt8 m'} {r' : Buffer UInt8 m' × ℕ}
    (hchild : structSlots es child r.elements validity' = .ok r') :
    ∃ slots : ℕ, expected = slots ∧
      r.offsets.elems[0]? = some 0 ∧ r.offsets.elems[slots]? = some (r.elements : ℤ) ∧
      (r.offsets.elems.take (slots + 1)).Pairwise (· ≤ ·) ∧
      ∀ k < slots, ∃ a, r.offsets.elems[k]? = some a ∧
        r.offsets.elems[k + 1]? = some (a + (nd.slotSpan es k).countP child.isSlot) := by
  have h := describes_of_listSlots hlist
  have htotal : es.countP nd.adds = es.countP child.isSlot := by
    have := count_of_structSlots hchild
    rw [← h.elements]
    exact_mod_cast this
  have hsame := eq_of_countP_eq (fun e => DremelNode.adds_of_child hrep hdef hr hd) htotal
  have hget : ∀ k ≤ es.countP nd.isSlot,
      r.offsets.elems[k]? = ((nd.offsetsFrom 0 es)[k]?).map fun x : ℕ => (x : ℤ) := fun k hk => by
    rw [← getElem?_map, ← h.offsets_eq, getElem?_take_of_lt (by omega)]
  refine ⟨es.countP nd.isSlot, h.expected, ?_, ?_, ?_, fun k hk => ?_⟩
  · rw [hget 0 (Nat.zero_le _), DremelNode.head_offsetsFrom h.continues,
      DremelNode.closed_adds h.continues]
    rfl
  · rw [hget _ (le_refl _), DremelNode.offsetsFrom, ← DremelNode.length_starts,
      getElem?_concat_length, h.elements, zero_add]
    rfl
  · rw [h.offsets_eq]
    exact pairwise_map.2 ((DremelNode.pairwise_offsetsFrom 0 es).imp Int.ofNat_le.2)
  · obtain ⟨a, ha, hb⟩ := DremelNode.offsetsFrom_gap h.continues hk
    have hspan : (nd.slotSpan es k).countP nd.adds = (nd.slotSpan es k).countP child.isSlot :=
      countP_congr fun e he => by rw [hsame e (slotSpan_subset k he)]
    refine ⟨a, by rw [hget k (by omega), ha]; rfl, ?_⟩
    rw [hget (k + 1) hk, hb, hspan]
    rfl

/-- The levels of `[[1, 2], []]`, null and `[[3]]`. -/
def nestedLevels : List Entry := [⟨0, 4⟩, ⟨2, 4⟩, ⟨1, 3⟩, ⟨0, 0⟩, ⟨0, 4⟩]

/-- The inner list there, and its elements. -/
def innerList : DremelNode := ⟨1, 2, 3, 4, 2⟩

def innerElement : DremelNode := ⟨2, 4, 5, 0, 0⟩

/-- The null row is no slot of the inner list, and its second slot is
empty. -/
theorem list_agrees_with_child_nested :
    ∃ slots : ℕ, (3 : ℤ) = slots ∧ ∀ k < slots, ∃ a : ℤ, [0, 2, 2, 3][k]? = some a ∧
      [0, 2, 2, 3][k + 1]? = some (a + (innerList.slotSpan nestedLevels k).countP
        innerElement.isSlot) := by
  have hlist : listSlots nestedLevels innerList 3 ⟨[0, 0, 0, 0], rfl⟩ (.zeros 1)
      = .ok ⟨⟨[0, 2, 2, 3], rfl⟩, ⟨[7], rfl⟩, 0, 3⟩ := by decide +kernel
  have hchild : structSlots nestedLevels innerElement 3 (.zeros 1) = .ok (⟨[0], rfl⟩, 3) := by
    decide
  obtain ⟨slots, hslots, -, -, -, hgaps⟩ :=
    list_agrees_with_child rfl (by decide) rfl rfl hlist hchild
  exact ⟨slots, hslots, hgaps⟩

end Nanom.Columnar
