import Nanom.Columnar.Bits
import Nanom.Common.Bitmap

/-!
# Columnar pages — levels to slots

One leaf's repetition and definition levels say how everything above it nests.
The three kernels are each one scan over the levels: `level_slots` finds the
slots of the leaf, `struct_slots` those of an optional group and `list_slots`
those of a list with the offsets of its elements.

What a scan has come to depends on the entries it has passed, on any levels:
the slots are counted by `isSlot`, the elements by `adds`, and `starts` is how
many elements come before each slot.
-/

namespace Nanom.Columnar

open List

variable {m n : ℕ}

/-- `rep[i]` and `def[i]`, which are only compared. -/
structure Entry where
  rep : ℕ
  defn : ℕ
  deriving DecidableEq

structure DremelNode where
  rEnc : ℕ := 0
  dEnc : ℕ := 0
  defPresent : ℕ := 0
  defElem : ℕ := 0
  repElem : ℕ := 0

/-- `std::int32_t(n)`. -/
def int32 (n : ℕ) : ℤ := Int.bmod n (2 ^ 32)

theorem int32_of_le {n : ℕ} (h : n ≤ int32Max) : int32 n = n := by
  unfold int32Max at h
  exact Int.bmod_eq_of_le (by omega) (by omega)

/-! ## The kernels -/

structure SlotCounts where
  slots : ℕ := 0
  nonNull : ℕ := 0
  deriving DecidableEq

/-- One entry of `level_slots`. -/
def levelStep (slotLevel maxDef : ℕ) (s : SlotCounts × Buffer UInt8 m) (d : ℕ) :
    Except Fault (SlotCounts × Buffer UInt8 m) :=
  if d < slotLevel then return s
  else do
    let bm ← access (s.2.mark (d = maxDef) s.1.slots)
    return (⟨s.1.slots + 1, s.1.nonNull + (decide (d = maxDef)).toNat⟩, bm)

/-- `level_slots`: the counts, and the bitmap. -/
def levelSlots (defs : List ℕ) (slotLevel maxDef : ℕ) (bm : Buffer UInt8 m) :
    Except Fault (SlotCounts × Buffer UInt8 m) :=
  defs.foldlM (levelStep slotLevel maxDef) ({}, bm)

/-- Where `struct_slots` is. -/
structure StructScan (m : ℕ) where
  slots : ℕ
  nulls : ℕ
  validity : Buffer UInt8 m

/-- One entry of `struct_slots`. -/
def structStep (nd : DremelNode) (expected : ℤ) (s : StructScan m) (e : Entry) :
    Except KernelStop (StructScan m) :=
  if nd.rEnc < e.rep ∨ e.defn < nd.dEnc then return s
  else if expected ≤ s.slots then kernelFail "more slots than the parent has"
  else do
    let present := decide (nd.defPresent ≤ e.defn)
    let validity ← unfailing (access (s.validity.mark present s.slots))
    return ⟨s.slots + 1, s.nulls + (!present).toNat, validity⟩

/-- `struct_slots`: the validity bits and how many slots are null. -/
def structSlots (entries : List Entry) (nd : DremelNode) (expected : ℤ)
    (validity : Buffer UInt8 m) : Except KernelStop (Buffer UInt8 m × ℕ) := do
  let s ← entries.foldlM (structStep nd expected) ⟨0, 0, validity⟩
  if s.slots ≠ expected then kernelFail "fewer slots than the parent has"
  else return (s.validity, s.nulls)

/-- Where `list_slots` is. -/
structure ListScan (n m : ℕ) where
  slots : ℕ
  elems : ℕ
  nulls : ℕ
  isOpen : Bool
  offsets : Buffer ℤ n
  validity : Buffer UInt8 m

/-- The check at the end of an entry. -/
def boundElems (s : ListScan n m) : Except KernelStop (ListScan n m) :=
  if int32Max < s.elems then kernelFail "more than 2^31 list elements" else return s

/-- One entry of `list_slots`. An entry of an empty or null ancestor goes
on to the next without the check. -/
def listStep (nd : DremelNode) (expected : ℤ) (s : ListScan n m) (e : Entry) :
    Except KernelStop (ListScan n m) :=
  if e.rep ≤ nd.rEnc then
    if e.defn < nd.dEnc then return { s with isOpen := false }
    else if expected ≤ s.slots then kernelFail "more slots than the parent has"
    else do
      let offsets ← unfailing (access (s.offsets.store s.slots [int32 s.elems]))
      let present := decide (nd.defPresent ≤ e.defn)
      let validity ← unfailing (access (s.validity.mark present s.slots))
      let first := decide (nd.defElem ≤ e.defn)
      boundElems ⟨s.slots + 1, s.elems + first.toNat, s.nulls + (!present).toNat, first,
        offsets, validity⟩
  else if e.rep = nd.repElem then
    if s.isOpen then boundElems { s with elems := s.elems + 1 }
    else kernelFail "an element continues a list that has none"
  else boundElems s

/-- What `list_slots` leaves behind. -/
structure ListSlots (n m : ℕ) where
  offsets : Buffer ℤ n
  validity : Buffer UInt8 m
  nulls : ℕ
  elements : ℕ
  deriving DecidableEq

def listSlots (entries : List Entry) (nd : DremelNode) (expected : ℤ) (offsets : Buffer ℤ n)
    (validity : Buffer UInt8 m) : Except KernelStop (ListSlots n m) := do
  let s ← entries.foldlM (listStep nd expected) ⟨0, 0, 0, false, offsets, validity⟩
  if s.slots ≠ expected then kernelFail "fewer slots than the parent has"
  else do
    let offsets ← unfailing (access (s.offsets.store s.slots [int32 s.elems]))
    return ⟨offsets, s.validity, s.nulls, s.elems⟩

/-! ## What a scan depends on -/

namespace DremelNode

variable (nd : DremelNode)

/-- The entry is a slot of the node. -/
def isSlot (e : Entry) : Bool := e.rep ≤ nd.rEnc && nd.dEnc ≤ e.defn

/-- The slot is not null. -/
def present (e : Entry) : Bool := nd.defPresent ≤ e.defn

/-- The validity bits of the slots. -/
def flags (es : List Entry) : List Bool := (es.filter nd.isSlot).map nd.present

/-- The entry is one more element of the list. -/
def adds (e : Entry) : Bool :=
  if e.rep ≤ nd.rEnc then nd.dEnc ≤ e.defn && nd.defElem ≤ e.defn else e.rep = nd.repElem

/-- Whether the slot that the scan is in has elements. -/
def openAfter (o : Bool) (es : List Entry) : Bool :=
  es.foldl (fun o e => if e.rep ≤ nd.rEnc then nd.adds e else o) o

/-- No element continues a list that has none. -/
def Continues : Bool → List Entry → Prop
  | _, [] => True
  | o, e :: es =>
    (nd.rEnc < e.rep → e.rep = nd.repElem → o = true) ∧ Continues (nd.openAfter o [e]) es

/-- How many elements come before each slot, from a count on. -/
def starts : ℕ → List Entry → List ℕ
  | _, [] => []
  | c, e :: es =>
    if nd.isSlot e then c :: starts (c + (nd.adds e).toNat) es
    else starts (c + (nd.adds e).toNat) es

variable {nd} {o : Bool} {c : ℕ} {a b es : List Entry} {e : Entry}

theorem isSlot_iff : nd.isSlot e = true ↔ e.rep ≤ nd.rEnc ∧ nd.dEnc ≤ e.defn := by
  rw [isSlot, Bool.and_eq_true, decide_eq_true_iff, decide_eq_true_iff]

theorem openAfter_append : nd.openAfter o (a ++ b) = nd.openAfter (nd.openAfter o a) b :=
  foldl_append

theorem continues_append :
    nd.Continues o (a ++ b) ↔ nd.Continues o a ∧ nd.Continues (nd.openAfter o a) b := by
  induction a generalizing o with
  | nil => exact ⟨fun h => ⟨trivial, h⟩, And.right⟩
  | cons e a ih =>
    rw [cons_append, Continues, Continues, ih, and_assoc]
    rfl

theorem countP_one (p : Entry → Bool) : [e].countP p = (p e).toNat := by
  rw [countP_singleton]
  cases p e <;> rfl

theorem countP_head (p : Entry → Bool) : (e :: es).countP p = (p e).toNat + es.countP p := by
  rw [← singleton_append, countP_append, countP_one]

theorem starts_append :
    nd.starts c (a ++ b) = nd.starts c a ++ nd.starts (c + a.countP nd.adds) b := by
  induction a generalizing c with
  | nil => rfl
  | cons e a ih =>
    rw [cons_append, starts, starts, ih, countP_head, add_assoc]
    split <;> rfl

theorem length_starts : (nd.starts c es).length = es.countP nd.isSlot := by
  induction es generalizing c with
  | nil => rfl
  | cons e es ih =>
    rw [starts]
    split
    · rw [length_cons, ih, countP_cons_of_pos ‹_›]
    · rw [ih, countP_cons_of_neg ‹_›]

theorem length_flags : (nd.flags es).length = es.countP nd.isSlot := by
  rw [flags, length_map, countP_eq_length_filter]

theorem flags_snoc_of_slot (es : List Entry) (h : nd.isSlot e = true) :
    nd.flags (es ++ [e]) = nd.flags es ++ [nd.present e] := by
  rw [flags, filter_append, filter_singleton, h, map_append]
  rfl

theorem flags_snoc_of_not (es : List Entry) (h : nd.isSlot e = false) :
    nd.flags (es ++ [e]) = nd.flags es := by
  rw [flags, filter_append, filter_singleton, h, map_append]
  exact append_nil _

end DremelNode

open DremelNode

variable {nd : DremelNode} {es done : List Entry} {e : Entry} {expected : ℤ}
variable {s s' : ListScan n m}

theorem not_slot_iff : nd.isSlot e = false ↔ nd.rEnc < e.rep ∨ e.defn < nd.dEnc := by
  rw [← Bool.not_eq_true, isSlot_iff, not_and_or, not_le, not_le]

theorem access_some {α : Type} {o : Option α} {a : α} (h : o = some a) :
    unfailing (access o) = .ok a := by rw [h]; rfl

theorem some_of_access {α : Type} {o : Option α} {a : α} (h : unfailing (access o) = .ok a) :
    o = some a := by
  cases o with
  | none => cases h
  | some b =>
    cases h
    rfl

theorem countP_snoc_le (p : Entry → Bool) {rest : List Entry} (h : es = done ++ e :: rest) :
    (done ++ [e]).countP p ≤ es.countP p := by
  rw [h, append_cons done e rest]
  exact (sublist_append_left _ _).countP_le

/-! ## Slots of a leaf -/

/-- The validity bits of a leaf. -/
def leafFlags (slotLevel maxDef : ℕ) (defs : List ℕ) : List Bool :=
  (defs.filter fun d => slotLevel ≤ d).map fun d => decide (d = maxDef)

theorem leafFlags_snoc (slotLevel maxDef : ℕ) (defs : List ℕ) (d : ℕ) :
    leafFlags slotLevel maxDef (defs ++ [d])
      = leafFlags slotLevel maxDef defs ++ if d < slotLevel then [] else [decide (d = maxDef)] := by
  rw [leafFlags, filter_append, filter_singleton, map_append]
  by_cases hd : d < slotLevel
  · rw [if_pos hd, decide_eq_false (by omega)]
    rfl
  · rw [if_neg hd, decide_eq_true (by omega)]
    rfl

/-- **`level_slots` marks the slots of a leaf.** -/
theorem levelSlots_eq (slotLevel maxDef : ℕ) {defs : List ℕ} (hroom : defs.length ≤ 8 * m) :
    ∃ bm, levelSlots defs slotLevel maxDef (.zeros m)
        = .ok (⟨(leafFlags slotLevel maxDef defs).length,
            (leafFlags slotLevel maxDef defs).count true⟩, bm) ∧
      Buffer.Marks (leafFlags slotLevel maxDef defs) bm := by
  obtain ⟨⟨c, bm⟩, hrun, hc, hmarks⟩ := foldlM_inv
    (f := levelStep slotLevel maxDef) (l := defs) (a := ({}, Buffer.zeros m))
    (I := fun done s => s.1 = ⟨(leafFlags slotLevel maxDef done).length,
      (leafFlags slotLevel maxDef done).count true⟩ ∧
        Buffer.Marks (leafFlags slotLevel maxDef done) s.2)
    (fun done d rest s hl hI => by
      obtain ⟨⟨slots, nonNull⟩, bm⟩ := s
      obtain ⟨hc, hmarks⟩ := hI
      cases hc
      rw [leafFlags_snoc]
      by_cases hd : d < slotLevel
      · rw [levelStep, if_pos hd, if_pos hd, append_nil]
        exact ⟨_, rfl, rfl, hmarks⟩
      · have hle : (leafFlags slotLevel maxDef done).length ≤ done.length := by
          rw [leafFlags, length_map]
          exact length_filter_le _ _
        rw [hl, length_append, length_cons] at hroom
        obtain ⟨bm', hbm, hmarks'⟩ := hmarks.mark (decide (d = maxDef)) (by omega)
        rw [levelStep, if_neg hd, if_neg hd]
        refine ⟨_, by rw [hbm]; rfl, ?_, hmarks'⟩
        rw [length_append, count_append]
        cases decide (d = maxDef) <;> rfl)
    ⟨rfl, Buffer.marks_zeros m⟩
  dsimp only at hc
  rw [hc] at hrun
  exact ⟨bm, hrun, hmarks⟩

/-! ## Slots of a struct -/

/-- What `struct_slots` has come to behind some entries. -/
structure StructScan.Scanned (nd : DremelNode) (done : List Entry) (s : StructScan m) : Prop where
  slots : s.slots = (nd.flags done).length
  nulls : s.nulls = (nd.flags done).count false
  validity : Buffer.Marks (nd.flags done) s.validity

theorem StructScan.Scanned.step {s : StructScan m} (h : s.Scanned nd done)
    (hexp : ((done ++ [e]).countP nd.isSlot : ℤ) ≤ expected)
    (hroom : (done ++ [e]).countP nd.isSlot ≤ 8 * m) :
    ∃ s', structStep nd expected s e = .ok s' ∧ s'.Scanned nd (done ++ [e]) := by
  cases hslot : nd.isSlot e with
  | false =>
    refine ⟨s, by rw [structStep, if_pos (not_slot_iff.1 hslot)]; rfl, ?_⟩
    have hflags := flags_snoc_of_not done hslot
    exact ⟨hflags ▸ h.slots, hflags ▸ h.nulls, hflags ▸ h.validity⟩
  | true =>
    have hcount : (done ++ [e]).countP nd.isSlot = s.slots + 1 := by
      rw [h.slots, length_flags, countP_append, countP_one, hslot]
      rfl
    have hnot : ¬ (nd.rEnc < e.rep ∨ e.defn < nd.dEnc) := fun hor => by
      rw [not_slot_iff.2 hor] at hslot
      cases hslot
    have hflags := flags_snoc_of_slot done hslot
    obtain ⟨v, hv, hmarks⟩ := h.validity.mark (nd.present e) (by rw [← h.slots]; omega)
    rw [← h.slots] at hv
    refine ⟨⟨s.slots + 1, s.nulls + (!nd.present e).toNat, v⟩, ?_, ?_, ?_, ?_⟩
    · rw [structStep, if_neg hnot, if_neg (by omega)]
      dsimp only
      rw [← present, access_some hv]
      rfl
    · rw [hflags, length_append, ← h.slots]
      rfl
    · rw [hflags, count_append, ← h.nulls]
      cases nd.present e <;> rfl
    · rw [hflags]
      exact hmarks

/-- **`struct_slots` marks the slots of a struct**, if the parent has as
many. -/
theorem structSlots_eq (nd : DremelNode) (hroom : es.countP nd.isSlot ≤ 8 * m) :
    ∃ v, structSlots es nd (es.countP nd.isSlot) (.zeros m)
        = .ok (v, (nd.flags es).count false) ∧ Buffer.Marks (nd.flags es) v := by
  obtain ⟨s, hrun, hs⟩ := foldlM_inv (f := structStep nd (es.countP nd.isSlot)) (l := es)
    (a := ⟨0, 0, .zeros m⟩) (I := fun done s => s.Scanned nd done)
    (fun done e rest s hl hI => by
      have hle := countP_snoc_le nd.isSlot hl
      exact hI.step (by exact_mod_cast hle) (le_trans hle hroom))
    ⟨rfl, rfl, Buffer.marks_zeros m⟩
  have hslots : s.slots = es.countP nd.isSlot := hs.slots.trans length_flags
  refine ⟨s.validity, ?_, hs.validity⟩
  rw [structSlots, hrun, ok_bind, hslots, if_neg (not_not_intro rfl), hs.nulls]
  rfl

theorem count_of_structSlots {v : Buffer UInt8 m} {r : Buffer UInt8 m × ℕ}
    (h : structSlots es nd expected v = .ok r) : expected = es.countP nd.isSlot := by
  obtain ⟨s, hrun, h⟩ := bind_eq_ok.1 h
  obtain ⟨hall, -⟩ := check_eq_ok.1 h
  rw [← not_not.1 hall]
  refine congrArg Nat.cast
    (foldlM_ok_inv (I := fun done s => s.slots = done.countP nd.isSlot) ?_ rfl hrun)
  intro done e s s' hI hstep
  rw [countP_append, countP_one, ← hI]
  rw [structStep] at hstep
  by_cases hout : nd.rEnc < e.rep ∨ e.defn < nd.dEnc
  · rw [if_pos hout] at hstep
    cases hstep
    rw [not_slot_iff.2 hout]
    rfl
  · rw [if_neg hout] at hstep
    obtain ⟨-, hstep⟩ := check_eq_ok.1 hstep
    obtain ⟨b, -, hstep⟩ := bind_eq_ok.1 hstep
    cases hstep
    rw [Bool.of_not_eq_false (mt not_slot_iff.1 hout)]
    rfl

/-! ## Slots of a list -/

/-- The offsets behind a store are those before it and what it stored. -/
theorem take_stored {b b' : Buffer ℤ n} {k : ℕ} {x : ℤ} (h : b.store k [x] = some b') :
    b'.elems.take (k + 1) = b.elems.take k ++ [x] := by
  have hroom : k + [x].length ≤ n := by
    by_contra hout
    rw [Buffer.store, dif_neg hout] at h
    cases h
  obtain ⟨b₁, hb₁, htake⟩ := Buffer.take_store (b := b) (k := 1) hroom (le_refl 1)
  obtain rfl : b₁ = b' := Option.some_inj.1 (hb₁.symm.trans h)
  exact htake

/-- What `list_slots` has come to behind some entries, if it has not
stopped. -/
structure ListScan.Scanned (nd : DremelNode) (done : List Entry) (s : ListScan n m) : Prop where
  slots : s.slots = done.countP nd.isSlot
  elems : s.elems = done.countP nd.adds
  isOpen : s.isOpen = nd.openAfter false done
  continues : nd.Continues false done
  offsets : s.offsets.elems.take s.slots = (nd.starts 0 done).map int32
  elems_le : s.elems ≤ int32Max

theorem boundElems_ok (h : boundElems s = .ok s') : s' = s ∧ s.elems ≤ int32Max := by
  obtain ⟨hle, h⟩ := check_eq_ok.1 h
  cases h
  exact ⟨rfl, Nat.le_of_not_lt hle⟩

/-- **One entry of `list_slots`**, if it does not stop: what it is, and
what it does. -/
theorem listStep_cases (h : listStep nd expected s e = .ok s') :
    (e.rep ≤ nd.rEnc ∧ e.defn < nd.dEnc ∧ s' = { s with isOpen := false }) ∨
    (e.rep ≤ nd.rEnc ∧ nd.dEnc ≤ e.defn ∧ s'.elems ≤ int32Max ∧ ∃ offsets validity,
      s.offsets.store s.slots [int32 s.elems] = some offsets ∧
      s' = ⟨s.slots + 1, s.elems + (decide (nd.defElem ≤ e.defn)).toNat,
        s.nulls + (!nd.present e).toNat, decide (nd.defElem ≤ e.defn), offsets, validity⟩) ∨
    (nd.rEnc < e.rep ∧ e.rep = nd.repElem ∧ s.isOpen = true ∧ s.elems + 1 ≤ int32Max ∧
      s' = { s with elems := s.elems + 1 }) ∨
    (nd.rEnc < e.rep ∧ e.rep ≠ nd.repElem ∧ s' = s) := by
  rw [listStep] at h
  by_cases hrep : e.rep ≤ nd.rEnc
  · rw [if_pos hrep] at h
    by_cases hdef : e.defn < nd.dEnc
    · rw [if_pos hdef] at h
      cases h
      exact .inl ⟨hrep, hdef, rfl⟩
    rw [if_neg hdef] at h
    obtain ⟨-, h⟩ := check_eq_ok.1 h
    obtain ⟨offsets, hstore, h⟩ := bind_eq_ok.1 h
    obtain ⟨validity, -, h⟩ := bind_eq_ok.1 h
    obtain ⟨rfl, hle⟩ := boundElems_ok h
    exact .inr (.inl ⟨hrep, by omega, hle, offsets, validity, some_of_access hstore, rfl⟩)
  · rw [if_neg hrep] at h
    by_cases helem : e.rep = nd.repElem
    · rw [if_pos helem] at h
      cases hopen : s.isOpen with
      | false => rw [hopen, if_neg Bool.false_ne_true] at h; cases h
      | true =>
        rw [hopen] at h
        obtain ⟨rfl, hle⟩ := boundElems_ok h
        exact .inr (.inr (.inl ⟨by omega, helem, rfl, hle, by rw [← hopen]⟩))
    · rw [if_neg helem] at h
      obtain ⟨rfl, -⟩ := boundElems_ok h
      exact .inr (.inr (.inr ⟨by omega, helem, rfl⟩))

theorem ListScan.Scanned.snoc (h : s.Scanned nd done)
    (hslots : s'.slots = s.slots + (nd.isSlot e).toNat)
    (helems : s'.elems = s.elems + (nd.adds e).toNat)
    (hopen : s'.isOpen = if e.rep ≤ nd.rEnc then nd.adds e else s.isOpen)
    (hcont : nd.rEnc < e.rep → e.rep = nd.repElem → s.isOpen = true)
    (hoffsets : s'.offsets.elems.take s'.slots
      = s.offsets.elems.take s.slots ++ if nd.isSlot e then [int32 s.elems] else [])
    (hle : s'.elems ≤ int32Max) : s'.Scanned nd (done ++ [e]) where
  slots := by rw [hslots, h.slots, countP_append, countP_one]
  elems := by rw [helems, h.elems, countP_append, countP_one]
  isOpen := by rw [hopen, h.isOpen, DremelNode.openAfter_append]; rfl
  continues := continues_append.2 ⟨h.continues, h.isOpen ▸ hcont, trivial⟩
  offsets := by
    rw [hoffsets, h.offsets, DremelNode.starts_append, map_append, zero_add, ← h.elems]
    rw [starts]
    split <;> rfl
  elems_le := hle

/-- **What one entry preserves.** -/
theorem ListScan.Scanned.step (h : s.Scanned nd done)
    (hstep : listStep nd expected s e = .ok s') : s'.Scanned nd (done ++ [e]) := by
  rcases listStep_cases hstep with ⟨hrep, hdef, rfl⟩ |
    ⟨hrep, hdef, hle, offsets, validity, hstore, rfl⟩ | ⟨hrep, helem, hopen, hle, rfl⟩ |
    ⟨hrep, helem, rfl⟩
  · have hslot : nd.isSlot e = false := not_slot_iff.2 (.inr hdef)
    have hadds : nd.adds e = false := by
      rw [adds, if_pos hrep, decide_eq_false (not_le.2 hdef), Bool.false_and]
    refine h.snoc (by rw [hslot]; rfl) (by rw [hadds]; rfl) (by rw [if_pos hrep, hadds]) (by omega)
      ?_ h.elems_le
    rw [hslot, if_neg Bool.false_ne_true, append_nil]
  · have hslot : nd.isSlot e = true := isSlot_iff.2 ⟨hrep, hdef⟩
    have hadds : nd.adds e = decide (nd.defElem ≤ e.defn) := by
      rw [adds, if_pos hrep, decide_eq_true hdef, Bool.true_and]
    refine h.snoc (by rw [hslot]; rfl) (by rw [hadds]) (by rw [if_pos hrep, hadds]) (by omega)
      ?_ hle
    rw [hslot]
    exact take_stored hstore
  · have hslot : nd.isSlot e = false := not_slot_iff.2 (.inl hrep)
    have hadds : nd.adds e = true := by rw [adds, if_neg (by omega), decide_eq_true helem]
    refine h.snoc (by rw [hslot]; rfl) (by rw [hadds]; rfl) (by rw [if_neg (by omega)])
      (fun _ _ => hopen) ?_ hle
    rw [hslot, if_neg Bool.false_ne_true, append_nil]
  · have hslot : nd.isSlot e = false := not_slot_iff.2 (.inl hrep)
    have hadds : nd.adds e = false := by rw [adds, if_neg (by omega), decide_eq_false helem]
    refine h.snoc (by rw [hslot]; rfl) (by rw [hadds]; rfl) (by rw [if_neg (by omega)])
      (fun _ he => absurd he helem) ?_ h.elems_le
    rw [hslot, if_neg Bool.false_ne_true, append_nil]

theorem scanned_start (nd : DremelNode) (offsets : Buffer ℤ n) (validity : Buffer UInt8 m) :
    ListScan.Scanned nd [] ⟨0, 0, 0, false, offsets, validity⟩ :=
  ⟨rfl, rfl, rfl, trivial, rfl, Nat.zero_le _⟩

/-- What `list_slots` says of the entries when it has a result. -/
structure ListSlots.Describes (nd : DremelNode) (es : List Entry) (expected : ℤ)
    (r : ListSlots n m) : Prop where
  expected : expected = es.countP nd.isSlot
  continues : nd.Continues false es
  elements : r.elements = es.countP nd.adds
  elements_le : r.elements ≤ int32Max
  offsets : r.offsets.elems.take (es.countP nd.isSlot + 1)
    = (nd.starts 0 es ++ [r.elements]).map int32

/-- **What `list_slots` comes to on any levels**, if it has a result. -/
theorem describes_of_listSlots {offsets : Buffer ℤ n} {validity : Buffer UInt8 m}
    {r : ListSlots n m} (h : listSlots es nd expected offsets validity = .ok r) :
    r.Describes nd es expected := by
  obtain ⟨s, hrun, h⟩ := bind_eq_ok.1 h
  obtain ⟨hall, h⟩ := check_eq_ok.1 h
  obtain ⟨b, hstore, h⟩ := bind_eq_ok.1 h
  cases h
  have hs : s.Scanned nd es := foldlM_ok_inv (I := fun done s => s.Scanned nd done)
    (fun _ _ _ _ hI hstep => hI.step hstep) (scanned_start nd offsets validity) hrun
  refine ⟨by rw [← not_not.1 hall, hs.slots], hs.continues, hs.elems, hs.elems_le, ?_⟩
  rw [← hs.slots, take_stored (some_of_access hstore), hs.offsets, map_append]
  rfl

theorem boundElems_of_le (h : s.elems ≤ int32Max) : boundElems s = .ok s := by
  rw [boundElems, if_neg (not_lt.2 h)]
  rfl

theorem ListScan.Scanned.progress (h : s.Scanned nd done)
    (hmarks : Buffer.Marks (nd.flags done) s.validity)
    (hnulls : s.nulls = (nd.flags done).count false)
    (hcont : nd.Continues false (done ++ [e])) (hsmall : (done ++ [e]).countP nd.adds ≤ int32Max)
    (hexp : ((done ++ [e]).countP nd.isSlot : ℤ) ≤ expected)
    (hroom : (done ++ [e]).countP nd.isSlot ≤ 8 * m) (hoff : (done ++ [e]).countP nd.isSlot ≤ n) :
    ∃ s', listStep nd expected s e = .ok s' ∧ Buffer.Marks (nd.flags (done ++ [e])) s'.validity ∧
      s'.nulls = (nd.flags (done ++ [e])).count false := by
  rw [countP_append, countP_one] at hsmall hexp hroom hoff
  rw [← h.slots] at hexp hroom hoff
  rw [← h.elems] at hsmall
  by_cases hrep : e.rep ≤ nd.rEnc
  · by_cases hdef : e.defn < nd.dEnc
    · rw [listStep, if_pos hrep, if_pos hdef,
        flags_snoc_of_not done (not_slot_iff.2 (.inr hdef))]
      exact ⟨_, rfl, hmarks, hnulls⟩
    · have hslot : nd.isSlot e = true := isSlot_iff.2 ⟨hrep, by omega⟩
      have hadds : nd.adds e = decide (nd.defElem ≤ e.defn) := by
        rw [adds, if_pos hrep, decide_eq_true (by omega), Bool.true_and]
      rw [hslot, Bool.toNat_true] at hexp hroom hoff
      rw [hadds] at hsmall
      have hlen : s.slots = (nd.flags done).length := h.slots.trans length_flags.symm
      obtain ⟨v, hv, hmarks'⟩ := hmarks.mark (nd.present e) (by rw [← hlen]; omega)
      obtain ⟨b, hb, -⟩ := s.offsets.exists_store s.slots [int32 s.elems] hoff
      rw [← hlen] at hv
      rw [listStep, if_pos hrep, if_neg hdef, if_neg (by omega), access_some hb, ok_bind]
      dsimp only
      rw [← present, access_some hv, ok_bind, boundElems_of_le hsmall,
        flags_snoc_of_slot done hslot]
      refine ⟨_, rfl, hmarks', ?_⟩
      rw [count_append, ← hnulls]
      cases nd.present e <;> rfl
  · have hslot : nd.isSlot e = false := not_slot_iff.2 (.inl (by omega))
    rw [listStep, if_neg hrep, flags_snoc_of_not done hslot]
    by_cases helem : e.rep = nd.repElem
    · have hadds : nd.adds e = true := by rw [adds, if_neg hrep, decide_eq_true helem]
      have hopen : s.isOpen = true := by
        rw [h.isOpen]
        exact (continues_append.1 hcont).2.1 (by omega) helem
      rw [hadds] at hsmall
      rw [if_pos helem, if_pos hopen, boundElems_of_le hsmall]
      exact ⟨_, rfl, hmarks, hnulls⟩
    · rw [if_neg helem, boundElems_of_le h.elems_le]
      exact ⟨_, rfl, hmarks, hnulls⟩

/-- **`list_slots` has a result** on levels in which every element
continues a list, if the parent has as many slots. -/
theorem listSlots_eq (offsets : Buffer ℤ n) (hcont : nd.Continues false es)
    (hsmall : es.countP nd.adds ≤ int32Max) (hroom : es.countP nd.isSlot ≤ 8 * m)
    (hoff : es.countP nd.isSlot < n) :
    ∃ r, listSlots es nd (es.countP nd.isSlot) offsets (.zeros m) = .ok r ∧
      Buffer.Marks (nd.flags es) r.validity ∧ r.nulls = (nd.flags es).count false := by
  obtain ⟨s, hrun, hs, hmarks, hnulls⟩ := foldlM_inv (l := es)
    (f := listStep nd (es.countP nd.isSlot)) (a := ⟨0, 0, 0, false, offsets, .zeros m⟩)
    (I := fun done s => s.Scanned nd done ∧ Buffer.Marks (nd.flags done) s.validity ∧
      s.nulls = (nd.flags done).count false)
    (fun done e rest s hl ⟨hI, hmarks, hnulls⟩ => by
      have hslots := countP_snoc_le nd.isSlot hl
      have hadds := countP_snoc_le nd.adds hl
      rw [hl, append_cons] at hcont
      obtain ⟨s', hstep, hmarks', hnulls'⟩ := hI.progress hmarks hnulls
        (continues_append.1 hcont).1 (by omega) (Int.ofNat_le.2 hslots)
        (by omega) (by omega)
      exact ⟨s', hstep, hI.step hstep, hmarks', hnulls'⟩)
    ⟨scanned_start nd offsets _, Buffer.marks_zeros m, rfl⟩
  obtain ⟨b, hb, -⟩ := s.offsets.exists_store s.slots [int32 s.elems]
    (by rw [hs.slots]; exact hoff)
  refine ⟨⟨b, s.validity, s.nulls, s.elems⟩, ?_, hmarks, hnulls⟩
  rw [listSlots, hrun, ok_bind, if_neg (by rw [hs.slots]; exact not_not_intro rfl), access_some hb]
  rfl

end Nanom.Columnar
