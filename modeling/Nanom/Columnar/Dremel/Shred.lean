import Nanom.Columnar.Dremel.Consistency

/-!
# Columnar pages — shredding and assembly

A record column is stored as its leaves, and a leaf's levels are all that is
left of the structure above it. `Path` is the way from a record down to one leaf
through optional structs and lists, `shred` is the standard rule for the levels
of a value along it, and the Arrow side is what a node is to come out as: its
slots, which of them are null, and where the elements of each list begin.

`Lays` says how the entries of a leaf lie at one of the nodes above it. It goes
from a node to its child (`Lays.fields`, `Lays.elements`), and at each node it
says what the kernel finds.
-/

namespace Nanom.Columnar

open DremelNode (countP_head countP_one flags isSlot_iff length_flags offsetsFrom_cons starts)

open List Nat

variable {e : Entry} {rep : ℕ} {tail : List Entry}
variable {α : Type}

/-- The way from a record to a leaf, which may be optional too. -/
inductive Path
  | leaf (optional : Bool)
  | struct (child : Path)
  | list (child : Path)

namespace Path

/-- The values of a node. -/
def Value (α : Type) : Path → Type
  | leaf true => Option α
  | leaf false => α
  | struct p => Option (p.Value α)
  | list p => Option (List (p.Value α))

/-- **The levels of a value**, by the standard rule: `rep` is the
repetition level of its first entry, `r` that of the list around it and `d`
the definition level that its ancestors have come to. An empty list and a
null one have an entry of their own. -/
def shred : (p : Path) → p.Value α → (rep r d : ℕ) → List Entry
  | leaf true, v, rep, _, d =>
    match (v : Option α) with
    | none => [⟨rep, d⟩]
    | some _ => [⟨rep, d + 1⟩]
  | leaf false, _, rep, _, d => [⟨rep, d⟩]
  | struct p, v, rep, r, d =>
    match (v : Option (p.Value α)) with
    | none => [⟨rep, d⟩]
    | some x => p.shred x rep r (d + 1)
  | list p, v, rep, r, d =>
    match (v : Option (List (p.Value α))) with
    | none => [⟨rep, d⟩]
    | some [] => [⟨rep, d + 1⟩]
    | some (x :: xs) =>
      p.shred x rep (r + 1) (d + 2) ++ xs.flatMap fun y => p.shred y (r + 1) (r + 1) (d + 2)

/-- The levels of a column of records. -/
def shredAll (p : Path) (records : List (p.Value α)) : List Entry :=
  records.flatMap fun v => p.shred v 0 0 0

end Path

/-! ## Nodes and their levels -/

/-- The levels at a node: those of the list around it, and the definition
level that its ancestors come to. -/
structure Levels where
  rEnc : ℕ
  dEnc : ℕ
  d : ℕ
  enc_le : dEnc ≤ d

namespace Levels

/-- At the top. -/
def top : Levels := ⟨0, 0, 0, le_refl 0⟩

/-- Inside a struct. -/
def field (l : Levels) : Levels := ⟨l.rEnc, l.dEnc, l.d + 1, Nat.le_succ_of_le l.enc_le⟩

/-- Inside a list. -/
def element (l : Levels) : Levels := ⟨l.rEnc + 1, l.d + 2, l.d + 2, le_refl _⟩

/-- The `dremel_node` of a struct. -/
def structNode (l : Levels) : DremelNode where
  rEnc := l.rEnc
  dEnc := l.dEnc
  defPresent := l.d + 1

/-- The `dremel_node` of a list. -/
def listNode (l : Levels) : DremelNode where
  rEnc := l.rEnc
  dEnc := l.dEnc
  defPresent := l.d + 1
  defElem := l.d + 2
  repElem := l.rEnc + 1

/-- The definition level of a leaf's value. -/
def maxDef (l : Levels) (optional : Bool) : ℕ := l.d + optional.toNat

end Levels

/-! ## The Arrow side -/

namespace Path

/-- The slots of a node. Where a struct is null, what is in it still has a
slot, with no value. -/
abbrev Slots (α : Type) (p : Path) : Type := List (Option (p.Value α))

/-- The slots of a struct's child. -/
def fields {p : Path} (s : Slots α (struct p)) : Slots α p :=
  s.map fun v => (v : Option (Option (p.Value α))).join

/-- The list in a slot: a null one has no elements. -/
def items {p : Path} (v : Option ((list p).Value α)) : List (p.Value α) :=
  ((v : Option (Option (List (p.Value α)))).join).getD []

/-- The slots of a list's child. -/
def elements {p : Path} (s : Slots α (list p)) : Slots α p :=
  s.flatMap fun v => (items v).map some

/-- A slot that is not null. -/
def valid : {p : Path} → Option (p.Value α) → Bool
  | leaf true, v => ((v : Option (Option α)).join).isSome
  | leaf false, v => (v : Option α).isSome
  | struct p, v => ((v : Option (Option (p.Value α))).join).isSome
  | list p, v => ((v : Option (Option (List (p.Value α)))).join).isSome

/-- Which slots are not null. -/
def validity {p : Path} (s : Slots α p) : List Bool := s.map valid

/-- Where the elements of each slot begin, and where those of the last
end. -/
def offsets {p : Path} (s : Slots α (list p)) : List ℕ :=
  (s.map fun v => (items v).length).scanl (· + ·) 0

/-- `P` at a node and at all those below it, each with its levels and its
slots. -/
def EveryNode (P : (q : Path) → Levels → Slots α q → Prop) : (p : Path) → Levels → Slots α p → Prop
  | leaf o, l, s => P (leaf o) l s
  | struct p, l, s => P (struct p) l s ∧ p.EveryNode P l.field (fields s)
  | list p, l, s => P (list p) l s ∧ p.EveryNode P l.element (elements s)

end Path

/-! ## How the entries lie at a node -/

variable {p : Path} {l : Levels} {s : p.Slots α} {es : List Entry}

/-- The entries of a leaf, at a node above it: those of lists further up
that have no element there, those of a struct above it that is null, and
those of the values. -/
inductive Lays (l : Levels) (p : Path) : p.Slots α → List Entry → Prop
  | nil : Lays l p [] []
  | skip {e : Entry} {s : p.Slots α} {es : List Entry} :
      e.rep ≤ l.rEnc → e.defn < l.dEnc → Lays l p s es → Lays l p s (e :: es)
  | absent {e : Entry} {s : p.Slots α} {es : List Entry} :
      e.rep ≤ l.rEnc → l.dEnc ≤ e.defn → e.defn < l.d → Lays l p s es →
      Lays l p (none :: s) (e :: es)
  | slot {v : p.Value α} {rep : ℕ} {s : p.Slots α} {es : List Entry} :
      rep ≤ l.rEnc → Lays l p s es →
      Lays l p (some v :: s) (p.shred v rep l.rEnc l.d ++ es)

theorem lays_append (hrep : rep ≤ l.rEnc) (xs : List (p.Value α)) (h : Lays l p s es) :
    Lays l p (xs.map some ++ s) ((xs.flatMap fun y => p.shred y rep l.rEnc l.d) ++ es) := by
  induction xs with
  | nil => exact h
  | cons x xs ih =>
    rw [flatMap_cons, append_assoc]
    exact .slot hrep ih

theorem lays_top (p : Path) (records : List (p.Value α)) :
    Lays .top p (records.map some) (p.shredAll records) := by
  have h := lays_append (l := .top) (le_refl 0) records .nil
  rw [append_nil, append_nil] at h
  exact h

theorem Lays.fields {s : Path.Slots α (.struct p)} (h : Lays l (.struct p) s es) :
    Lays l.field p (Path.fields s) es := by
  induction h with
  | nil => exact .nil
  | skip hrep hdef _ ih => exact .skip hrep hdef ih
  | absent hrep henc hdef _ ih => exact .absent hrep henc (lt_succ_of_lt hdef) ih
  | @slot v rep s es hrep _ ih =>
    cases v with
    | none => exact .absent hrep l.enc_le (lt_succ_self l.d) ih
    | some x => exact .slot hrep ih

theorem Lays.elements {s : Path.Slots α (.list p)} (h : Lays l (.list p) s es) :
    Lays l.element p (Path.elements s) es := by
  have henc := l.enc_le
  have hd : l.element.dEnc = l.d + 2 := rfl
  have hr : l.element.rEnc = l.rEnc + 1 := rfl
  induction h with
  | nil => exact .nil
  | skip hrep hdef _ ih | absent hrep _ hdef _ ih => exact .skip (by omega) (by omega) ih
  | @slot v rep s es hrep _ ih =>
    match v with
    | none => exact .skip (le_succ_of_le hrep) (by show l.d < l.d + 2; omega) ih
    | some [] => exact .skip (le_succ_of_le hrep) (by show l.d + 1 < l.d + 2; omega) ih
    | some (x :: xs) =>
      have hxs := lays_append (le_refl _) xs ih
      have hx := Lays.slot (v := x) (le_succ_of_le hrep : rep ≤ l.element.rEnc) hxs
      rw [← append_assoc] at hx
      exact hx

/-- **The entries of a value**: the first has the repetition level it was
given and reaches the definition level, and the others belong to lists
inside it. -/
theorem shred_shape (p : Path) (v : p.Value α) (rep r d : ℕ) :
    ∃ e tail, p.shred v rep r d = e :: tail ∧ e.rep = rep ∧ d ≤ e.defn ∧ ∀ t ∈ tail, r < t.rep := by
  induction p generalizing rep r d with
  | leaf o =>
    have hnil : ∀ t ∈ ([] : List Entry), r < t.rep := fun t ht => by cases ht
    match o, v with
    | false, _ | true, none => exact ⟨⟨rep, d⟩, [], rfl, rfl, le_refl d, hnil⟩
    | true, some _ => exact ⟨⟨rep, d + 1⟩, [], rfl, rfl, le_succ d, hnil⟩
  | struct p ih =>
    match v with
    | none => exact ⟨⟨rep, d⟩, [], rfl, rfl, le_refl d, fun t ht => by cases ht⟩
    | some x =>
      obtain ⟨e, tail, he, hrep, hdef, htail⟩ := ih x rep r (d + 1)
      exact ⟨e, tail, he, hrep, le_of_succ_le hdef, htail⟩
  | list p ih =>
    match v with
    | none => exact ⟨⟨rep, d⟩, [], rfl, rfl, le_refl d, fun t ht => by cases ht⟩
    | some [] => exact ⟨⟨rep, d + 1⟩, [], rfl, rfl, le_succ d, fun t ht => by cases ht⟩
    | some (x :: xs) =>
      obtain ⟨e, tail, he, hrep, hdef, htail⟩ := ih x rep (r + 1) (d + 2)
      refine ⟨e, tail ++ xs.flatMap fun y => p.shred y (r + 1) (r + 1) (d + 2), ?_, hrep,
        by omega, fun t ht => ?_⟩
      · rw [← cons_append, ← he]
        rfl
      · rcases mem_append.1 ht with ht | ht
        · have := htail t ht
          omega
        · obtain ⟨y, -, hy⟩ := mem_flatMap.1 ht
          obtain ⟨e', tail', he', hrep', -, htail'⟩ := ih y (r + 1) (r + 1) (d + 2)
          rw [he'] at hy
          rcases mem_cons.1 hy with rfl | hy
          · omega
          · have := htail' t hy
            omega

/-! ## What the kernels find -/

variable {nd : DremelNode}

theorem flags_cons (nd : DremelNode) (e : Entry) (es : List Entry) :
    nd.flags (e :: es) = (if nd.isSlot e then [nd.present e] else []) ++ nd.flags es := by
  rw [flags, filter_cons]
  split <;> rfl

theorem isSlot_of_lt (h : nd.rEnc < e.rep) : nd.isSlot e = false := not_slot_iff.2 (.inl h)

theorem flags_of_lt (h : ∀ t ∈ tail, nd.rEnc < t.rep) : nd.flags (tail ++ es) = nd.flags es := by
  induction tail with
  | nil => rfl
  | cons t tail ih =>
    rw [cons_append, flags_cons, isSlot_of_lt (h t mem_cons_self)]
    exact ih (forall_mem_cons.1 h).2

/-- **A node's slots and which of them are null.** -/
theorem Lays.flags (h : Lays l p s es) (hr : nd.rEnc = l.rEnc) (hd : nd.dEnc = l.dEnc)
    (hp : nd.defPresent = l.d + 1) (hnone : Path.valid (none : Option (p.Value α)) = false)
    (hsome : ∀ (v : p.Value α) (rep : ℕ) (e : Entry) (tail : List Entry),
      p.shred v rep l.rEnc l.d = e :: tail → nd.present e = Path.valid (some v)) :
    nd.flags es = Path.validity s := by
  have henc := l.enc_le
  induction h with
  | nil => rfl
  | @skip e s es hrep hdef _ ih =>
    rw [flags_cons, not_slot_iff.2 (.inr (by omega))]
    exact ih
  | @absent e s es hrep hdef hlt _ ih =>
    have hpresent : nd.present e = false := decide_eq_false (by omega)
    rw [flags_cons, isSlot_iff.2 ⟨by omega, by omega⟩, hpresent, ih, ← hnone]
    rfl
  | @slot v rep s es hrep _ ih =>
    obtain ⟨e, tail, he, hre, hde, htail⟩ := shred_shape p v rep l.rEnc l.d
    rw [← hr] at htail
    rw [he, cons_append, flags_cons, isSlot_iff.2 ⟨by omega, by omega⟩,
      flags_of_lt htail, ih, hsome v rep e tail he]
    rfl

theorem Lays.flags_struct {s : Path.Slots α (.struct p)} (h : Lays l (.struct p) s es) :
    l.structNode.flags es = Path.validity s := by
  refine h.flags rfl rfl rfl rfl fun v rep e tail he => ?_
  match v with
  | none =>
    obtain ⟨rfl, -⟩ := cons.inj he
    exact decide_eq_false (not_succ_le_self l.d)
  | some x =>
    obtain ⟨e', tail', he', -, hde, -⟩ := shred_shape p x rep l.rEnc (l.d + 1)
    obtain ⟨rfl, -⟩ := cons.inj (he.symm.trans he')
    exact decide_eq_true hde

theorem le_defn_of_items {x : p.Value α} {xs : List (p.Value α)} {r d : ℕ}
    (he : (Path.list p).shred (some (x :: xs)) rep r d = e :: tail) : d + 2 ≤ e.defn := by
  obtain ⟨e', tail', he', -, hde, -⟩ := shred_shape p x rep (r + 1) (d + 2)
  have hcons : e' :: (tail' ++ xs.flatMap fun y => p.shred y (r + 1) (r + 1) (d + 2))
      = e :: tail := by
    rw [← cons_append, ← he', ← he]
    rfl
  obtain ⟨rfl, -⟩ := cons.inj hcons
  exact hde

theorem Lays.flags_list {s : Path.Slots α (.list p)} (h : Lays l (.list p) s es) :
    l.listNode.flags es = Path.validity s := by
  refine h.flags rfl rfl rfl rfl fun v rep e tail he => ?_
  match v with
  | none =>
    obtain ⟨rfl, -⟩ := cons.inj he
    exact decide_eq_false (not_succ_le_self l.d)
  | some [] =>
    obtain ⟨rfl, -⟩ := cons.inj he
    exact decide_eq_true (le_refl _)
  | some (x :: xs) => exact decide_eq_true (le_of_succ_le (le_defn_of_items he))

theorem shred_leaf {o : Bool} (v : Path.Value α (.leaf o)) (l : Levels) (rep : ℕ) :
    ∃ d, (Path.leaf o).shred v rep l.rEnc l.d = [⟨rep, d⟩] ∧ l.d ≤ d ∧
      decide (d = l.maxDef o) = Path.valid (some v) :=
  match o, v with
  | false, _ => ⟨l.d, rfl, le_refl _, decide_eq_true rfl⟩
  | true, none => ⟨l.d, rfl, le_refl _, decide_eq_false (Nat.ne_of_lt (lt_succ_self _))⟩
  | true, some _ => ⟨l.d + 1, rfl, le_succ _, decide_eq_true rfl⟩

theorem leafFlags_cons (slotLevel maxDef d : ℕ) (ds : List ℕ) :
    leafFlags slotLevel maxDef (d :: ds)
      = (if d < slotLevel then [] else [decide (d = maxDef)]) ++ leafFlags slotLevel maxDef ds := by
  rw [leafFlags, filter_cons]
  by_cases hd : d < slotLevel
  · rw [if_pos hd, decide_eq_false (by omega)]
    rfl
  · rw [if_neg hd, decide_eq_true (by omega)]
    rfl

theorem Lays.leafFlags {o : Bool} {s : Path.Slots α (.leaf o)} (h : Lays l (.leaf o) s es) :
    leafFlags l.dEnc (l.maxDef o) (es.map Entry.defn) = Path.validity s := by
  have henc := l.enc_le
  have hmax : l.maxDef o = l.d + o.toNat := rfl
  induction h with
  | nil => rfl
  | skip hrep hdef _ ih =>
    rw [map_cons, leafFlags_cons, if_pos hdef]
    exact ih
  | absent hrep hdef hlt _ ih =>
    rw [map_cons, leafFlags_cons, if_neg (by omega), decide_eq_false (by omega), ih]
    cases o <;> rfl
  | @slot v rep s es hrep _ ih =>
    obtain ⟨d, hd, hle, hvalid⟩ := shred_leaf v l rep
    rw [hd, singleton_append, map_cons, leafFlags_cons, hvalid, ih,
      if_neg (not_lt.2 (le_trans henc hle))]
    rfl

/-! ## The elements of a list -/

theorem adds_listNode_of_le (h : e.rep ≤ l.rEnc) :
    l.listNode.adds e = decide (l.d + 2 ≤ e.defn) := by
  refine (if_pos h).trans ?_
  by_cases hd : l.d + 2 ≤ e.defn
  · have henc : l.dEnc ≤ e.defn := le_trans l.enc_le (by omega)
    rw [decide_eq_true hd]
    exact Bool.and_eq_true_iff.2 ⟨decide_eq_true henc, decide_eq_true hd⟩
  · rw [decide_eq_false hd]
    exact Bool.and_eq_false_iff.2 (.inr (decide_eq_false hd))

theorem adds_listNode_of_lt (h : l.rEnc < e.rep) :
    l.listNode.adds e = decide (e.rep = l.rEnc + 1) := DremelNode.adds_of_lt h

theorem countP_adds_shred (x : p.Value α) (hrep : rep ≤ l.rEnc + 1) :
    (p.shred x rep (l.rEnc + 1) (l.d + 2)).countP l.listNode.adds = 1 := by
  obtain ⟨e, tail, he, hre, hde, htail⟩ := shred_shape p x rep (l.rEnc + 1) (l.d + 2)
  have hhead : l.listNode.adds e = true := by
    by_cases hle : e.rep ≤ l.rEnc
    · rw [adds_listNode_of_le hle, decide_eq_true hde]
    · rw [adds_listNode_of_lt (by omega), decide_eq_true (by omega)]
  have hrest : tail.countP l.listNode.adds = 0 := by
    refine countP_eq_zero.2 fun t ht => ?_
    have hlt := htail t ht
    rw [adds_listNode_of_lt (by omega), decide_eq_false (by omega)]
    exact Bool.false_ne_true
  rw [he, countP_head, hhead, hrest]
  rfl

theorem countP_adds_slot (v : (Path.list p).Value α) (hrep : rep ≤ l.rEnc) :
    ((Path.list p).shred v rep l.rEnc l.d).countP l.listNode.adds
      = (Path.items (some v)).length := by
  have hno : ∀ d < l.d + 2, l.listNode.adds ⟨rep, d⟩ = false := fun d hd =>
    (adds_listNode_of_le hrep).trans (decide_eq_false (not_le.2 hd))
  match v with
  | none =>
    change [Entry.mk rep l.d].countP l.listNode.adds = 0
    rw [countP_one, hno _ (by omega)]
    rfl
  | some [] =>
    change [Entry.mk rep (l.d + 1)].countP l.listNode.adds = 0
    rw [countP_one, hno _ (by omega)]
    rfl
  | some (x :: xs) =>
    change (p.shred x rep (l.rEnc + 1) (l.d + 2) ++ xs.flatMap fun y =>
      p.shred y (l.rEnc + 1) (l.rEnc + 1) (l.d + 2)).countP l.listNode.adds = xs.length + 1
    have hones : xs.map (countP l.listNode.adds ∘ fun y =>
        p.shred y (l.rEnc + 1) (l.rEnc + 1) (l.d + 2)) = xs.map fun _ => 1 :=
      map_congr_left fun y _ => countP_adds_shred y (le_refl _)
    rw [countP_append, countP_adds_shred x (le_succ_of_le hrep), countP_flatMap,
      hones, map_const', sum_replicate_nat, mul_one, add_comm]

theorem continues_of_lt (nd : DremelNode) (h : ∀ t ∈ tail, nd.rEnc < t.rep) :
    nd.Continues true tail ∧ nd.openAfter true tail = true := by
  induction tail with
  | nil => exact ⟨trivial, rfl⟩
  | cons t tail ih =>
    have ht := h t mem_cons_self
    obtain ⟨hcont, hopen⟩ := ih (forall_mem_cons.1 h).2
    have hstep : nd.openAfter true [t] = true := DremelNode.openAfter_of_lt ht
    refine ⟨⟨fun _ _ => rfl, by rw [hstep]; exact hcont⟩, ?_⟩
    rw [← singleton_append, DremelNode.openAfter_append, hstep, hopen]

theorem Lays.continues {s : Path.Slots α (.list p)} (h : Lays l (.list p) s es) (o : Bool) :
    l.listNode.Continues o es := by
  induction h generalizing o with
  | nil => trivial
  | skip hrep _ _ ih | absent hrep _ _ _ ih => exact ⟨fun hlt => absurd hrep (not_le.2 hlt), ih _⟩
  | @slot v rep s es hrep _ ih =>
    match v with
    | none | some [] => exact ⟨fun hlt => absurd hrep (not_le.2 hlt), ih _⟩
    | some (x :: xs) =>
      obtain ⟨e, tail, he, hre, -, htail⟩ := shred_shape (.list p) (some (x :: xs)) rep l.rEnc l.d
      have hle : e.rep ≤ l.rEnc := by rw [hre]; exact hrep
      have hopen : l.listNode.openAfter o [e] = true := by
        refine (if_pos hle).trans ?_
        rw [adds_listNode_of_le hle, decide_eq_true (le_defn_of_items he)]
      obtain ⟨hcont, hafter⟩ := continues_of_lt l.listNode htail
      rw [he]
      refine ⟨fun hlt => absurd hle (not_le.2 hlt), ?_⟩
      rw [hopen]
      refine DremelNode.continues_append.2 ⟨hcont, ?_⟩
      rw [hafter]
      exact ih true

/-- **Where the elements of each slot begin.** -/
theorem Lays.offsetsFrom {s : Path.Slots α (.list p)} (h : Lays l (.list p) s es) (c : ℕ) :
    l.listNode.offsetsFrom c es = (s.map fun v => (Path.items v).length).scanl (· + ·) c := by
  have henc := l.enc_le
  induction h generalizing c with
  | nil => rfl
  | @skip e s es hrep hdef _ ih =>
    have hadds : l.listNode.adds e = false := by
      rw [adds_listNode_of_le hrep, decide_eq_false (by omega)]
    rw [offsetsFrom_cons, not_slot_iff.2 (.inr hdef), hadds]
    exact ih c
  | @absent e s es hrep hdef hlt _ ih =>
    have hadds : l.listNode.adds e = false := by
      rw [adds_listNode_of_le hrep, decide_eq_false (by omega)]
    rw [offsetsFrom_cons, isSlot_iff.2 ⟨hrep, hdef⟩, hadds,
      map_cons, scanl_cons]
    exact congrArg (c :: ·) (ih c)
  | @slot v rep s es hrep _ ih =>
    obtain ⟨e, tail, he, hre, hde, htail⟩ := shred_shape (.list p) v rep l.rEnc l.d
    have hcount := countP_adds_slot v hrep
    have hslot : l.listNode.isSlot e = true :=
      isSlot_iff.2 ⟨by rw [hre]; exact hrep, le_trans henc hde⟩
    have hstarts : l.listNode.starts (c + (l.listNode.adds e).toNat) tail = [] := by
      refine eq_nil_of_length_eq_zero ?_
      rw [DremelNode.length_starts]
      exact countP_eq_zero.2 fun t ht => by
        have hnot : l.listNode.isSlot t = false := isSlot_of_lt (htail t ht)
        rw [hnot]
        exact Bool.false_ne_true
    rw [map_cons, scanl_cons, ← hcount, ← ih, he, DremelNode.offsetsFrom,
      DremelNode.starts_append, countP_append, starts, if_pos hslot, hstarts,
      ← add_assoc]
    rfl

theorem Lays.countP_adds {s : Path.Slots α (.list p)} (h : Lays l (.list p) s es) :
    es.countP l.listNode.adds = (Path.elements s).length := by
  induction h with
  | nil => rfl
  | @skip e s es hrep hdef _ ih =>
    have henc := l.enc_le
    rw [countP_head, adds_listNode_of_le hrep, decide_eq_false (by omega), ih]
    exact zero_add _
  | @absent e s es hrep hdef hlt _ ih =>
    rw [countP_head, adds_listNode_of_le hrep, decide_eq_false (by omega), ih]
    exact zero_add _
  | @slot v rep s es hrep _ ih =>
    rw [countP_append, countP_adds_slot v hrep, ih, Path.elements, Path.elements,
      flatMap_cons, length_append, length_map]

/-! ## Assembly -/

/-- **A node comes out as its Arrow layout**: called with the node's levels, its
parent's slots and zeroed bits for them, the kernel succeeds and leaves the
validity bits, the number of null slots and, at a list of fewer than 2^31 elements,
the offsets and their number. -/
def Assembled (es : List Entry) : (p : Path) → Levels → p.Slots α → Prop
  | .leaf o, l, s => ∀ m, es.length ≤ 8 * m →
      ∃ bm, levelSlots (es.map Entry.defn) l.dEnc (l.maxDef o) (.zeros m)
          = .ok (⟨s.length, (Path.validity s).count true⟩, bm) ∧
        Buffer.Marks (Path.validity s) bm
  | .struct _, l, s => ∀ m, s.length ≤ 8 * m →
      ∃ v, structSlots es l.structNode s.length (.zeros m)
          = .ok (v, (Path.validity s).count false) ∧
        Buffer.Marks (Path.validity s) v
  | .list _, l, s => (Path.elements s).length < 2 ^ 31 →
      ∀ m n (offsets : Buffer ℤ n), s.length ≤ 8 * m → s.length < n →
      ∃ r, listSlots es l.listNode s.length offsets (.zeros m) = .ok r ∧
        Buffer.Marks (Path.validity s) r.validity ∧
        r.nulls = (Path.validity s).count false ∧
        r.elements = (Path.elements s).length ∧
        r.offsets.elems.take (s.length + 1) = (Path.offsets s).map fun x : ℕ => (x : ℤ)

theorem Lays.assembled (h : Lays l p s es) : Assembled es p l s := by
  match p with
  | .leaf o =>
    intro m hroom
    have hflags := h.leafFlags
    have hlen : (es.map Entry.defn).length ≤ 8 * m := by rw [length_map]; exact hroom
    obtain ⟨bm, hrun, hmarks⟩ := levelSlots_eq l.dEnc (l.maxDef o) hlen
    rw [hflags] at hrun hmarks
    rw [Path.validity, length_map] at hrun
    exact ⟨bm, hrun, hmarks⟩
  | .struct p =>
    intro m hroom
    have hflags := h.flags_struct
    have hcount : es.countP l.structNode.isSlot = s.length := by
      rw [← length_flags, hflags, Path.validity, length_map]
    have hbits : es.countP l.structNode.isSlot ≤ 8 * m := by rw [hcount]; exact hroom
    obtain ⟨v, hrun, hmarks⟩ := structSlots_eq l.structNode hbits
    rw [hcount, hflags] at hrun
    rw [hflags] at hmarks
    exact ⟨v, hrun, hmarks⟩
  | .list p =>
    intro hsmall m n offsets hroom hoff
    have hflags := h.flags_list
    have hcount : es.countP l.listNode.isSlot = s.length := by
      rw [← length_flags, hflags, Path.validity, length_map]
    have hadds : es.countP l.listNode.adds ≤ int32Max := by
      rw [h.countP_adds]
      exact le_pred_of_lt hsmall
    obtain ⟨r, hrun, hmarks, hnulls⟩ := listSlots_eq offsets (h.continues false) hadds
      (by rw [hcount]; exact hroom) (by rw [hcount]; exact hoff)
    have hdescribes := describes_of_listSlots hrun
    have hoffsets := hdescribes.offsets_eq
    rw [hcount, h.offsetsFrom] at hoffsets
    rw [hcount] at hrun
    rw [hflags] at hmarks hnulls
    exact ⟨r, hrun, hmarks, hnulls, hdescribes.elements.trans h.countP_adds, hoffsets⟩

theorem Lays.everyNode (h : Lays l p s es) : p.EveryNode (Assembled es) l s := by
  induction p generalizing l with
  | leaf o => exact h.assembled
  | struct p ih => exact ⟨h.assembled, ih h.fields⟩
  | list p ih => exact ⟨h.assembled, ih h.elements⟩

/-- **Assembly inverts shredding**: from the levels of any column of
records, every node on the way to the leaf comes out as its Arrow
layout. -/
theorem assembly_inverts_shredding (p : Path) (records : List (p.Value α)) :
    p.EveryNode (Assembled (p.shredAll records)) .top (records.map some) :=
  (lays_top p records).everyNode

/-- The rows `[1, null]`, null, `[]` and `[3]`. -/
example : (Path.list (.leaf true)).shredAll
      [some [some 1, none], none, some [], some [some 3]]
    = [⟨0, 3⟩, ⟨1, 2⟩, ⟨0, 0⟩, ⟨0, 1⟩, ⟨0, 3⟩] := rfl

end Nanom.Columnar
