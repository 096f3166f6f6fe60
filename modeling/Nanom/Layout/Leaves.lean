import Mathlib.Data.List.Nodup
import Nanom.Layout.BitFields

/-!
# Where the leaves lie

`layout_ok` looks at the fields of one struct, and in a nested struct that it has
not looked at fields can overlap. The leaves at all depths take each bit of the
wire once exactly if those of whole bytes start at a byte and the bits of the
`msb0` fields lie in each byte as in a mirror (`Ty.Interlocks`). Where `layout_ok`
holds for a struct and for every struct in it, all leaves are `Tidy`: the bits of
a byte have one order.
-/

namespace Nanom.Layout

open Nom List Nat

variable {n off : ℕ} {l : List ℕ} {T : Ty} {prev : Option BitOrder}

/-- The bits of the wire that `assign_field` reads, leaf by leaf: those of a bit
field in its order, whole bytes otherwise. -/
def Ty.bitsRead : Ty → ℕ → List ℕ
  | .bits _ n order _ _, off => (List.range n).map fun j => place order (off + j)
  | .array n elem, off =>
    (finRange n).flatMap fun i : Fin n => elem.bitsRead (off + i * elem.wireBits)
  | .struct n _ _ types, off =>
    (finRange n).flatMap fun k => (types k).bitsRead (off + fieldBitOffsets types k)
  | .scalar s, off | .endian _ s, off => (List.range (8 * s.size)).map (8 * (off / 8) + ·)

/-! ## Leaves end to end -/

/-- The leaves of a type at every depth, in order. -/
def Ty.flat : Ty → List Leaf
  | .array n elem => (finRange n).flatMap fun _ => elem.flat
  | .struct n _ _ types => (finRange n).flatMap fun k => (types k).flat
  | T => [T.leaf]

/-- The bits a leaf at an offset is read from. -/
def Leaf.bits (off : ℕ) (f : Leaf) : List ℕ :=
  match f.order with
  | some order => (List.range f.width).map fun j => place order (off + j)
  | none => (List.range f.width).map (8 * (off / 8) + ·)

/-- Those of leaves end to end. -/
def bitsFrom : ℕ → List Leaf → List ℕ
  | _, [] => []
  | off, f :: l => f.bits off ++ bitsFrom (off + f.width) l

/-- Every leaf of whole bytes starts at a byte. -/
def alignedFrom : ℕ → List Leaf → Bool
  | _, [] => true
  | off, f :: l => (f.order.isSome || off % 8 == 0) && alignedFrom (off + f.width) l

/-- The order of each bit, in whole bytes the lowest first. -/
def bitOrders (l : List Leaf) : List BitOrder :=
  l.flatMap fun f => replicate f.width (f.order.getD .lsb0)

/-- The order of bit `i`. -/
def orderAt (l : List Leaf) (i : ℕ) : BitOrder := (bitOrders l).getD i .lsb0

/-- Leaves of whole bytes start at a byte, and with a bit of an `msb0` field the
bit at its place from the other end of the byte is in one. -/
structure Ty.Interlocks (T : Ty) : Prop where
  aligned : alignedFrom 0 T.flat = true
  mirrored : ∀ i < T.wireBits, orderAt T.flat i = .msb0 → orderAt T.flat (mirror i) = .msb0

section Leaves

variable {f : Fin n → List Leaf} {start : ℕ → ℕ} {ls : List Leaf}

theorem bitsFrom_append (off : ℕ) (l l' : List Leaf) :
    bitsFrom off (l ++ l') = bitsFrom off l ++ bitsFrom (off + (l.map Leaf.width).sum) l' := by
  induction l generalizing off with
  | nil => rfl
  | cons f l ih =>
    rw [cons_append, bitsFrom, bitsFrom, ih, append_assoc, map_cons, sum_cons, add_assoc]

theorem bitsFrom_flatMap (h : ∀ k : Fin n, start (k + 1) = start k + ((f k).map Leaf.width).sum) :
    start n = start 0 + (((finRange n).flatMap f).map Leaf.width).sum ∧
      bitsFrom (start 0) ((finRange n).flatMap f)
        = (finRange n).flatMap fun k : Fin n => bitsFrom (start k) (f k) := by
  induction n generalizing start with
  | zero => exact ⟨rfl, rfl⟩
  | succ n ih =>
    have h0 : start 1 = start 0 + ((f 0).map Leaf.width).sum := h 0
    obtain ⟨hsum, hbits⟩ := @ih (f ·.succ) (start <| · + 1) fun k => h k.succ
    rw [finRange_succ, flatMap_cons, flatMap_cons, flatMap_map, flatMap_map, map_append,
      List.sum_append, bitsFrom_append, ← add_assoc, ← h0]
    exact ⟨hsum, congrArg _ hbits⟩

/-- **The bits that are read are those of the leaves**, end to end. -/
theorem Ty.bitsFrom_flat (T : Ty) :
    (T.flat.map Leaf.width).sum = T.wireBits ∧ ∀ off, bitsFrom off T.flat = T.bitsRead off := by
  induction T with
  | scalar s | endian order s | bits signed n order le_n n_le =>
    exact ⟨rfl, fun off => append_nil _⟩
  | array n elem ih =>
    have hall (off : ℕ) := @bitsFrom_flatMap n (fun _ => elem.flat)
      (fun i => off + i * elem.wireBits) fun i => by
        rw [ih.1, succ_mul, add_assoc]
    refine ⟨?_, fun off => ?_⟩
    · have hsum := (hall 0).1
      simp only [zero_mul, zero_add] at hsum
      exact hsum.symm
    · have hbits := (hall off).2
      simp only [zero_mul, add_zero, ih.2] at hbits
      exact hbits
  | struct n name field types ih =>
    have hall (off : ℕ) := @bitsFrom_flatMap n (fun k => (types k).flat)
      (fun k => off + startOf (widths types) k) fun k => by
        rw [(ih k).1, startOf_widths_succ, add_assoc]; rfl
    refine ⟨?_, fun off => ?_⟩
    · have hsum := (hall 0).1
      have hlen := startOf_length (widths types)
      rw [length_widths] at hlen
      simp only [startOf_zero, zero_add, hlen] at hsum
      exact hsum.symm
    · have hbits := (hall off).2
      simp only [startOf_zero, add_zero, (ih _).2] at hbits
      exact hbits

/-- No leaf is empty, and one that is no bit field has whole bytes. -/
theorem Ty.width_flat (T : Ty) :
    ∀ f ∈ T.flat, 0 < f.width ∧ (f.order = none → f.width % 8 = 0) := by
  induction T with
  | scalar s | endian order s =>
    have hsize : 0 < s.size := by
      cases s with
      | bool => exact Nat.one_pos
      | int signed size => cases size <;> exact succ_pos _
      | float double => cases double <;> exact succ_pos _
    simp only [flat, leaf, wireBits, mem_singleton, forall_eq]
    omega
  | bits signed n order le_n n_le =>
    simp only [flat, leaf, wireBits, mem_singleton, forall_eq]
    exact ⟨by omega, nofun⟩
  | array n elem ih =>
    simp only [flat, mem_flatMap]
    exact fun f ⟨_, _, hf⟩ => ih f hf
  | struct n name field types ih =>
    simp only [flat, mem_flatMap]
    exact fun f ⟨k, _, hf⟩ => ih k f hf

/-- Where no bit is read twice, a leaf of whole bytes does not start in a byte of
which a bit has been read. -/
theorem alignedFrom_of_nodup (hwidth : ∀ f ∈ ls, 0 < f.width ∧ (f.order = none → f.width % 8 = 0))
    (hnodup : (l ++ bitsFrom off ls).Nodup) (hl : off % 8 ≠ 0 → ∃ x ∈ l, x / 8 = off / 8) :
    alignedFrom off ls = true := by
  induction ls generalizing l off with
  | nil => rfl
  | cons f ls ih =>
    obtain ⟨hpos, hbytes⟩ := hwidth f mem_cons_self
    rw [bitsFrom, ← append_assoc] at hnodup
    have hoff : f.order = none → off % 8 = 0 := by
      intro hnone
      by_contra hne
      obtain ⟨x, hx, hdiv⟩ := hl hne
      have hmem : x ∈ f.bits off := by
        rw [Leaf.bits, hnone]
        exact mem_map.2 ⟨x % 8, mem_range.2 (by have := hbytes hnone; omega), by omega⟩
      exact (nodup_append.1 (Nodup.of_append_left hnodup)).2.2 x hx x hmem rfl
    have hlast : (off + f.width) % 8 ≠ 0 → ∃ x ∈ f.bits off, x / 8 = (off + f.width) / 8 := by
      intro hne
      have hmem : f.width - 1 ∈ range f.width := mem_range.2 (by omega)
      rw [Leaf.bits]
      cases horder : f.order with
      | none => exact ⟨_, mem_map_of_mem hmem, by have := hoff horder; omega⟩
      | some order => exact ⟨_, mem_map_of_mem hmem, by rw [place_div]; omega⟩
    rw [alignedFrom, ih (fun g hg => hwidth g (mem_cons_of_mem f hg)) hnodup
      fun hne => (hlast hne).imp fun x hx => ⟨mem_append_right _ hx.1, hx.2⟩, Bool.and_true]
    cases horder : f.order with
    | none => exact beq_iff_eq.2 (hoff horder)
    | some order => rfl

theorem orderAt_cons (f : Leaf) (ls : List Leaf) (i : ℕ) : orderAt (f :: ls) i
    = if i < f.width then f.order.getD .lsb0 else orderAt ls (i - f.width) := by
  rw [orderAt, orderAt, bitOrders, bitOrders, flatMap_cons]
  split
  · rename_i hlt
    rw [getD_append _ _ _ _ (by rwa [length_replicate]), getD_replicate _ hlt]
  · rename_i hge
    rw [getD_append_right _ _ _ _ (by rw [length_replicate]; omega), length_replicate]

/-- With leaves of whole bytes at bytes, bit `j` is read at its place in its order. -/
theorem bitsFrom_of_aligned (h : alignedFrom off ls = true) :
    bitsFrom off ls = (range (ls.map Leaf.width).sum).map
      fun j => place (orderAt ls j) (off + j) := by
  induction ls generalizing off with
  | nil => rfl
  | cons f ls ih =>
    rw [alignedFrom, Bool.and_eq_true] at h
    have hbits : f.bits off
        = (range f.width).map fun j => place (f.order.getD .lsb0) (off + j) := by
      rw [Leaf.bits]
      cases horder : f.order with
      | none =>
        rw [horder] at h
        have hoff : off % 8 = 0 := beq_iff_eq.1 h.1
        have hat : 8 * (off / 8) = off := by omega
        rw [hat]
        rfl
      | some order => rfl
    rw [bitsFrom, ih h.2, hbits, map_cons, sum_cons, range_add, map_append, map_map]
    congr 1
    · refine map_congr_left fun j hj => ?_
      rw [orderAt_cons, if_pos (mem_range.1 hj)]
    · refine map_congr_left fun j _ => ?_
      rw [Function.comp, orderAt_cons, if_neg (by omega), Nat.add_sub_cancel_left, add_assoc]

/-! ## Tidy leaves -/

theorem Tidy.aligned (h : Tidy prev off ls) : alignedFrom off ls = true := by
  induction ls generalizing prev off with
  | nil => rfl
  | cons f ls ih =>
    rw [alignedFrom, ih h.2.2, Bool.and_true, Bool.or_eq_true, beq_iff_eq]
    exact h.1

/-- **The bits of a byte have one order**, and those of a byte that has begun in
front have the order there. -/
theorem Tidy.orderAt_eq (hwidth : ∀ f ∈ ls, f.order = none → f.width % 8 = 0)
    (h : Tidy prev off ls) (hprev : prev = none → off % 8 = 0) :
    (∀ i j, (off + i) / 8 = (off + j) / 8 → i < (ls.map Leaf.width).sum →
        j < (ls.map Leaf.width).sum → orderAt ls i = orderAt ls j) ∧
      (off % 8 ≠ 0 → ∀ i < (ls.map Leaf.width).sum, (off + i) / 8 = off / 8 →
        prev = some (orderAt ls i)) := by
  induction ls generalizing prev off with
  | nil => exact ⟨fun _ _ _ hi => absurd hi (not_lt_zero _),
      fun _ _ hi => absurd hi (not_lt_zero _)⟩
  | cons f ls ih =>
    obtain ⟨hat, hdiff, hrest⟩ := h
    have hnone : f.order = none → off % 8 = 0 ∧ f.width % 8 = 0 := fun hnone =>
      ⟨hat.resolve_left (by rw [hnone]; exact Bool.false_ne_true), hwidth f mem_cons_self hnone⟩
    obtain ⟨hsame, hfirst⟩ := ih (fun g hg => hwidth g (mem_cons_of_mem f hg)) hrest
      fun h => by have := hnone h; omega
    rw [map_cons, sum_cons]
    -- a byte that `f` has begun goes on in its order
    have hcross (i j : ℕ) (hi : i < f.width) (hj : f.width ≤ j)
        (hsum : j < f.width + (ls.map Leaf.width).sum) (hbyte : (off + i) / 8 = (off + j) / 8) :
        f.order.getD .lsb0 = orderAt ls (j - f.width) := by
      rw [hfirst (by omega) (j - f.width) (by omega) (by omega), Option.getD_some]
    refine ⟨fun i j hbyte hi hj => ?_, fun hoff i hi hbyte => ?_⟩
    · rw [orderAt_cons, orderAt_cons]
      split_ifs with hif hjf hjf
      · rfl
      · exact hcross i j hif (by omega) hj hbyte
      · exact (hcross j i hjf (by omega) hi hbyte.symm).symm
      · exact hsame _ _ (by omega) (by omega) (by omega)
    · have horder : prev = f.order := by
        match prev, horder : f.order with
        | none, _ => exact absurd (hprev rfl) hoff
        | some o, none => exact absurd (hnone horder).1 hoff
        | some o, some o' =>
          by_contra hne
          rw [horder] at hdiff
          exact hoff (hdiff (bne_iff_ne.2 fun heq => hne (congrArg some heq.symm)))
      rw [orderAt_cons, horder]
      split
      · cases horder' : f.order with
        | none => exact absurd (hnone horder').1 hoff
        | some o => rfl
      · exact hfirst (by omega) _ (by omega) (by omega)

/-- At a byte it does not matter what lies in front. -/
theorem Tidy.of_whole (h : Tidy prev off ls) (hoff : off % 8 = 0) (prev' : Option BitOrder) :
    Tidy prev' off ls := by
  cases ls with
  | nil => trivial
  | cons f ls => exact ⟨.inr hoff, fun _ => hoff, h.2.2⟩

theorem Tidy.append {l' : List Leaf} (h : Tidy prev off ls)
    (h' : ∀ prev', Tidy prev' (off + (ls.map Leaf.width).sum) l') : Tidy prev off (ls ++ l') := by
  induction ls generalizing prev off with
  | nil => exact h' prev
  | cons f ls ih =>
    refine ⟨h.1, h.2.1, ih h.2.2 fun prev' => ?_⟩
    rw [add_assoc]
    exact h' prev'

theorem Tidy.add (h : Tidy prev off ls) (q : ℕ) : Tidy prev (off + 8 * q) ls := by
  induction ls generalizing prev off with
  | nil => trivial
  | cons f ls ih =>
    have hrest := ih h.2.2
    rw [add_right_comm] at hrest
    rw [Tidy, add_mul_mod_self_left]
    exact ⟨h.1, h.2.1, hrest⟩

/-- Wherever it starts at a byte, a type is tidy and takes whole bytes. -/
def Ty.TidyAtBytes (T : Ty) : Prop :=
  T.wireBits % 8 = 0 ∧ ∀ off prev, off % 8 = 0 → Tidy prev off T.flat

/-- Tidy members that are tidy themselves have tidy leaves. -/
theorem Tidy.flatMap {ι : Type} {f : ι → Ty} {is : List ι}
    (hf : ∀ i ∈ is, (f i).isBits = false → (f i).TidyAtBytes)
    (h : Tidy prev off (is.map fun i => (f i).leaf)) :
    Tidy prev off (is.flatMap fun i => (f i).flat) := by
  induction is generalizing prev off with
  | nil => trivial
  | cons i is ih =>
    obtain ⟨hat, hdiff, hrest⟩ := h
    have hrest := ih (fun j hj => hf j (mem_cons_of_mem i hj)) hrest
    rw [flatMap_cons]
    by_cases hbits : (f i).isBits = true
    · have hflat : (f i).flat = [(f i).leaf] := by
        generalize f i = T at hbits
        cases T with
        | bits => rfl
        | scalar | endian | array | struct => cases hbits
      rw [hflat]
      exact ⟨hat, hdiff, hrest⟩
    · obtain ⟨hwhole, htidy⟩ := hf i mem_cons_self (Bool.eq_false_iff.2 hbits)
      have hoff := hat.resolve_left hbits
      refine (htidy off prev hoff).append fun prev' => ?_
      rw [(f i).bitsFrom_flat.1]
      exact hrest.of_whole (show (off + (f i).wireBits) % 8 = 0 by omega) prev'

/-- **What passes `layout_ok` at every depth has tidy leaves.** -/
theorem Ty.Compiles.tidy (hc : T.Compiles) (hbits : T.isBits = false) : T.TidyAtBytes := by
  induction T with
  | scalar s | endian order s =>
    refine ⟨?_, fun off prev hoff => ⟨.inr hoff, fun _ => hoff, trivial⟩⟩
    rw [wireBits]
    omega
  | bits signed n order le_n n_le => cases hbits
  | array n elem ih =>
    have helem := ih hc.2 hc.1
    refine ⟨by rw [wireBits, Nat.mul_mod, helem.1, Nat.mul_zero], fun off prev hoff => ?_⟩
    refine Tidy.flatMap (f := fun _ => elem) (fun _ _ _ => helem) ?_
    generalize finRange n = is
    induction is generalizing off prev with
    | nil => trivial
    | cons i is ih' =>
      have hnext : (off + elem.wireBits) % 8 = 0 := by rw [add_mod, hoff, helem.1]
      exact ⟨.inr hoff, fun _ => hoff, ih' _ _ hnext⟩
  | struct n name field types ih =>
    obtain ⟨hwhole, htidy⟩ := tidy_of_layoutOk hc.1
    refine ⟨hwhole, fun off prev hoff => Tidy.flatMap (fun k _ => ih k (hc.2 k)) ?_⟩
    have hadd := (htidy.add (off / 8)).of_whole (by omega) prev
    have hat : 0 + 8 * (off / 8) = off := by omega
    rwa [hat] at hadd

end Leaves

/-- **Each bit is read once exactly if the leaves interlock.** -/
theorem Ty.perm_iff_interlocks (hwhole : T.wireBits % 8 = 0) :
    (T.bitsRead 0).Perm (range T.wireBits) ↔ T.Interlocks := by
  have hlt (i : ℕ) (o : BitOrder) (hi : i < T.wireBits) : place o i < T.wireBits := by
    have hdiv := place_div o i
    omega
  have hbits (h : alignedFrom 0 T.flat = true) : T.bitsRead 0
      = (range T.wireBits).map fun j => place (orderAt T.flat j) j := by
    rw [← T.bitsFrom_flat.2, bitsFrom_of_aligned h, T.bitsFrom_flat.1]
    simp only [zero_add]
  constructor
  · intro hperm
    have hnodup := hperm.nodup_iff.2 nodup_range
    have haligned := alignedFrom_of_nodup (l := []) T.width_flat
      (by rw [nil_append, T.bitsFrom_flat.2]; exact hnodup) fun h => absurd (zero_mod 8) h
    refine ⟨haligned, fun i hi hmsb => ?_⟩
    -- else the bit at the other end would be read as itself and for bit `i`
    by_contra hne
    have hlsb : orderAt T.flat (mirror i) = .lsb0 := by
      cases horder : orderAt T.flat (mirror i) with
      | msb0 => exact absurd horder hne
      | lsb0 => rfl
    rw [hbits haligned] at hnodup
    have heq : i = mirror i := inj_on_of_nodup_map hnodup (mem_range.2 hi)
      (mem_range.2 (hlt i .msb0 hi)) (by rw [hmsb, hlsb]; rfl)
    have hmod := mirror_mod i
    omega
  · intro h
    have hturn (i : ℕ) (hi : i < T.wireBits) :
        place (orderAt T.flat (place (orderAt T.flat i) i)) (place (orderAt T.flat i) i) = i := by
      cases horder : orderAt T.flat i with
      | msb0 =>
        rw [place, h.mirrored i hi horder]
        exact mirror_mirror i
      | lsb0 => rw [place, horder, place]
    rw [hbits h.aligned]
    refine (perm_ext_iff_of_nodup (nodup_range.map_on fun i hi j hj hij => ?_)
      nodup_range).2 fun x => ?_
    · rw [← hturn i (mem_range.1 hi), ← hturn j (mem_range.1 hj), hij]
    · rw [mem_map, mem_range]
      constructor
      · rintro ⟨i, hi, rfl⟩
        exact hlt i _ (mem_range.1 hi)
      · intro hx
        exact ⟨_, mem_range.2 (hlt x _ hx), hturn x hx⟩

/-- Tidy leaves interlock. -/
theorem Ty.Compiles.interlocks (hc : T.Compiles) (hbits : T.isBits = false) : T.Interlocks := by
  obtain ⟨hwhole, htidy⟩ := hc.tidy hbits
  have h0 := htidy 0 none rfl
  refine ⟨h0.aligned, fun i hi hmsb => ?_⟩
  have hdiv := mirror_div i
  rw [← hmsb]
  refine (h0.orderAt_eq (fun f hf => (T.width_flat f hf).2) fun _ => rfl).1 _ _ (by omega) ?_ ?_
  · rw [T.bitsFrom_flat.1]; omega
  · rw [T.bitsFrom_flat.1]; exact hi

end Nanom.Layout
