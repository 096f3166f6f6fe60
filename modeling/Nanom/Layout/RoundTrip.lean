import Nanom.Layout.Leaves
import Nanom.Layout.Member

/-!
# What is emitted is read back

Every type of a described struct without `bool` is a lawful member: scalars and
`be` and `le` are bytes, a bit field is the bits `read_bits` and `write_bits`
agree on, and arrays and structs are members one after another. Where each bit of
the wire is read once, a struct survives `emit` and `strct`, and a byte string
`strct` and `emit` (`strct_emit`, `leaves_cover_iff`).
-/

namespace Nanom.Layout

open Ty List

open Nom List Nat

/-! ## Whole bytes -/

section Bytes

variable {V : Type} {f : Bytes → V} {g : V → Bytes} {b b' : Bytes} {n off q : ℕ}

theorem bits_iff_subspan (hb : q + n ≤ b.length) (hb' : q + n ≤ b'.length) :
    (∀ x ∈ (range (8 * n)).map (8 * q + ·), bitOf b x = bitOf b' x)
      ↔ subspan b q n = subspan b' q n := by
  constructor
  · intro h
    refine eq_of_bitOf ((length_subspan hb).trans (length_subspan hb').symm) fun i hi => ?_
    rw [length_subspan hb] at hi
    rw [bitOf_subspan b hi, bitOf_subspan b' hi]
    exact h _ (mem_map_of_mem (mem_range.2 hi))
  · intro h x hx
    obtain ⟨i, hi, rfl⟩ := mem_map.1 hx
    rw [← bitOf_subspan b (mem_range.1 hi), ← bitOf_subspan b' (mem_range.1 hi), h]

/-- A value that is `n` bytes, from the byte an offset lies in. -/
def Member.ofBytes (n off : ℕ) (f : Bytes → V) (g : V → Bytes) : Member V where
  bits := (List.range (8 * n)).map (8 * (off / 8) + ·)
  need := off + 8 * n
  InRange _ := True
  read b := f (subspan b (off / 8) n)
  write v p := ⟨putAt p (off / 8) (g v), none⟩

theorem subspan_putAt {p l : Bytes} {q : ℕ} (h : q + l.length ≤ p.length) :
    subspan (putAt p q l) q l.length = l := by
  refine ext_getElem? fun i => ?_
  rw [getElem?_subspan, getElem?_putAt h]
  by_cases hi : i < l.length
  · rw [if_pos hi, if_pos (by omega), Nat.add_sub_cancel_left]
  · rw [if_neg hi, getElem?_eq_none (by omega)]

theorem Member.ofBytes_lawful (hg : ∀ v, (g v).length = n) (hfg : ∀ v, f (g v) = v)
    (hf : ∀ l l', l.length = n → l'.length = n → f l = f l' → l = l') (off : ℕ) :
    (Member.ofBytes n off f g).Lawful where
  reads {b b'} hb hb' := by
    have hle : off + 8 * n ≤ 8 * b.length := hb
    have hle' : off + 8 * n ≤ 8 * b'.length := hb'
    refine Iff.trans ?_ (bits_iff_subspan (by omega) (by omega)).symm
    exact ⟨hf _ _ (length_subspan (by omega)) (length_subspan (by omega)), congrArg f⟩
  inRange _ := trivial
  writes {v p} _ hp _ := by
    have hle : off + 8 * n ≤ 8 * p.length := hp
    have hroom : off / 8 + (g v).length ≤ p.length := by rw [hg]; omega
    refine ⟨_, rfl, length_putAt .., ?_, fun x hx => ?_⟩
    · have hback := subspan_putAt hroom
      rw [hg] at hback
      exact (congrArg f hback).trans (hfg v)
    · refine (bitOf_putAt hroom x).trans (if_neg fun h => hx ?_)
      rw [hg] at h
      exact mem_map.2 ⟨x - 8 * (off / 8), mem_range.2 (by omega), by omega⟩
  refuses h := absurd trivial h

end Bytes

/-! ## Types -/

/-- The bit fields of a value are in range. -/
def Ty.InRange : (T : Ty) → T.Value → Prop
  | .scalar _, _ => True
  | .endian _ _, _ => True
  | .bits signed n _ _ _, v => BitsInRange signed n v
  | .array _ elem, v => ∀ i, elem.InRange (v i)
  | .struct _ _ _ types, v => ∀ k, (types k).InRange (v k)

/-- No field is a `bool`. -/
def Ty.NoBool : Ty → Prop
  | .scalar s => s ≠ .bool
  | .array _ elem => elem.NoBool
  | .struct _ _ _ types => ∀ k, (types k).NoBool
  | _ => True

/-- A type of the struct at a bit offset, as a member. -/
def Ty.member (dflt : Endian) (T : Ty) (off : ℕ) : Member T.Value where
  bits := T.bitsRead off
  need := off + T.wireBits
  InRange := T.InRange
  read b := T.assignField dflt b off
  write v p := T.emitField dflt v off p

section Leaves

variable {dflt : Endian} (off : ℕ)

theorem Endian.toNat_lt (dflt : Endian) (l : Bytes) : dflt.toNat l < 256 ^ l.length := by
  cases dflt with
  | big =>
    have hlt := leNat_lt l.reverse
    rwa [leNat, reverse_reverse, length_reverse] at hlt
  | little => exact leNat_lt l

theorem Endian.toNat_inj (dflt : Endian) {l l' : Bytes} (hlen : l.length = l'.length)
    (h : dflt.toNat l = dflt.toNat l') : l = l' := by
  cases dflt with
  | big =>
    have hrev : leNat l.reverse = leNat l'.reverse := by
      rw [leNat, leNat, reverse_reverse, reverse_reverse]
      exact h
    exact reverse_injective (leNat_inj (by simpa using hlen) hrev)
  | little => exact leNat_inj hlen h

theorem scalar_lawful {s : Scalar} (hs : s ≠ .bool) : ((Ty.scalar s).member dflt off).Lawful := by
  refine Member.ofBytes_lawful (f := fun l => s.ofBits (dflt.toNat l))
    (g := fun v => uintBytes dflt s.size (s.toBits v)) (fun v => length_uintBytes ..)
    (fun v => ?_) (fun l l' hl hl' h => ?_) off
  · exact s.ofBits_uintBytes dflt v
  · have hbits := congrArg s.toBits h
    have hlt := Endian.toNat_lt dflt l
    have hlt' := Endian.toNat_lt dflt l'
    rw [hl, pow_size] at hlt
    rw [hl', pow_size] at hlt'
    rw [Scalar.toBits_ofBits hs hlt, Scalar.toBits_ofBits hs hlt'] at hbits
    exact Endian.toNat_inj dflt (hl.trans hl'.symm) hbits

theorem raw_lawful (n : ℕ) :
    (Member.ofBytes n off (fun l (i : Fin n) => l.getD i 0) ofFn).Lawful := by
  refine Member.ofBytes_lawful (fun v => length_ofFn) (fun v => ?_) (fun l l' hl hl' h => ?_) off
  · funext i
    rw [getD_eq_getElem _ _ (by rw [length_ofFn]; exact i.2), List.getElem_ofFn]
  · refine ext_getElem (hl.trans hl'.symm) fun i hi hi' => ?_
    have hget := congrFun h ⟨i, hl ▸ hi⟩
    rwa [getD_eq_getElem _ _ hi, getD_eq_getElem _ _ hi'] at hget

theorem endian_lawful (order : Endian) (s : Scalar) :
    ((Ty.endian order s).member dflt off).Lawful := by
  have hread : (endian order s).member dflt off
      = Member.ofBytes s.size off (fun l (i : Fin s.size) => l.getD i 0) ofFn := by
    rw [member]
    congr 1
    funext b i
    have hget : b.getD (off / 8 + i) 0 = (subspan b (off / 8) s.size).getD i 0 := by
      rw [getD_eq_getElem?_getD, getD_eq_getElem?_getD, getElem?_subspan, if_pos i.2]
    exact hget
  rw [hread]
  exact raw_lawful off s.size

theorem mem_run {off : ℕ} {order : BitOrder} {w x : ℕ} :
    x ∈ (range w).map (fun j => place order (off + j))
      ↔ off ≤ place order x ∧ place order x < off + w := by
  rw [mem_map]
  constructor
  · rintro ⟨j, hj, rfl⟩
    have hlt := mem_range.1 hj
    rw [place_place]
    omega
  · rintro ⟨hlo, hhi⟩
    refine ⟨place order x - off, mem_range.2 (by omega), ?_⟩
    rw [Nat.add_sub_cancel' hlo, place_place]

theorem bits_lawful (signed : Bool) (n : ℕ) (order : BitOrder) (le_n : 1 + signed.toNat ≤ n)
    (n_le : n ≤ 64) : ((Ty.bits signed n order le_n n_le).member dflt off).Lawful where
  reads {b b'} hb hb' := by
    have hraw : Spells order n (rawBits n order b off) _ := rawBits_spells n_le (by omega) hb
    have hraw' : Spells order n (rawBits n order b' off) _ := rawBits_spells n_le (by omega) hb'
    constructor
    · intro h x hx
      obtain ⟨j, hj, rfl⟩ := mem_map.1 hx
      have heq := bitsValue_inj (by omega) n_le hraw.lt hraw'.lt h
      have hbit := hraw.testBit j (mem_range.1 hj)
      rw [heq, hraw'.testBit j (mem_range.1 hj)] at hbit
      exact hbit.symm
    · intro h
      have heq := hraw.unique ⟨hraw'.lt, fun j hj => (hraw'.testBit j hj).trans
        (h _ (mem_map_of_mem (mem_range.2 hj))).symm⟩
      exact congrArg (bitsValue signed n) heq
  inRange {b} hb := by
    have hraw : Spells order n (rawBits n order b off) _ := rawBits_spells n_le (by omega) hb
    exact bitsInRange_bitsValue (by omega) n_le hraw.lt
  writes {v p} _ hp hv := by
    obtain ⟨raw, hok, hlt, hval⟩ := fieldBits_of_inRange (by omega) n_le hv
    have hroom : off + n ≤ 8 * p.length := hp
    refine ⟨writeBits p off n raw order, ?_, length_writeBits .., ?_, fun x hx => ?_⟩
    · simp only [member, emitField, hok]
    · have hwrite : Spells order n raw
          fun j => bitAt order (writeBits p off n raw order) (off + j) :=
        ⟨hlt, fun j hj => by
          rw [bitAt_writeBits hroom, if_pos (by omega), Nat.add_sub_cancel_left]⟩
      have hraw : rawBits n order (writeBits p off n raw order) off = raw :=
        (rawBits_spells n_le (by omega) (by rw [length_writeBits]; exact hroom)).unique hwrite
      exact (congrArg (bitsValue signed n) hraw).trans hval
    · have hbit := (@bitAt_writeBits order p n raw off hroom (place order x)).trans
        (if_neg fun h => hx (mem_run.2 h))
      rwa [bitAt, bitAt, place_place] at hbit
  refuses {v} hv p := by
    obtain ⟨e, he⟩ := fieldBits_of_not_inRange n_le hv
    simp only [member, emitField, he, Option.isSome_some]

end Leaves

theorem mul_add_le {i j : ℕ} (h : i < j) (w : ℕ) : i * w + w ≤ j * w := by
  rw [← succ_mul]
  exact mul_le_mul_right w h

/-- **Every type without `bool` is a lawful member**, at any offset: a leaf of
whole bytes takes them from the byte it starts in. -/
theorem Ty.member_lawful {dflt : Endian} {T : Ty} (hb : T.NoBool) (off : ℕ) :
    (T.member dflt off).Lawful := by
  induction T generalizing off with
  | scalar s => exact scalar_lawful off hb
  | endian order s => exact endian_lawful off order s
  | bits signed n order le_n n_le => exact bits_lawful off signed n order le_n n_le
  | array n elem ih =>
    refine Member.row_lawful (fun i => ih hb _) fun i : Fin n => ?_
    have hi := mul_add_le i.2 elem.wireBits
    change off + i * elem.wireBits + elem.wireBits ≤ off + n * elem.wireBits
    omega
  | struct n name field types ih =>
    refine Member.row_lawful (fun k => ih k (hb k) _) fun k => ?_
    have hk := @fieldBitOffsets_add_le_sum _ types k
    change off + fieldBitOffsets types k + (types k).wireBits ≤ off + (widths types).sum
    omega

/-! ## Structs -/

section Struct

variable {dflt : Endian} {n : ℕ} {name : String} {field : Fin n → String} {types : Fin n → Ty}
  {v : (k : Fin n) → (types k).Value} {p : Bytes}

theorem emitAll_struct (name : String) (field : Fin n → String)
    (v : (k : Fin n) → (types k).Value) (p : Bytes) :
    emitAll (fun k p => (types k).emitField dflt (v k) (fieldBitOffsets types k) p) p
      = (struct n name field types).emitField dflt v 0 p := by
  simp only [emitField, zero_add]

theorem eight_wireSize (hok : layoutOk types = true) :
    8 * (struct n name field types).wireSize = (struct n name field types).wireBits :=
  Nat.mul_div_cancel' (Nat.dvd_of_mod_eq_zero (tidy_of_layoutOk hok).1)

theorem emitStruct_of_not_inRange (hb : (struct n name field types).NoBool) (p : Bytes)
    (hv : ¬ (struct n name field types).InRange v) :
    ∃ p' e, emitStruct dflt name field types v p = (p', .error e) := by
  have herr := (@member_lawful dflt _ hb 0).refuses hv
    (putAt p 0 (replicate ((widths types).sum / 8) 0))
  obtain ⟨e, he⟩ := Option.isSome_iff_exists.1 herr
  rw [member] at he
  rw [emitStruct, emitAll_struct name field v, he]
  exact ⟨_, _, rfl⟩

theorem toBytes_of_not_inRange
    (hb : (struct n name field types).NoBool) (hv : ¬ (struct n name field types).InRange v) :
    ∃ e, toBytes dflt name field types v = .error e := by
  obtain ⟨p', e, he⟩ := emitStruct_of_not_inRange hb (replicate ((widths types).sum / 8) 0) hv
  exact ⟨e, by rw [toBytes, he]⟩

section

variable (hok : layoutOk types = true) (hperm : ((struct n name field types).bitsRead 0).Perm
    (List.range (struct n name field types).wireBits)) (hb : (struct n name field types).NoBool)
include hok hperm hb

/-- A struct in range is written to the front of the buffer. -/
theorem emitStruct_of_inRange (hp : (struct n name field types).wireSize ≤ p.length)
    (hv : (struct n name field types).InRange v) :
    ∃ p', emitStruct dflt name field types v p
        = (p', .ok (struct n name field types).wireSize)
      ∧ p'.length = p.length ∧ (struct n name field types).assignField dflt p' 0 = v
      ∧ ∀ i, 8 * (struct n name field types).wireSize ≤ i → bitOf p' i = bitOf p i := by
  have hsize := @eight_wireSize n name field types hok
  generalize hzeros : replicate ((widths types).sum / 8) (0 : UInt8) = zeros
  have hlen : zeros.length = (struct n name field types).wireSize := by
    rw [← hzeros]
    exact length_replicate
  have hroom : 0 + (struct n name field types).wireBits ≤ 8 * (putAt p 0 zeros).length := by
    rw [length_putAt]
    omega
  obtain ⟨p', hwrite, hlen', hread, hframe⟩ :=
    (@member_lawful dflt _ hb 0).writes (hperm.nodup_iff.2 nodup_range) hroom hv
  refine ⟨p', ?_, hlen'.trans (length_putAt ..), hread, fun i hi => ?_⟩
  · have hall : emitAll (fun k p => (types k).emitField dflt (v k) (fieldBitOffsets types k) p)
        (putAt p 0 zeros) = ⟨p', none⟩ :=
      (emitAll_struct name field v _).trans hwrite
    rw [emitStruct, hzeros, hall]
    rfl
  · have hout : i ∉ (struct n name field types).bitsRead 0 := fun hmem => by
      have hlt := mem_range.1 (hperm.mem_iff.1 hmem)
      omega
    exact (hframe i hout).trans ((bitOf_putAt (by omega) i).trans (if_neg (by omega)))

/-- Bytes that hold the same struct are the same. -/
theorem eq_of_assignField {b b' : Bytes} (hlen : (struct n name field types).wireSize ≤ b.length)
    (hlen' : (struct n name field types).wireSize ≤ b'.length)
    (h : (struct n name field types).assignField dflt b 0
      = (struct n name field types).assignField dflt b' 0) {i : ℕ}
    (hi : i < 8 * (struct n name field types).wireSize) : bitOf b i = bitOf b' i := by
  have hsize := @eight_wireSize n name field types hok
  have hneed : ((struct n name field types).member dflt 0).need
      = 0 + (struct n name field types).wireBits := rfl
  exact ((member_lawful hb 0).reads (by omega) (by omega)).1 h i
    (hperm.mem_iff.2 (mem_range.2 (by omega)))

theorem toBytes_of_inRange (hv : (struct n name field types).InRange v) :
    ∃ b, toBytes dflt name field types v = .ok b
      ∧ b.length = (struct n name field types).wireSize
      ∧ (struct n name field types).assignField dflt b 0 = v := by
  have hlen : (replicate ((widths types).sum / 8) (0 : UInt8)).length
      = (struct n name field types).wireSize := length_replicate
  obtain ⟨b, hemit, hb', hread, -⟩ := emitStruct_of_inRange hok hperm hb hlen.ge hv
  refine ⟨b, ?_, hb'.trans hlen, hread⟩
  rw [toBytes, hemit]

theorem emit_of_inRange (hv : (struct n name field types).InRange v) {b out : Bytes}
    (hbytes : toBytes dflt name field types v = .ok b)
    (hout : (struct n name field types).wireSize ≤ out.length) :
    emit dflt name field types v out
      = (b ++ out.drop (struct n name field types).wireSize,
        .ok (struct n name field types).wireSize) := by
  have hsize : (struct n name field types).wireSize = (widths types).sum / 8 := rfl
  obtain ⟨b', hb', hlen, hread⟩ := toBytes_of_inRange hok hperm hb hv
  cases hbytes.symm.trans hb'
  obtain ⟨p', hemit, hlen', hread', hframe⟩ := emitStruct_of_inRange hok hperm hb hout hv
  have heq : p' = b ++ out.drop (struct n name field types).wireSize := by
    refine eq_of_bitOf (by rw [length_append, length_drop]; omega) fun i hi => ?_
    rw [bitOf_append]
    split
    · exact eq_of_assignField hok hperm hb (hout.trans hlen'.ge) hlen.ge
        (hread'.trans hread.symm) (by omega)
    · have hat : 8 * (struct n name field types).wireSize + (i - 8 * b.length) = i := by omega
      rw [bitOf_drop, hat]
      exact hframe i (by omega)
  rw [emit, if_neg (by omega), hemit, heq]

end

/-- The fields are read from the first bytes of the input only. -/
theorem strct_append {T : Ty} {b : Bytes} (hlen : b.length = T.wireSize) (rest : Bytes) (off : ℕ)
    (live : Bool) : strct dflt T ⟨b ++ rest, off, live⟩
      = .done (T.assignField dflt b 0) ⟨rest, off + T.wireSize, live⟩ := by
  have hsize : ¬ (⟨b ++ rest, off, live⟩ : Input).size < T.wireSize := by
    rw [Input.size, length_append]; omega
  have htake : ((⟨b ++ rest, off, live⟩ : Input).takeSpan T.wireSize).data = b := by
    rw [← hlen]
    exact take_left
  have hdrop : (⟨b ++ rest, off, live⟩ : Input).advance T.wireSize
      = ⟨rest, off + T.wireSize, live⟩ := by
    rw [Input.advance, ← hlen, drop_left]
  rw [strct, exactly, if_neg hsize, htake, hdrop]

/-- What `strct` reads from a byte string is written as that byte string. -/
theorem toBytes_strct (hok : layoutOk types = true)
    (hperm : ((struct n name field types).bitsRead 0).Perm
      (range (struct n name field types).wireBits))
    (hb : (struct n name field types).NoBool) {b : Bytes}
    (hlen : b.length = (struct n name field types).wireSize) :
    ∃ v rest, strct dflt (.struct n name field types) (.ofBytes b) = .done v rest
      ∧ toBytes dflt name field types v = .ok b := by
  have hstrct := @strct_append dflt _ _ hlen [] 0 false
  rw [append_nil] at hstrct
  refine ⟨_, _, hstrct, ?_⟩
  have hroom : 0 + (struct n name field types).wireBits ≤ 8 * b.length := by
    rw [hlen, eight_wireSize hok, zero_add]
  have hv := (@member_lawful dflt _ hb 0).inRange hroom
  obtain ⟨b', hbytes, hlen', hread⟩ := toBytes_of_inRange hok hperm hb hv
  obtain rfl : b' = b := eq_of_bitOf (hlen'.trans hlen.symm) fun i hi =>
    eq_of_assignField hok hperm hb hlen'.ge hlen.ge hread (by omega)
  exact hbytes

/-- The round trips of `strct` and `emit`, and when `emit` fails. -/
theorem strct_emit (dflt : Endian) {n : ℕ} (name : String) (field : Fin n → String)
    (types : Fin n → Ty) (hc : (Ty.struct n name field types).Compiles)
    (hb : (Ty.struct n name field types).NoBool) :
    (∀ v, (Ty.struct n name field types).InRange v → ∃ b, toBytes dflt name field types v = .ok b
        ∧ (∀ rest off live, strct dflt (.struct n name field types) ⟨b ++ rest, off, live⟩
          = .done v ⟨rest, off + (Ty.struct n name field types).wireSize, live⟩)
        ∧ ∀ out : Bytes, (Ty.struct n name field types).wireSize ≤ out.length →
          emit dflt name field types v out
            = (b ++ out.drop (Ty.struct n name field types).wireSize,
              .ok (Ty.struct n name field types).wireSize))
    ∧ (∀ v, (∃ e, toBytes dflt name field types v = .error e)
      ↔ ¬ (Ty.struct n name field types).InRange v)
    ∧ (∀ v out, (Ty.struct n name field types).wireSize ≤ out.length →
      ((∃ e, (emit dflt name field types v out).2 = .error e)
        ↔ ¬ (Ty.struct n name field types).InRange v))
    ∧ ∀ b : Bytes, b.length = (Ty.struct n name field types).wireSize →
      ∃ v rest, strct dflt (.struct n name field types) (.ofBytes b) = .done v rest
        ∧ toBytes dflt name field types v = .ok b := by
  have hperm := (perm_iff_interlocks (hc.tidy rfl).1).2 (hc.interlocks rfl)
  refine ⟨fun v hv => ?_, fun v => ⟨?_, toBytes_of_not_inRange hb⟩,
    fun v out hout => ⟨?_, fun hv => ?_⟩, fun b hlen => ?_⟩
  · obtain ⟨b, hbytes, hlen, hread⟩ := toBytes_of_inRange hc.1 hperm hb hv
    refine ⟨b, hbytes, fun rest off live => ?_, fun out => emit_of_inRange hc.1 hperm hb hv hbytes⟩
    rw [strct_append hlen, hread]
  · rintro ⟨e, he⟩ hv
    obtain ⟨b, hbytes, -⟩ := toBytes_of_inRange hc.1 hperm hb hv
    cases he.symm.trans hbytes
  · rintro ⟨e, he⟩ hv
    obtain ⟨b, hbytes, -⟩ := toBytes_of_inRange hc.1 hperm hb hv
    rw [emit_of_inRange hc.1 hperm hb hv hbytes hout] at he
    cases he
  · obtain ⟨p', e, he⟩ := emitStruct_of_not_inRange hb out hv
    have hsize : ¬ out.length < (widths types).sum / 8 := not_lt.2 hout
    exact ⟨e, by rw [emit, if_neg hsize, he]⟩
  · exact toBytes_strct hc.1 hperm hb hlen

theorem nibble_width : 1 + false.toNat ≤ 4 ∧ 4 ≤ 64 := by decide

/-- The first fields of an IPv4 header. -/
def ipv4Start : Fin 4 → Ty
  | 0 => .bits false 4 .msb0 nibble_width.1 nibble_width.2
  | 1 => .bits false 4 .msb0 nibble_width.1 nibble_width.2
  | 2 => .scalar (.int false .one)
  | 3 => .endian .big (.int false .two)

theorem strct_emit_ipv4 :
    ∃ v rest, strct .little (.struct 4 "ipv4" (fun _ => "") ipv4Start) (.ofBytes [0x45, 0, 0, 20])
        = .done v rest
      ∧ toBytes .little "ipv4" (fun _ => "") ipv4Start v = .ok [0x45, 0, 0, 20] := by
  have hc : (struct 4 "ipv4" (fun _ => "") ipv4Start).Compiles :=
    ⟨by decide, fun | 0 => trivial | 1 => trivial | 2 => trivial | 3 => trivial⟩
  have hint : Scalar.int false .one ≠ .bool := by decide
  have hb : (struct 4 "ipv4" (fun _ => "") ipv4Start).NoBool :=
    fun | 0 => trivial | 1 => trivial | 2 => hint | 3 => trivial
  exact (strct_emit .little "ipv4" (fun _ => "") ipv4Start hc hb).2.2.2 [0x45, 0, 0, 20] rfl

end Struct

/-! ## Structs in structs -/

/-- **A struct that passes `layout_ok`** has each bit of the wire read for one
leaf, and what is read is written back, exactly if its leaves interlock. They do
where every struct in it passes as well. A member is read from its own bits. -/
theorem leaves_cover_iff (dflt : Endian) {n : ℕ} (name : String) (field : Fin n → String)
    (types : Fin n → Ty) (hok : layoutOk types = true) :
    (((Ty.struct n name field types).bitsRead 0).Perm
          (range (8 * (Ty.struct n name field types).wireSize)) ∧
        ((Ty.struct n name field types).NoBool → ∀ b : Bytes,
          b.length = (Ty.struct n name field types).wireSize →
          ∃ v rest, strct dflt (.struct n name field types) (.ofBytes b) = .done v rest ∧
            toBytes dflt name field types v = .ok b) ↔
      (Ty.struct n name field types).Interlocks) ∧
    ((Ty.struct n name field types).Compiles → (Ty.struct n name field types).Interlocks) ∧
    ∀ (T : Ty) (off : ℕ) (b b' : Bytes), T.NoBool →
      off + T.wireBits ≤ 8 * b.length → off + T.wireBits ≤ 8 * b'.length →
      (T.assignField dflt b off = T.assignField dflt b' off ↔
        ∀ i ∈ T.bitsRead off, bitOf b i = bitOf b' i) := by
  have hiff := @Ty.perm_iff_interlocks (.struct n name field types) (tidy_of_layoutOk hok).1
  rw [eight_wireSize hok]
  refine ⟨⟨fun h => hiff.1 h.1, fun h => ?_⟩, fun hc => hc.interlocks rfl,
    fun T off b b' hbool hb hb' => (Ty.member_lawful hbool off).reads hb hb'⟩
  exact ⟨hiff.2 h, fun hb b hlen => toBytes_strct hok (hiff.2 h) hb hlen⟩

/-- Three bits and four, not a whole byte. -/
def sevenBits : Fin 2 → Ty
  | 0 => .bits false 3 .msb0 (by decide) (by decide)
  | 1 => .bits false 4 .msb0 (by decide) (by decide)

/-- A struct of these, nine bits that end at a byte, and two bytes. -/
def filledUp : Fin 3 → Ty
  | 0 => .struct 2 "inner" (fun _ => "") sevenBits
  | 1 => .bits false 9 .msb0 (by decide) (by decide)
  | 2 => .endian .big (.int false .two)

theorem leaves_cover_iff_nested : layoutOk sevenBits = false ∧
    ∃ v rest, strct .little (.struct 3 "outer" (fun _ => "") filledUp) (.ofBytes [0xa5, 1, 2, 3])
        = .done v rest ∧
      toBytes .little "outer" (fun _ => "") filledUp v = .ok [0xa5, 1, 2, 3] := by
  have hcover := (leaves_cover_iff .little "outer" (fun _ => "") filledUp (by decide)).1.2
    ⟨by decide, by decide⟩
  refine ⟨by decide, hcover.2 ?_ [0xa5, 1, 2, 3] rfl⟩
  exact fun | 0 => (fun | 0 => trivial | 1 => trivial) | 1 => trivial | 2 => trivial

/-- Three bits and five, in different orders. -/
def mixedOrders : Fin 2 → Ty
  | 0 => .bits false 3 .msb0 (by decide) (by decide)
  | 1 => .bits false 5 .lsb0 (by decide) (by decide)

/-- A struct that has a struct of these as its one member. -/
def outer : Fin 1 → Ty := fun _ => .struct 2 "inner" (fun _ => "") mixedOrders

/-- It passes `layout_ok`, but the two fields overlap and what is read is not
written back. -/
theorem nested_overlap : layoutOk outer = true ∧
    ¬((Ty.struct 1 "outer" (fun _ => "") outer).bitsRead 0).Nodup ∧
    toBytes .little "outer" (fun _ => "") outer
      ((Ty.struct 1 "outer" (fun _ => "") outer).assignField .little [1] 0) = .ok [0] :=
  ⟨by decide, by decide, by rfl⟩

end Nanom.Layout
