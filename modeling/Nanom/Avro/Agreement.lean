import Mathlib.Algebra.BigOperators.Ring.List
import Mathlib.Algebra.Order.BigOperators.Group.List
import Mathlib.Algebra.Order.Ring.Nat
import Nanom.Avro.Writer
import Nanom.Soa.Faithful

/-!
# The two encoders

Both encoders go through the leaves of a row in the same order. A scalar and an
array of single bytes come out the same. Any other array is an Avro array for
`avro_encode_row`, with its length in front and a zero behind, and plain bytes
for `write_chunk`; the row `Ty.big`, whose numbers take as many bytes in Avro as
on the wire, tells the two apart.
-/

namespace Nanom

open Layout Soa BitVec Bool Nat Option

namespace Avro

variable {L elem : Ty} {col : Bytes} {info : ColumnInfo} {n row : ℕ} {s : Scalar} {v : L.Value}
variable {abi : Abi} {T : Ty}

/-! ## Leaves -/

theorem fieldValue_leaves (abi : Abi) (T : Ty) (v : T.Value) :
    fieldValue abi T v = (T.leafValues v).flatMap fun leaf => fieldValue abi leaf.1 leaf.2 := by
  induction T with
  | struct n name field types ih =>
    rw [Ty.leafValues, List.ofFn_eq_map, ← List.flatMap_def, List.flatMap_assoc]
    exact congrArg (fun f => (List.finRange n).flatMap f) (funext fun k => ih k (v k))
  | _ => exact (List.flatMap_singleton ..).symm

/-- The scalar that a leaf is decoded to. -/
def scalarOf : (T : Ty) → T.Value → Option ((s : Scalar) × s.Value)
  | .scalar s, v => some ⟨s, v⟩
  | .endian order s, v => some ⟨s, s.ofBits (order.toNat (List.ofFn v))⟩
  | .bits signed n _ _ _, v => some ⟨.int signed (uintForBits n), v⟩
  | .array _ _, _ => none
  | .struct _ _ _ _, _ => none

/-- Everything about a leaf that is a scalar goes by the scalar. -/
structure IsScalar (abi : Abi) (L : Ty) (v : L.Value) (s : Scalar) (x : s.Value) : Prop where
  kind : leafKind abi L = scalarKind s
  width : leafWidth abi L = s.size
  bytes : abi.leafBytes L v = uintBytes abi.host s.size (s.toBits x)
  object : abi.object L v = uintBytes abi.host s.size (s.toBits x)
  value : fieldValue abi L v = putScalar s x
  byte : byteValue L v = UInt8.ofNat (s.toBits x)
  size : abi.sizeOf L = s.size

theorem isScalar_of_scalarOf (abi : Abi) {x : s.Value}
    (h : scalarOf L v = some ⟨s, x⟩) : IsScalar abi L v s x := by
  cases L with
  | scalar s | endian order s | bits signed n order le_n n_le =>
    cases h; exact ⟨rfl, rfl, rfl, rfl, rfl, rfl, rfl⟩
  | array n elem | struct n name field types => cases h

theorem leaf_cases (hL : L ∈ T.leaves) :
    (∀ v, ∃ s x, scalarOf L v = some ⟨s, x⟩) ∨ ∃ n elem, L = .array n elem := by
  induction T with
  | struct n name field types ih =>
    obtain ⟨l, hl, hmem⟩ := List.mem_flatten.1 hL
    obtain ⟨k, rfl⟩ := List.mem_ofFn.1 hl
    exact ih k hmem
  | array n elem => exact .inr ⟨n, elem, List.mem_singleton.1 hL⟩
  | scalar s | endian order s =>
    obtain rfl := List.mem_singleton.1 hL; exact .inl fun v => ⟨_, _, rfl⟩
  | bits signed n order le_n n_le =>
    obtain rfl := List.mem_singleton.1 hL; exact .inl fun v => ⟨_, _, rfl⟩

/-! ## A cell of a column -/

theorem putCell_eq {x : s.Value} {p : ℕ}
    (h : subspan col p s.size = uintBytes abi.host s.size (s.toBits x)) :
    putCell abi s col p = putScalar s x := by
  rw [putCell, h, s.ofBits_uintBytes]

theorem encodeColumnValue_scalar {x : s.Value} (hkind : info.kind = scalarKind s)
    (h : subspan col (row * info.elemBytes) s.size = uintBytes abi.host s.size (s.toBits x)) :
    encodeColumnValue abi info col row = putScalar s x := by
  rw [encodeColumnValue, hkind]
  cases s with
  | bool =>
    -- a `bool` is read as `std::uint8_t`
    have hsub : subspan col (row * info.elemBytes) (Scalar.int false .one).size
        = uintBytes abi.host 1 (toNat x) := h
    have hread : putCell abi (.int false .one) col (row * info.elemBytes)
        = putScalar (.int false .one) (BitVec.ofNat 8 (Bool.toNat x)) := by
      refine putCell_eq (hsub.trans ?_)
      cases x <;> rfl
    refine hread.trans ?_
    cases x <;> rfl
  | int signed s => cases signed <;> cases s <;> exact putCell_eq h
  | float double => cases double <;> exact putCell_eq h

theorem encodeColumnValue_fixedBin (hkind : info.kind = .fixedBin) :
    encodeColumnValue abi info col row = subspan col (row * info.elemBytes) info.elemBytes := by
  rw [encodeColumnValue, hkind]

theorem scalarOf_of_byteElem (h : byteElem abi elem = true) (v : elem.Value) :
    ∃ s x, scalarOf elem v = some ⟨s, x⟩ ∧ s.size = 1 := by
  obtain ⟨hsize, hint⟩ := and_eq_true_iff.1 h
  have hsize := of_decide_eq_true hsize
  cases elem with
  | scalar s | endian order s | bits signed n order le_n n_le => exact ⟨_, _, rfl, hsize⟩
  | array n elem | struct n name field types => cases hint

theorem uintBytes_one (order : Nom.Endian) (u : ℕ) : uintBytes order 1 u = [UInt8.ofNat u] := by
  cases order <;> rfl

theorem leafBytes_of_byteElem (h : byteElem abi elem = true) (v : (Ty.array n elem).Value) :
    abi.leafBytes (.array n elem) v = fieldValue abi (.array n elem) v := by
  rw [Abi.leafBytes, fieldValue, if_pos h, List.map_eq_flatMap]
  congr 1
  funext k
  obtain ⟨s, x, hs, hone⟩ := scalarOf_of_byteElem h (v k)
  have hscalar := isScalar_of_scalarOf abi hs
  rw [hscalar.object, hscalar.byte, hone, uintBytes_one]

/-- Every array has single bytes as elements. -/
def ByteArrays (abi : Abi) (T : Ty) : Prop :=
  ∀ n elem, Ty.array n elem ∈ T.leaves → byteElem abi elem = true

/-- **A cell comes out of its column as it comes out of its row.** -/
theorem encodeColumnValue_leaf (hbytes : ByteArrays abi T) (hL : L ∈ T.leaves)
    (hkind : info.kind = leafKind abi L) (hwidth : info.elemBytes = leafWidth abi L)
    (hcell : subspan col (row * info.elemBytes) info.elemBytes = abi.leafBytes L v) :
    encodeColumnValue abi info col row = fieldValue abi L v := by
  obtain hscalar | ⟨n, elem, rfl⟩ := leaf_cases hL
  · obtain ⟨s, x, hs⟩ := hscalar v
    have hs := isScalar_of_scalarOf abi hs
    rw [hs.value]
    refine encodeColumnValue_scalar (hkind.trans hs.kind) ?_
    rw [← hs.bytes, ← hcell, hwidth, hs.width]
  · rw [encodeColumnValue_fixedBin hkind, hcell]
    exact leafBytes_of_byteElem (hbytes n elem hL) v

/-! ## Chunks -/

theorem encodeChunkRow_eq {ch : Chunk abi T} {r : ℕ} {v : T.Value} {g : (L : Ty) × L.Value → Bytes}
    (h : ∀ (c : ℕ) (info : ColumnInfo) (col : Bytes) (leaf : (L : Ty) × L.Value),
      (buildColumns abi T "" "")[c]? = some info → ch.cols[c]? = some col →
      (T.leafValues v)[c]? = some leaf → encodeColumnValue abi info col r = g leaf) :
    encodeChunkRow ch r = (T.leafValues v).flatMap g := by
  rw [encodeChunkRow]
  congr 1
  refine List.ext_getElem ?_ fun c hc hc' => ?_
  · rw [List.length_zipWith, ch.length_cols, min_self, List.length_map, length_buildColumns,
      Ty.length_leafValues]
  · rw [List.getElem_zipWith, List.getElem_map]
    exact h c _ _ _ (List.getElem?_eq_getElem _) (List.getElem?_eq_getElem _)
      (List.getElem?_eq_getElem _)

theorem chunkObjects_eq {ch : Chunk abi T} {group : List T.Value} (hrows : ch.rows = group.length)
    (h : ∀ (r : ℕ) (v : T.Value), group[r]? = some v → encodeChunkRow ch r = encodeRow abi T v) :
    chunkObjects ch = group.flatMap (encodeRow abi T) := by
  rw [chunkObjects, hrows, List.flatMap_def]
  congr 1
  refine List.ext_getElem (by simp) fun r hr hr' => ?_
  rw [List.getElem_map, List.getElem_map, List.getElem_range]
  exact h r _ (List.getElem?_eq_getElem _)

theorem wireBits_of_byteElem (h : byteElem abi elem = true)
    (hbits : elem.isBits = false) : abi.sizeOf elem = 1 ∧ elem.wireBits = 8 := by
  obtain ⟨hsize, hint⟩ := and_eq_true_iff.1 h
  have hsize := of_decide_eq_true hsize
  refine ⟨hsize, ?_⟩
  cases elem with
  | scalar s | endian order s => exact congrArg (8 * ·) hsize
  | bits signed n order le_n n_le => cases hbits
  | array n elem | struct n name field types => cases hint

/-- No array has bit fields as elements; one that has does not compile. -/
def NoBitArrays (T : Ty) : Prop := ∀ n elem, Ty.array n elem ∈ T.leaves → elem.isBits = false

theorem sized_of_byteArrays (hT : NoBitArrays T) (h : ByteArrays abi T) : Sized abi T := by
  refine sized_iff.2 fun n elem hL => ?_
  obtain ⟨hsize, hwire⟩ := wireBits_of_byteElem (h n elem hL) (hT n elem hL)
  rw [hsize, hwire]
  omega

theorem chunkObjects_of_holds (hT : NoBitArrays T) (hbytes : ByteArrays abi T) {ch : Chunk abi T}
    {group : List T.Value} (h : ch.Holds group) :
    chunkObjects ch = group.flatMap (encodeRow abi T) := by
  have hfaithful := h.faithful (sized_of_byteArrays hT hbytes)
  refine chunkObjects_eq h.rows fun r v hr => ?_
  rw [encodeRow, fieldValue_leaves]
  refine encodeChunkRow_eq fun c info col leaf hinfo hcol hleaf => ?_
  obtain ⟨L, hL, hkind, hwidth⟩ := getElem?_buildColumns hinfo
  obtain ⟨leaf', hleaf', hcell⟩ := (hfaithful.cells c info col hinfo hcol).2 r v hr
  obtain rfl := some.inj (hleaf.symm.trans hleaf')
  have htype : T.leaves[c]? = some leaf.1 := by
    rw [← Ty.map_fst_leafValues T v, List.getElem?_map, hleaf]
    rfl
  obtain rfl := some.inj (hL.symm.trans htype)
  exact encodeColumnValue_leaf hbytes (List.mem_of_getElem? htype) hkind hwidth hcell

/-! ## Long numbers -/

theorem putVarint_pos (u : ℕ) : 0 < (putVarint u).length := by
  rw [putVarint]
  split_ifs <;> exact succ_pos _

theorem putLong_pos (v : BitVec 64) : 0 < (putLong v).length := putVarint_pos _

theorem lt_of_putVarint (u : ℕ) : u < 2 ^ (7 * (putVarint u).length) := by
  induction u using putVarint.induct with
  | case1 u hlt =>
    rw [putVarint, if_pos hlt]
    exact hlt
  | case2 u hge ih =>
    rw [putVarint, if_neg hge, List.length_cons, Nat.mul_succ, pow_add]
    rw [shiftRight_eq_div_pow] at ih ⊢
    exact (Nat.div_lt_iff_lt_mul (by decide)).1 ih

theorem putLong_of_lt {x : ℕ} (hx : x < 2 ^ 63) :
    putLong (BitVec.ofNat 64 x) = putVarint (2 * x) := by
  have hnat : (BitVec.ofNat 64 x).toNat = x := by rw [toNat_ofNat, mod_eq_of_lt (by omega)]
  have hmsb : (BitVec.ofNat 64 x).msb = false := by rw [msb_eq_false_iff_two_mul_lt]; omega
  have hshift : (BitVec.ofNat 64 x) >>> 63 = 0#64 := by
    refine eq_of_toNat_eq ?_
    rw [toNat_ushiftRight, hnat, shiftRight_eq_div_pow, div_eq_of_lt hx]
    rfl
  rw [putLong, sshiftRight_eq_of_msb_false hmsb, hshift, BitVec.xor_zero,
    toNat_shiftLeft, hnat, Nat.shiftLeft_eq, mod_eq_of_lt (by omega), mul_comm]

/-- A number that is not negative is the same with and without a sign. -/
theorem putScalar_of_lt {signed : Bool} {size : Size} {x : ℕ} (hx : 2 * x < 2 ^ (8 * size.bytes)) :
    putScalar (.int signed size) (BitVec.ofNat _ x) = putVarint (2 * x) := by
  have hsize : 8 * size.bytes ≤ 64 := by cases size <;> decide
  have hpow : 2 ^ (8 * size.bytes) ≤ 2 ^ 64 := Nat.pow_le_pow_right (by decide) hsize
  have hnat : (BitVec.ofNat (8 * size.bytes) x).toNat = x := by
    rw [toNat_ofNat, mod_eq_of_lt (by omega)]
  have hmsb : (BitVec.ofNat (8 * size.bytes) x).msb = false := by
    rw [msb_eq_false_iff_two_mul_lt, hnat]
    exact hx
  have hwide : setWidth 64 (BitVec.ofNat (8 * size.bytes) x) = BitVec.ofNat 64 x := by
    refine eq_of_toNat_eq ?_
    rw [toNat_setWidth, hnat, toNat_ofNat]
  have hlong : putScalar (.int signed size) (BitVec.ofNat _ x) = putLong (BitVec.ofNat 64 x) := by
    cases signed with
    | false => exact congrArg putLong hwide
    | true => exact congrArg putLong ((signExtend_eq_setWidth_of_msb_false hmsb).trans hwide)
  rw [hlong, putLong_of_lt (by omega)]

/-- The largest number of `w` bits with a sign takes a byte for every seven. -/
theorem le_length_putScalar (signed : Bool) {size : Size} {w : ℕ} (hw : 1 ≤ w)
    (hle : w ≤ 8 * size.bytes) :
    w ≤ 7 * (putScalar (.int signed size) (BitVec.ofNat _ (2 ^ (w - 1) - 1))).length := by
  have hpos : 0 < 2 ^ (w - 1) := Nat.two_pow_pos _
  have hdouble : 2 ^ w = 2 * 2 ^ (w - 1) := by
    rw [Nat.mul_comm, ← Nat.pow_succ, succ_eq_add_one, Nat.sub_add_cancel hw]
  have hpow : 2 ^ w ≤ 2 ^ (8 * size.bytes) := Nat.pow_le_pow_right (by decide) hle
  rw [putScalar_of_lt (by omega)]
  have hlt := lt_of_putVarint (2 * (2 ^ (w - 1) - 1))
  have hone := putVarint_pos (2 * (2 ^ (w - 1) - 1))
  obtain rfl | hw' : w = 1 ∨ 2 ≤ w := by omega
  · omega
  -- twice the number has `w` bits
  have htwo : 2 ≤ 2 ^ (w - 1) := le_self_pow (by omega) 2
  have hexp := (Nat.pow_lt_pow_iff_right (by decide)).1 (lt_of_le_of_lt
    (show 2 ^ (w - 1) ≤ 2 * (2 ^ (w - 1) - 1) by omega) hlt)
  omega

end Avro

/-! ## The row of long numbers -/

namespace Layout

/-- A scalar that takes as many bytes in Avro as in memory. -/
def Scalar.big (s : Scalar) : s.Value := s.ofBits (2 ^ (8 * s.size - 1) - 1)

/-- A value with such scalars. -/
def Ty.big : (T : Ty) → T.Value
  | .scalar s => s.big
  | .endian order s => fun i => (uintBytes order s.size (s.toBits s.big)).getD i 0
  | .bits _ n _ _ _ => BitVec.ofNat _ (2 ^ (n - 1) - 1)
  | .array _ elem => fun _ => elem.big
  | .struct _ _ _ types => fun k => (types k).big

theorem Ty.leafValues_big {T : Ty} {leaf : (L : Ty) × L.Value} (h : leaf ∈ T.leafValues T.big) :
    ∃ L : Ty, leaf = ⟨L, L.big⟩ := by
  induction T with
  | struct n name field types ih =>
    obtain ⟨l, hl, hmem⟩ := List.mem_flatten.1 h
    obtain ⟨k, rfl⟩ := List.mem_ofFn.1 hl
    exact ih k hmem
  | _ => exact ⟨_, List.mem_singleton.1 h⟩

end Layout

namespace Avro

variable {abi : Abi} {T : Ty}

theorem size_le_big (s : Scalar) : s.size ≤ (putScalar s s.big).length := by
  cases s with
  | bool => exact putVarint_pos _
  | int signed size =>
    have hpos : 0 < size.bytes := by cases size <;> decide
    have hle := le_length_putScalar signed (w := 8 * size.bytes) (by omega) le_rfl
    have hlen : 8 * size.bytes
        ≤ 7 * (putScalar (.int signed size) (Scalar.int signed size).big).length := hle
    rw [Scalar.size]
    omega
  | float double =>
    rw [putScalar, putFloat, List.length_map, List.length_range]
    exact le_rfl

theorem ofFn_getD {l : Bytes} (h : l.length = n) : (List.ofFn fun i : Fin n => l.getD i 0) = l := by
  refine List.ext_getElem (by rw [List.length_ofFn, h]) fun i hi hi' => ?_
  rw [List.getElem_ofFn, List.getD_eq_getElem _ _ hi']

theorem fieldValue_endian_big (abi : Abi) (order : Nom.Endian) (s : Scalar) :
    fieldValue abi (.endian order s) (Ty.endian order s).big = putScalar s s.big := by
  have hbytes := ofFn_getD (length_uintBytes order s.size (s.toBits s.big))
  rw [fieldValue, Ty.big, hbytes, s.ofBits_uintBytes]

theorem wireBits_le_of_byteElem (h : byteElem abi elem = true) : elem.wireBits ≤ 8 := by
  cases hbits : elem.isBits with
  | false => exact (wireBits_of_byteElem h hbits).2.le
  | true =>
    cases elem with
    | bits signed n order le_n n_le =>
      have hsize := of_decide_eq_true (and_eq_true_iff.1 h).1
      have hle := le_uintForBits n_le
      rw [Abi.sizeOf] at hsize
      rw [Ty.wireBits]
      omega
    | _ => cases hbits

theorem length_fieldValue_array (h : byteElem abi elem = false)
    (v : (Ty.array n elem).Value) {k : ℕ} (hk : ∀ i, (fieldValue abi elem (v i)).length = k) :
    n * k + 2 ≤ (fieldValue abi (.array n elem) v).length := by
  have hitems : ((List.finRange n).flatMap fun i => fieldValue abi elem (v i)).length = n * k := by
    rw [length_flatMap_const hk, List.length_finRange]
  have hfront := putLong_pos (BitVec.ofNat 64 n)
  have hend := putLong_pos 0
  rw [fieldValue, h, if_neg Bool.false_ne_true, List.length_append, List.length_append]
  omega

/-- **The row of long numbers takes as many bytes in Avro as on the wire.** -/
theorem wireBits_le_big (abi : Abi) (T : Ty) :
    T.wireBits ≤ 8 * (fieldValue abi T T.big).length := by
  induction T with
  | scalar s => exact mul_le_mul_left 8 (size_le_big s)
  | endian order s =>
    rw [fieldValue_endian_big]
    exact mul_le_mul_left 8 (size_le_big s)
  | bits signed n order le_n n_le =>
    have hle : n ≤ 7 * (fieldValue abi (.bits signed n order le_n n_le) (Ty.big _)).length :=
      le_length_putScalar signed (by omega) (le_uintForBits n_le)
    rw [Ty.wireBits]
    omega
  | array n elem ih =>
    cases h : byteElem abi elem with
    | true =>
      rw [fieldValue, if_pos h, List.length_map, List.length_finRange, mul_comm 8]
      exact mul_le_mul_left n (wireBits_le_of_byteElem h)
    | false =>
      have hlen := length_fieldValue_array (n := n) h (fun _ => elem.big) fun _ => rfl
      calc n * elem.wireBits ≤ n * (8 * (fieldValue abi elem elem.big).length) :=
            mul_le_mul_left n ih
        _ = 8 * (n * (fieldValue abi elem elem.big).length) := mul_left_comm ..
        _ ≤ 8 * (fieldValue abi (.array n elem) (Ty.array n elem).big).length :=
            mul_le_mul_left 8 (le_trans (le_add_right _ 2) hlen)
  | struct n name field types ih =>
    rw [Ty.wireBits, fieldValue, List.length_flatMap, List.ofFn_eq_map, ← List.sum_map_mul_left]
    exact List.sum_le_sum fun k _ => ih k

/-! ## Where the encoders differ -/

/-- What `write_chunk` makes of a leaf that is alone in its column. -/
def encodeCell (abi : Abi) (leaf : (L : Ty) × L.Value) : Bytes :=
  encodeColumnValue abi ⟨"", leafKind abi leaf.1, leafWidth abi leaf.1, ""⟩
    (abi.leafBytes leaf.1 leaf.2) 0

theorem encodeChunkRow_single (v : T.Value) :
    encodeChunkRow (Chunk.empty.push v : Chunk abi T) 0
      = (T.leafValues v).flatMap (encodeCell abi) := by
  refine encodeChunkRow_eq fun c info col leaf hinfo hcol hleaf => ?_
  obtain ⟨L, hL, hkind, hwidth⟩ := getElem?_buildColumns hinfo
  have hc := (List.getElem?_eq_some_iff.1 hL).1
  obtain ⟨leaf', hleaf', htype, hpiece⟩ := piece_eq abi hc v
  obtain rfl := some.inj (hleaf.symm.trans hleaf')
  obtain rfl := some.inj (hL.symm.trans htype)
  obtain rfl := some.inj ((Chunk.cols_single abi hc v).symm.trans hcol)
  rw [encodeCell, encodeColumnValue, encodeColumnValue, hkind, hwidth, hpiece]

theorem encodeCell_scalar {x : s.Value}
    (h : scalarOf L v = some ⟨s, x⟩) : encodeCell abi ⟨L, v⟩ = fieldValue abi L v := by
  have hscalar := isScalar_of_scalarOf abi h
  have hfull := subspan_zero_length (uintBytes abi.host s.size (s.toBits x))
  rw [length_uintBytes] at hfull
  rw [hscalar.value]
  refine encodeColumnValue_scalar hscalar.kind ?_
  rw [Nat.zero_mul, hscalar.bytes, hfull]

theorem encodeCell_array (v : (Ty.array n elem).Value) :
    encodeCell abi ⟨.array n elem, v⟩
      = (abi.leafBytes (.array n elem) v).take (n * elem.wireBits / 8) := by
  rw [encodeCell, encodeColumnValue_fixedBin rfl, Nat.zero_mul]
  rfl

/-- An array of other elements than bytes is shorter in its column than in the
row of long numbers. -/
theorem length_encodeCell_lt (h : byteElem abi elem = false) :
    (encodeCell abi ⟨.array n elem, (Ty.array n elem).big⟩).length
      < (fieldValue abi (.array n elem) (Ty.array n elem).big).length := by
  have hlen := length_fieldValue_array (n := n) h (fun _ => elem.big) fun _ => rfl
  have hwire := mul_le_mul_left n (wireBits_le_big abi elem)
  rw [mul_left_comm] at hwire
  rw [encodeCell_array, List.length_take]
  refine lt_of_lt_of_le ?_ hlen
  omega

theorem length_encodeCell_le {leaf : (L : Ty) × L.Value} (h : leaf ∈ T.leafValues T.big) :
    (encodeCell abi leaf).length ≤ (fieldValue abi leaf.1 leaf.2).length := by
  have hL : leaf.1 ∈ T.leaves := Ty.map_fst_leafValues T T.big ▸ List.mem_map_of_mem h
  obtain ⟨L, rfl⟩ := Ty.leafValues_big h
  obtain hscalar | ⟨n, elem, rfl⟩ := leaf_cases hL
  · obtain ⟨s, x, hs⟩ := hscalar L.big
    rw [encodeCell_scalar hs]
  cases hbyte : byteElem abi elem with
  | false => exact (length_encodeCell_lt hbyte).le
  | true =>
    rw [encodeCell_array, leafBytes_of_byteElem hbyte]
    exact List.length_take_le' ..

theorem encodeChunkRow_big_ne (h : ¬ ByteArrays abi T) :
    encodeChunkRow (Chunk.empty.push T.big : Chunk abi T) 0 ≠ encodeRow abi T T.big := by
  simp only [ByteArrays, not_forall] at h
  obtain ⟨n, elem, hL, hbyte⟩ := h
  rw [← Ty.map_fst_leafValues T T.big] at hL
  obtain ⟨leaf, hmem, htype⟩ := List.mem_map.1 hL
  obtain ⟨L, rfl⟩ := Ty.leafValues_big hmem
  obtain rfl : L = .array n elem := htype
  intro heq
  have hlt : (encodeChunkRow (Chunk.empty.push T.big : Chunk abi T) 0).length
      < (encodeRow abi T T.big).length := by
    rw [encodeChunkRow_single, encodeRow, fieldValue_leaves, List.length_flatMap,
      List.length_flatMap]
    refine List.sum_lt_sum _ _ (fun leaf hleaf => length_encodeCell_le hleaf) ⟨_, hmem, ?_⟩
    exact length_encodeCell_lt (eq_false_iff.2 hbyte)
  exact absurd (congrArg List.length heq) hlt.ne

/-! ## Agreement -/

/-- The chunks, encoded by `write_chunk`, are their rows, encoded by
`avro_encode_row`. -/
def Alike (s : Store abi T) (rows : List T.Value) : Prop :=
  ∃ groups, groups.flatten = rows ∧ List.Forall₂ (fun ch group =>
    ch.rows = group.length ∧ chunkObjects ch = group.flatMap (encodeRow abi T)) s.chunks groups

/-- **The encoders agree on every run of a store exactly when the elements of its
arrays are single bytes.** -/
theorem encoders_agree_iff (abi : Abi) (T : Ty) (hT : NoBitArrays T) :
    (∀ chunkRows (calls : List (Call T)),
        Alike (Run.after Store.step (Store.new chunkRows : Store abi T) calls) (pushed calls))
      ↔ ∀ n elem, Ty.array n elem ∈ T.leaves → abi.sizeOf elem = 1 ∧ isIntegral elem = true := by
  have hbytes : ByteArrays abi T ↔ ∀ n elem, Ty.array n elem ∈ T.leaves →
      abi.sizeOf elem = 1 ∧ isIntegral elem = true := by
    simp only [ByteArrays, byteElem, and_eq_true, beq_iff_eq]
  rw [← hbytes]
  constructor
  · intro h
    by_contra hbytes
    obtain ⟨groups, hrows, hchunks⟩ := h 0 [.push T.big]
    have hone : (Run.after Store.step (Store.new 0 : Store abi T) [.push T.big]).chunks
        = [Chunk.empty.push T.big] := rfl
    rw [hone] at hchunks
    obtain _ | ⟨⟨-, hobjects⟩, hrest⟩ := hchunks
    cases hrest
    rw [List.flatten_singleton] at hrows
    rw [hrows] at hobjects
    have hall : chunkObjects (Chunk.empty.push T.big : Chunk abi T)
        = encodeChunkRow (Chunk.empty.push T.big : Chunk abi T) 0 := List.flatMap_singleton ..
    rw [hall] at hobjects
    exact encodeChunkRow_big_ne hbytes (hobjects.trans (List.flatMap_singleton ..))
  · intro hbytes chunkRows calls
    obtain ⟨groups, hholds, hflat⟩ := ((Store.keeps_new abi T chunkRows).after calls).chunks
    exact ⟨groups, hflat, hholds.imp fun _ _ h => ⟨h.rows, chunkObjects_of_holds hT hbytes h⟩⟩

/-- A port and a hardware address. -/
def macRow : Ty :=
  .struct 2 "row" (fun k => if k.1 = 0 then "port" else "mac") fun k =>
    if k.1 = 0 then .endian .big (.int false .two) else .array 6 (.scalar (.int false .one))

theorem encoders_agree_iff_macRow :
    NoBitArrays macRow ∧ ∀ chunkRows (calls : List (Call macRow)),
      Alike (Run.after Store.step (Store.new chunkRows : Store (.natural .little) macRow) calls)
        (pushed calls) := by
  have harray : ∀ n elem, Ty.array n elem ∈ macRow.leaves → elem = .scalar (.int false .one) := by
    intro n elem hL
    have hleaves : macRow.leaves
        = [.endian .big (.int false .two), .array 6 (.scalar (.int false .one))] := rfl
    rw [hleaves] at hL
    exact (show n = 6 ∧ elem = .scalar (.int false .one) by simpa using hL).2
  have hT : NoBitArrays macRow := fun n elem hL => harray n elem hL ▸ rfl
  refine ⟨hT, (encoders_agree_iff (.natural .little) macRow hT).2 fun n elem hL => ?_⟩
  rw [harray n elem hL]
  exact ⟨rfl, rfl⟩

/-- Two samples of two bytes. -/
def sampleRow : Ty :=
  .struct 1 "row" (fun _ => "samples") fun _ => .array 2 (.scalar (.int false .two))

/-- The row is an Avro array, the chunk is four bytes. -/
theorem sampleRow_not_alike :
    sampleRow.Compiles
      ∧ chunkObjects (Chunk.empty.push sampleRow.zero : Chunk (.natural .little) sampleRow)
        = [0, 0, 0, 0]
      ∧ encodeRow (.natural .little) sampleRow sampleRow.zero = [4, 0, 0, 0]
      ∧ ¬ Alike (Run.after Store.step (Store.new 4 : Store (.natural .little) sampleRow)
          [.push sampleRow.zero]) [sampleRow.zero] := by
  have hobjects :
      chunkObjects (Chunk.empty.push sampleRow.zero : Chunk (.natural .little) sampleRow)
        = [0, 0, 0, 0] := by decide
  have hnum : ∀ u < 0x80, putVarint u = [UInt8.ofNat u] := fun u hu => by rw [putVarint, if_pos hu]
  have hzero : putLong 0 = [0] := hnum _ (by decide)
  have htwo : putLong 2 = [4] := hnum _ (by decide)
  have hrow : encodeRow (.natural .little) sampleRow sampleRow.zero = [4, 0, 0, 0] := by
    have hparts : encodeRow (.natural .little) sampleRow sampleRow.zero
        = putLong 2 ++ (putLong 0 ++ (putLong 0 ++ [])) ++ putLong 0 ++ [] := rfl
    rw [hparts, hzero, htwo]
    rfl
  refine ⟨⟨rfl, fun _ => ⟨rfl, trivial⟩⟩, hobjects, hrow, ?_⟩
  rintro ⟨groups, hrows, hchunks⟩
  obtain _ | ⟨⟨-, heq⟩, hrest⟩ := hchunks
  cases hrest
  rw [List.flatten_singleton] at hrows
  rw [hrows, List.flatMap_singleton, hrow] at heq
  exact absurd heq (by decide)

end Avro

end Nanom
