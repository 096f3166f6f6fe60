import Nanom.Tagged.Reader

/-!
# Thrift compact — what is skipped

The bytes a value takes are found without its type. `takes_skip` says that
`skip` looks at no others, and takes no fewer than a count is checked
against, and `skip_mono` that more levels make no difference to what is
skipped.
-/

namespace Nanom.Tagged

open Nanom.Parser List Option Wire

variable {i n r type : ℕ} {s : Bytes}
variable {b rest : Bytes} {left left' v : ℕ}

/-! ## Varints -/

section Varint

variable {e : Stop} {s : Bytes}

/-- The loop of `varint` is that of `read_uleb128` for 64 bits. -/
theorem varintLoop_eq_ok (hi : i ≤ 9) : varintLoop e s i r b = .ok (v, rest) ↔
    ∃ k, readUleb128From 64 i r b = .ok (v, i + k) ∧ rest = b.drop k := by
  have hmax : leb128MaxBytes 64 = 10 := rfl
  have hbits : leb128LastBits 64 = 1 := rfl
  induction b generalizing i r with
  | nil => simp only [varintLoop, readUleb128From, reduceCtorEq, false_and, exists_false]
  | cons c b ih =>
    have hc : c.toNat < 256 := c.toNat_lt
    have hcont := and_0x80_eq_zero_iff c.toNat hc
    have hok (x : ℕ) : (Except.ok (x, b) : Except Stop (ℕ × Bytes)) = .ok (v, rest) ↔
        ∃ k, (Except.ok (x, i + 1) : Except VarintError (ℕ × ℕ)) = .ok (v, i + k) ∧
          rest = (c :: b).drop k := by
      simp only [Except.ok.injEq, Prod.mk.injEq, Nat.add_left_cancel_iff, and_assoc]
      constructor
      · exact fun h => ⟨1, h.1, rfl, h.2.symm⟩
      · rintro ⟨k, hx, rfl, hr⟩
        exact ⟨hx, hr.symm⟩
    simp only [varintLoop, readUleb128From, hmax, hbits, and_0x7f, u64, ne_eq, hcont,
      Nat.shiftRight_eq_div_pow]
    by_cases hlt : c.toNat < 128
    · rw [if_pos hlt, if_pos hlt, Nat.mod_eq_of_lt hlt]
      by_cases hlast : i + 1 = 10
      · by_cases hbad : 1 < c.toNat
        · rw [if_pos hlast, if_pos (by omega), if_pos (by omega)]
          simp only [fail, reduceCtorEq, false_and, exists_false]
        · rw [if_pos hlast, if_neg (by omega), if_neg (by omega)]
          exact hok _
      · rw [if_neg hlast, if_neg (by omega)]
        exact hok _
    · rw [if_neg hlt, if_neg hlt]
      by_cases hlast : i + 1 = 10
      · rw [if_neg (by omega), if_pos hlast, if_pos (.inl hlt)]
        simp only [fail, reduceCtorEq, false_and, exists_false]
      · rw [if_pos (by omega), if_neg hlast]
        refine (ih (by omega)).trans ⟨?_, ?_⟩
        · rintro ⟨k, hk, rfl⟩
          exact ⟨k + 1, by rw [hk, Nat.add_right_comm]; rfl, rfl⟩
        · rintro ⟨k, hk, rfl⟩
          have hpos : i + 1 < i + k := lt_of_readUleb128From hk
          obtain ⟨d, rfl⟩ : ∃ d, k = d + 1 := ⟨k - 1, by omega⟩
          exact ⟨d, by rw [hk, Nat.add_right_comm]; rfl, rfl⟩

/-- From the first byte on, the loop reads the varints of 64 bits. -/
theorem varintLoop_zero_eq_ok :
    varintLoop e s 0 0 b = .ok (v, rest) ↔
      ∃ k, Wire.varint 64 b = some (v, k) ∧ rest = b.drop k := by
  simp only [varintLoop_eq_ok (Nat.zero_le 9), zero_add,
    (readUleb128From_zero (show 0 < 64 by decide) b).ok_iff]

/-- **`varint` reads the varints of 64 bits**, on either path. -/
theorem varint_eq_ok :
    varint b = .ok (v, rest) ↔ ∃ k, Wire.varint 64 b = some (v, k) ∧ rest = b.drop k := by
  unfold varint
  by_cases hlen : 10 ≤ b.length
  · rw [if_pos hlen]
    cases b with
    | nil => exact absurd hlen (by decide)
    | cons c b =>
      -- the first byte of the fast path is the first round of the loop
      rw [← varintLoop_zero_eq_ok (e := .undefined) (s := c :: b), varintLoop]
      have hand : c.toNat &&& 0x7f < 2 ^ 64 :=
        lt_of_le_of_lt Nat.and_le_left (lt_trans c.toNat_lt (by decide))
      have hzero : 0 ||| u64 ((c.toNat &&& 0x7f) <<< (7 * 0)) = c.toNat &&& 0x7f := by
        rw [Nat.zero_or, Nat.shiftLeft_zero, u64_of_lt hand]
      rw [hzero]
      dsimp only
      by_cases hlt : c.toNat < 0x80
      · have : c.toNat &&& 0x7f = c.toNat := by rw [and_0x7f]; exact Nat.mod_eq_of_lt hlt
        rw [if_pos hlt, if_pos hlt, if_neg (by omega), this]
      · rw [if_neg hlt, if_neg hlt, if_pos (by decide)]
  · rw [if_neg hlen]
    exact varintLoop_zero_eq_ok

theorem takes_varint : Takes 1 varint := by
  intro b v rest h
  obtain ⟨k, hk, rfl⟩ := varint_eq_ok.1 h
  obtain ⟨hread, hfits⟩ := filter_eq_some_iff.mp hk
  have hused := leb128_used hread
  have hlen : (b.take k).length = k := by rw [length_take]; omega
  refine ⟨b.take k, (take_append_drop k b).symm, by rw [hlen]; exact hused.1, ?_⟩
  intro r
  refine varint_eq_ok.2 ⟨k, ?_, ?_⟩
  · have hpre : leb128 (b.take k) = some (v, k) := by
      rw [leb128_take, hread, filter_some, if_pos (decide_eq_true (le_refl k))]
    rw [Wire.varint, Wire.leb128_append hpre, filter_some, if_pos hfits]
  · exact (drop_left' hlen).symm

theorem varint_uleb128Encode (hv : v < 2 ^ 64) (rest : Bytes) :
    varint (uleb128Encode v ++ rest) = .ok (v, rest) := by
  have hlen := length_uleb128Encode (k := 10) (by decide)
    (lt_trans hv (Nat.pow_lt_pow_right (by decide) (by decide)))
  refine varint_eq_ok.2 ⟨(uleb128Encode v).length, ?_, drop_left.symm⟩
  rw [Wire.varint, Wire.leb128_uleb128Encode, filter_some, if_pos (decide_eq_true ⟨hv, hlen.2⟩)]

theorem skipVarintLoop_eq_ok (hi : i ≤ 9) :
    skipVarintLoop s i b = .ok ((), rest) ↔ ∃ v, varintLoop e s i r b = .ok (v, rest) := by
  induction b generalizing i r with
  | nil =>
    constructor
    · intro h
      rw [skipVarintLoop] at h
      split at h <;> cases h
    · rintro ⟨v, h⟩
      cases h
  | cons c b ih =>
    rw [skipVarintLoop, varintLoop, if_neg (by omega)]
    by_cases hlt : c.toNat < 0x80
    · rw [if_pos hlt, if_pos hlt]
      by_cases hbad : i = 9 ∧ 1 < c.toNat
      · rw [if_pos hbad, if_pos hbad]
        constructor
        · intro h
          cases h
        · rintro ⟨v, h⟩
          cases h
      · rw [if_neg hbad, if_neg hbad]
        constructor
        · intro h
          cases h
          exact ⟨_, rfl⟩
        · rintro ⟨v, h⟩
          cases h
          rfl
    · rw [if_neg hlt, if_neg hlt]
      by_cases hi9 : i + 1 < 10
      · rw [if_pos hi9]
        exact ih (by omega)
      obtain rfl : i = 9 := by omega
      constructor
      · intro h
        cases b with
        | nil =>
          rw [skipVarintLoop] at h
          split at h <;> cases h
        | cons d b => cases h
      · rintro ⟨v, h⟩
        cases h

/-- **`skip_varint` accepts what `varint` accepts.** -/
theorem skipVarint_eq_ok : skipVarint b = .ok ((), rest) ↔ ∃ v, varint b = .ok (v, rest) := by
  rw [skipVarint, skipVarintLoop_eq_ok (e := .undefined) (r := 0) (by decide)]
  simp only [varint_eq_ok, varintLoop_zero_eq_ok]

end Varint

/-! ## The bytes that are taken -/

theorem takes_varint32 : Takes 1 varint32 := takes_varint.check (0xffffffff < ·) _ id

/-- The number a varint stands for in zigzag. -/
def unzigzag (w : ℕ) : ℤ := (Wire.zigzagDecode (BitVec.ofNat 64 w)).toInt

theorem takes_zigzag (bits : ℕ) : Takes 1 (zigzag bits) :=
  takes_varint.check (fun w => unzigzag w < -2 ^ (bits - 1) ∨ 2 ^ (bits - 1) - 1 < unzigzag w) _
    fun w => BitVec.ofInt bits (unzigzag w)

theorem takes_byte : Takes 1 byte := by
  intro b c rest h
  cases b with
  | nil => cases h
  | cons c b =>
    cases h
    exact ⟨[c], rfl, le_refl 1, fun r => rfl⟩

theorem span_eq_ok {x : Bytes} :
    span n b = .ok (x, rest) ↔ b = x ++ rest ∧ x.length = n := chunk_eq_ok

theorem takes_span (n : ℕ) : Takes n (span n) := takes_chunk _ n

theorem advance_eq_ok : advance n b = .ok ((), rest) ↔ ∃ x, span n b = .ok (x, rest) := by
  rw [advance, span, chunk]
  by_cases hn : n ≤ b.length
  · rw [if_pos hn, if_neg (not_lt.2 hn)]
    constructor
    · intro h
      cases h
      exact ⟨_, rfl⟩
    · rintro ⟨x, h⟩
      cases h
      rfl
  · rw [if_neg hn, if_pos (not_le.1 hn)]
    constructor
    · intro h
      cases h
    · rintro ⟨x, h⟩
      cases h

theorem takes_advance (n : ℕ) : Takes n (advance n) := by
  intro b u rest h
  obtain ⟨x, hx⟩ := advance_eq_ok.1 h
  obtain ⟨pre, hpre, hlen, hall⟩ := takes_span n hx
  exact ⟨pre, hpre, hlen, fun r => advance_eq_ok.2 ⟨x, hall r⟩⟩

theorem takes_skipVarint : Takes 1 skipVarint := by
  intro b u rest h
  obtain ⟨v, hv⟩ := skipVarint_eq_ok.1 h
  obtain ⟨pre, hpre, hlen, hall⟩ := takes_varint hv
  exact ⟨pre, hpre, hlen, fun r => skipVarint_eq_ok.2 ⟨v, hall r⟩⟩

theorem takes_binary : Takes 1 binary :=
  takes_varint32.bind fun n => (takes_span n).mono (Nat.zero_le n)

/-! ## Lists -/

theorem minElemBytes_pos (type : ℕ) : 0 < minElemBytes type := by
  rw [minElemBytes]
  split <;> decide

theorem minElemBytes_of_ne {t : CType} (ht : CType.ofCode type = some t)
    (hne : t ≠ .dbl) : minElemBytes type = 1 := by
  rw [minElemBytes, CType.code_of_ofCode ht, if_neg]
  intro heq
  cases t <;> first | exact hne rfl | cases heq

/-- The header of a list, before its count is checked. -/
def listHead : Read ListHeader := fun s => do
  let (c, b) ← byte s
  let (count, b) ← listCount c b
  .ok (⟨count, c.toNat &&& 0x0f⟩, b)

theorem takes_listCount (c : UInt8) : Takes 0 (listCount c) := by
  unfold listCount
  by_cases hc : c.toNat >>> 4 = 15
  · simp only [if_pos hc]
    exact takes_varint32.mono (Nat.zero_le 1)
  · simp only [if_neg hc]
    exact takes_ok _

theorem takes_listHead : Takes 1 listHead :=
  takes_byte.bind fun c => (takes_listCount c).map fun count =>
    ListHeader.mk count (c.toNat &&& 0x0f)

/-- The count of a list is checked against the bytes that are left. -/
theorem readListHeader_eq_ok {h : ListHeader} :
    readListHeader s = .ok (h, b) ↔
      listHead s = .ok (h, b) ∧ h.count * minElemBytes h.elem ≤ b.length := by
  have hdiv := Nat.le_div_iff_mul_le (x := h.count) (y := b.length) (minElemBytes_pos h.elem)
  constructor
  · intro hread
    obtain ⟨c, b₁, hbyte, hread⟩ := read_eq_ok.1 hread
    obtain ⟨count, b₂, hcount, hread⟩ := read_eq_ok.1 hread
    obtain ⟨hfits, hread⟩ := check_eq_ok.1 hread
    cases hread
    exact ⟨read_eq_ok.2 ⟨c, b₁, hbyte, read_eq_ok.2 ⟨_, b, hcount, rfl⟩⟩, hdiv.1 (not_lt.1 hfits)⟩
  · rintro ⟨hread, hle⟩
    obtain ⟨c, b₁, hbyte, hread⟩ := read_eq_ok.1 hread
    obtain ⟨count, b₂, hcount, hread⟩ := read_eq_ok.1 hread
    cases hread
    exact read_eq_ok.2 ⟨c, b₁, hbyte, read_eq_ok.2 ⟨_, b, hcount,
      check_eq_ok.2 ⟨not_lt.2 (hdiv.2 hle), rfl⟩⟩⟩

/-- The header of a list is read alike with anything behind it that passes
the check. -/
theorem readListHeader_takes {h : ListHeader} (hread : readListHeader s = .ok (h, b)) :
    ∃ pre, s = pre ++ b ∧ 1 ≤ pre.length ∧
      ∀ r, h.count * minElemBytes h.elem ≤ r.length → readListHeader (pre ++ r) = .ok (h, r) := by
  obtain ⟨hraw, -⟩ := readListHeader_eq_ok.1 hread
  obtain ⟨pre, hpre, hlen, hall⟩ := takes_listHead hraw
  exact ⟨pre, hpre, hlen, fun r hr => readListHeader_eq_ok.2 ⟨hall r, hr⟩⟩

/-- What is read behind the header of a list has the bytes its count was
checked against, so the check passes whatever comes behind. -/
theorem takes_list {α : Type} {q : ListHeader → Read α}
    (hq : ∀ h, Takes (h.count * minElemBytes h.elem) (q h)) :
    Takes 1 (fun b => readListHeader b >>= fun x => q x.1 x.2) := by
  intro b a rest hread
  obtain ⟨⟨h, mid⟩, hhead, hqm⟩ := bind_eq_ok.1 hread
  obtain ⟨pre, rfl, hlen, hall⟩ := readListHeader_takes hhead
  obtain ⟨pre', rfl, hlen', hall'⟩ := hq h hqm
  refine ⟨pre ++ pre', by rw [append_assoc], ?_, ?_⟩
  · rw [length_append]
    omega
  · intro r
    have hcount : h.count * minElemBytes h.elem ≤ (pre' ++ r).length := by rw [length_append]; omega
    dsimp only
    rw [append_assoc, hall _ hcount]
    exact hall' r

/-! ## Skipping -/

/-- What `skip` takes at the least: an element of a container has a size
that counts are checked against. -/
structure Skips (deeper : ℕ → Bool → Read Unit) : Prop where
  elem : ∀ type, Takes (minElemBytes type) (deeper type true)
  field : ∀ type, Takes 0 (deeper type false)

section Levels

variable {deeper : ℕ → Bool → Read Unit}

theorem takes_skipElems (hd : Skips deeper) (h : ListHeader) :
    Takes (h.count * minElemBytes h.elem) (skipElems deeper h) := by
  have hother := takes_discard (takes_times (hd.elem h.elem) h.count)
  unfold skipElems
  cases ht : CType.ofCode h.elem with
  | none => exact hother
  | some t =>
    cases t with
    | boolTrue | boolFalse | i8 =>
      rw [minElemBytes_of_ne ht (by decide), mul_one]
      exact takes_advance _
    | i16 | i32 | i64 =>
      rw [minElemBytes_of_ne ht (by decide)]
      exact takes_discard (takes_times takes_skipVarint _)
    | dbl =>
      rw [CType.code_of_ofCode ht]
      exact takes_advance _
    | stop | binary | list | set | map | strct => exact hother

theorem takes_skipId (h : UInt8) : Takes 0 (skipId h) := by
  unfold skipId
  by_cases hh : h.toNat >>> 4 = 0
  · simp only [if_pos hh]
    exact takes_skipVarint.mono (Nat.zero_le 1)
  · simp only [if_neg hh]
    exact takes_ok ()

theorem takes_skipInline (hd : Skips deeper) (type : ℕ) : Takes 0 (skipInline deeper type) := by
  unfold skipInline
  split
  case h_1 | h_2 => exact takes_ok ()
  case h_3 => exact (takes_discard takes_byte).mono (Nat.zero_le 1)
  case h_4 | h_5 | h_6 => exact takes_skipVarint.mono (Nat.zero_le 1)
  case h_7 => exact (takes_discard takes_binary).mono (Nat.zero_le 1)
  case h_8 => exact hd.field type

theorem skipField_eq_ok {u u' : Unit} {h : UInt8} :
    skipField deeper u h b = .ok (u', rest) ↔ ∃ mid, skipId h b = .ok ((), mid) ∧
      skipInline deeper (h.toNat &&& 0x0f) mid = .ok ((), rest) := by
  constructor
  · intro hrun
    obtain ⟨v, mid, hid, hval⟩ := read_eq_ok.1 hrun
    exact ⟨mid, hid, hval⟩
  · rintro ⟨mid, hid, hval⟩
    exact read_eq_ok.2 ⟨(), mid, hid, hval⟩

theorem takes_skipField (hd : Skips deeper) (u : Unit) (h : UInt8) :
    Takes 0 (skipField deeper u h) := (takes_skipId h).bind fun _ => takes_skipInline hd _

theorem takes_skipStructWith (hd : Skips deeper) (left : ℕ) :
    Takes 1 (skipStructWith left deeper) := by
  unfold skipStructWith
  by_cases hleft : left = 0
  · simp only [if_pos hleft]
    exact takes_error _ 1
  · simp only [if_neg hleft]
    exact takes_loop (takes_skipField hd) ()

theorem takes_skipPair (hd : Skips deeper) (kt vt : ℕ) :
    Takes (minElemBytes kt + minElemBytes vt) (skipPair deeper kt vt) :=
  (hd.elem kt).bind fun _ => hd.elem vt

/-- A map, once its check is known to pass: the entries have the bytes the
count was checked against. -/
theorem skipMap_eq_ok :
    skipMap deeper s = .ok ((), rest) ↔ ∃ n b, varint32 s = .ok (n, b) ∧
      ((n = 0 ∧ rest = b) ∨ (n ≠ 0 ∧ ∃ kv b', byte b = .ok (kv, b') ∧
        n * (minElemBytes (kv.toNat >>> 4) + minElemBytes (kv.toNat &&& 0x0f)) ≤ b'.length ∧
        ∃ l, times (skipPair deeper (kv.toNat >>> 4) (kv.toNat &&& 0x0f)) n b'
          = .ok (l, rest))) := by
  have hpos : ∀ k v, 0 < minElemBytes k + minElemBytes v := fun k v =>
    Nat.add_pos_left (minElemBytes_pos k) _
  constructor
  · intro h
    obtain ⟨n, b, hn, h⟩ := read_eq_ok.1 h
    refine ⟨n, b, hn, ?_⟩
    dsimp only at h
    by_cases hzero : n = 0
    · rw [if_pos hzero] at h
      cases h
      exact .inl ⟨hzero, rfl⟩
    rw [if_neg hzero] at h
    obtain ⟨kv, b', hkv, h⟩ := read_eq_ok.1 h
    obtain ⟨hfits, h⟩ := check_eq_ok.1 h
    exact .inr ⟨hzero, kv, b', hkv, (Nat.le_div_iff_mul_le (hpos _ _)).1 (not_lt.1 hfits),
      discard_eq_ok.1 h⟩
  · rintro ⟨n, b, hn, hcase⟩
    refine read_eq_ok.2 ⟨n, b, hn, ?_⟩
    dsimp only
    rcases hcase with ⟨hzero, rfl⟩ | ⟨hzero, kv, b', hkv, hle, l, hl⟩
    · rw [if_pos hzero]
    · rw [if_neg hzero]
      exact read_eq_ok.2 ⟨kv, b', hkv, check_eq_ok.2
        ⟨not_lt.2 ((Nat.le_div_iff_mul_le (hpos _ _)).2 hle), discard_eq_ok.2 ⟨l, hl⟩⟩⟩

theorem takes_skipMap (hd : Skips deeper) : Takes 1 (skipMap deeper) := by
  intro s u rest h
  obtain ⟨n, b, hn, hcase⟩ := skipMap_eq_ok.1 h
  obtain ⟨pre, rfl, hlen, hall⟩ := takes_varint32 hn
  rcases hcase with ⟨hzero, rfl⟩ | ⟨hzero, kv, b', hkv, -, l, hl⟩
  · exact ⟨pre, rfl, hlen, fun r => skipMap_eq_ok.2 ⟨n, r, hall r, .inl ⟨hzero, rfl⟩⟩⟩
  obtain ⟨pre', rfl, -, hall'⟩ := takes_byte hkv
  obtain ⟨pre'', rfl, hlen'', hall''⟩ := takes_times (takes_skipPair hd _ _) n hl
  refine ⟨pre ++ (pre' ++ pre''), by simp only [append_assoc], ?_, ?_⟩
  · rw [length_append]
    omega
  · intro r
    simp only [append_assoc]
    refine skipMap_eq_ok.2 ⟨n, _, hall _, .inr ⟨hzero, kv, _, hall' _, ?_, l, hall'' r⟩⟩
    rw [length_append]
    omega

theorem takes_skipNested (hd : Skips deeper) (left : ℕ) (t : CType) :
    Takes 1 (skipNested left deeper t) := by
  have hlist := takes_list (takes_skipElems hd)
  cases t with
  | map => exact takes_skipMap hd
  | strct => exact takes_skipStructWith hd left
  | _ => exact hlist

theorem skips_skipWith {nested : CType → Read Unit} (hn : ∀ t, Takes 1 (nested t)) :
    Skips (skipWith nested) := by
  have hbyte := takes_discard takes_byte
  have hbinary := takes_discard takes_binary
  constructor
  · intro type
    cases ht : CType.ofCode type with
    | none =>
      simp only [skipWith, ht]
      exact takes_error _ _
    | some t =>
      cases t with
      | stop =>
        simp only [skipWith, ht]
        exact takes_error _ _
      | dbl =>
        rw [CType.code_of_ofCode ht]
        exact takes_discard (takes_span 8)
      | boolTrue | boolFalse | i8 =>
        rw [minElemBytes_of_ne ht (by decide)]
        simp only [skipWith, ht]
        exact hbyte
      | i16 | i32 | i64 =>
        rw [minElemBytes_of_ne ht (by decide)]
        simp only [skipWith, ht]
        exact takes_skipVarint
      | binary =>
        rw [minElemBytes_of_ne ht (by decide)]
        simp only [skipWith, ht]
        exact hbinary
      | list | set | map | strct =>
        rw [minElemBytes_of_ne ht (by decide)]
        simp only [skipWith, ht]
        exact hn _
  · intro type
    unfold skipWith
    split
    case h_1 | h_2 => exact takes_ok ()
    case h_3 => exact hbyte.mono (Nat.zero_le 1)
    case h_4 | h_5 | h_6 => exact takes_skipVarint.mono (Nat.zero_le 1)
    case h_7 => exact (takes_discard (takes_span 8)).mono (Nat.zero_le 8)
    case h_8 => exact hbinary.mono (Nat.zero_le 1)
    case h_9 | h_10 | h_11 | h_12 => exact (hn _).mono (Nat.zero_le 1)
    case h_13 | h_14 => exact takes_error _ _

end Levels

/-- **`skip` takes what it skips**, at every depth. -/
theorem skips_skip (left : ℕ) : Skips (skip left) := by
  induction left with
  | zero => exact skips_skipWith fun t => takes_error _ 1
  | succ left ih => exact skips_skipWith (takes_skipNested ih left)

theorem takes_skipStruct (left : ℕ) : Takes 1 (skipStruct left) :=
  takes_skipStructWith (skips_skip left) left

/-! ## More levels -/

section More

variable {deeper deeper' : ℕ → Bool → Read Unit}

section

variable (hd : ∀ type c, Follows (deeper' type c) (deeper type c))
include hd

theorem follows_skipElems
    (h : ListHeader) : Follows (skipElems deeper' h) (skipElems deeper h) := by
  have hother := follows_discard (follows_times (hd h.elem true) h.count)
  unfold skipElems
  split
  case h_8 => exact hother
  all_goals exact Follows.refl _

theorem follows_skipStructWith (hleft : left ≤ left') :
    Follows (skipStructWith left' deeper') (skipStructWith left deeper) := by
  have hinline : ∀ type, Follows (skipInline deeper' type) (skipInline deeper type) := by
    intro type
    unfold skipInline
    split
    case h_8 => exact hd type false
    all_goals exact Follows.refl _
  intro b u rest h
  obtain ⟨hzero, h⟩ := check_eq_ok.1 h
  have hfield : ∀ (s t : Unit) c b s' mid, True → skipField deeper s c b = .ok (s', mid) →
      ∃ t', skipField deeper' t c b = .ok (t', mid) ∧ True := by
    intro s t c b s' mid _ hstep
    obtain ⟨b', hid, hval⟩ := skipField_eq_ok.1 hstep
    obtain ⟨v', hv'⟩ := hinline _ hval
    exact ⟨(), skipField_eq_ok.2 ⟨b', hid, hv'⟩, trivial⟩
  obtain ⟨t, ht, -⟩ := loop_sim hfield trivial h
  exact ⟨t, check_eq_ok.2 ⟨by omega, ht⟩⟩

theorem follows_skipPair (kt vt : ℕ) :
    Follows (skipPair deeper' kt vt) (skipPair deeper kt vt) := by
  intro b u rest h
  obtain ⟨v, mid, hkey, hval⟩ := read_eq_ok.1 h
  obtain ⟨v', hkey'⟩ := hd kt true hkey
  obtain ⟨u', hval'⟩ := hd vt true hval
  exact ⟨u', read_eq_ok.2 ⟨v', mid, hkey', hval'⟩⟩

theorem follows_skipMap : Follows (skipMap deeper') (skipMap deeper) := by
  intro b u rest h
  obtain ⟨n, b₁, hn, hcase⟩ := skipMap_eq_ok.1 h
  refine ⟨(), skipMap_eq_ok.2 ⟨n, b₁, hn, ?_⟩⟩
  rcases hcase with hzero | ⟨hzero, kv, b₂, hkv, hle, l, hl⟩
  · exact .inl hzero
  · exact .inr ⟨hzero, kv, b₂, hkv, hle, follows_times (follows_skipPair hd _ _) n hl⟩

theorem follows_skipNested (hleft : left ≤ left') (t : CType) :
    Follows (skipNested left' deeper' t) (skipNested left deeper t) := by
  have hlist : Follows (fun b => readListHeader b >>= fun x => skipElems deeper' x.1 x.2)
      (fun b => readListHeader b >>= fun x => skipElems deeper x.1 x.2) := by
    intro b u rest h
    obtain ⟨hd', mid, hhead, helems⟩ := read_eq_ok.1 h
    obtain ⟨u', hu'⟩ := follows_skipElems hd hd' helems
    exact ⟨u', read_eq_ok.2 ⟨hd', mid, hhead, hu'⟩⟩
  cases t with
  | map => exact follows_skipMap hd
  | strct => exact follows_skipStructWith hd hleft
  | _ => exact hlist

end

theorem follows_skipWith {nested nested' : CType → Read Unit}
    (hn : ∀ t, Follows (nested' t) (nested t)) (type : ℕ) (c : Bool) :
    Follows (skipWith nested' type c) (skipWith nested type c) := by
  unfold skipWith
  split
  case h_9 | h_10 | h_11 | h_12 => exact hn _
  all_goals exact Follows.refl _

end More

/-- **More levels make no difference** to what is skipped. -/
theorem skip_mono (h : left ≤ left') (type : ℕ) (c : Bool) :
    Follows (skip left' type c) (skip left type c) := by
  induction left generalizing left' type c with
  | zero =>
    cases left' with
    | zero => exact Follows.refl _
    | succ left' =>
      refine follows_skipWith (fun t => ?_) type c
      intro b u rest hb
      cases hb
  | succ left ih =>
    cases left' with
    | zero => omega
    | succ left' =>
      have hle : left ≤ left' := Nat.le_of_succ_le_succ h
      exact follows_skipWith (follows_skipNested (fun t c => ih hle t c) hle) type c

/-- What is skipped at two depths is the same. -/
theorem skip_unique {c : Bool} {rest' : Bytes}
    (h : skip left type c b = .ok ((), rest)) (h' : skip left' type c b = .ok ((), rest')) :
    rest = rest' := by
  rcases le_total left left' with hle | hle
  · obtain ⟨u, hu⟩ := skip_mono hle type c h
    rw [h'] at hu
    cases hu
    rfl
  · obtain ⟨u, hu⟩ := skip_mono hle type c h'
    rw [h] at hu
    cases hu
    rfl

end Nanom.Tagged
