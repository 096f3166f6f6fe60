import Nanom.Common.Bytes
import Nanom.Common.Loop

/-!
# Varints

`readUleb128` is the reader of unsigned LEB128 numbers of a given width,
with its loop over the bytes and its check of the last permitted one.
`leb128` is the plain reading of the format, with no width at all, and
`readUleb128_refines` says that the reader accepts what fits. What
`uleb128Encode` writes is read back, and so is what `zigzagEncode` maps.
-/

namespace Nanom.Wire

open List Option

variable {b bits k : ℕ}
variable {i v : ℕ} {input : Bytes} {p : ℕ × ℕ}

/-- Why a varint is refused: what was expected there, or how many bytes
are needed. -/
inductive VarintError
  | error (expected : String)
  | incomplete (needed : ℕ)

/-- `leb128_max_bytes`: the bytes a varint of a width can take. -/
def leb128MaxBytes (bits : ℕ) : ℕ := (bits + 6) / 7

/-- The bits of the value that the last permitted byte may carry. -/
def leb128LastBits (bits : ℕ) : ℕ := bits - 7 * (leb128MaxBytes bits - 1)

/-- The loop of `read_uleb128` from byte `i` on, with the value so far. -/
def readUleb128From (bits : ℕ) : ℕ → ℕ → Bytes → Except VarintError (ℕ × ℕ)
  | _, _, [] => .error (.incomplete 1)
  | i, v, b :: rest =>
    if i + 1 = leb128MaxBytes bits then
      if b.toNat &&& 0x80 ≠ 0 ∨ b.toNat >>> leb128LastBits bits ≠ 0 then
        .error (.error "varint fitting the target width")
      else .ok (v ||| (b.toNat <<< (7 * i) % 2 ^ bits), i + 1)
    else
      let v := v ||| ((b.toNat &&& 0x7f) <<< (7 * i) % 2 ^ bits)
      if b.toNat &&& 0x80 = 0 then .ok (v, i + 1) else readUleb128From bits (i + 1) v rest

/-- `read_uleb128`: the value and the bytes it takes. -/
def readUleb128 (bits : ℕ) (input : Bytes) : Except VarintError (ℕ × ℕ) :=
  readUleb128From bits 0 0 (input.take (leb128MaxBytes bits))

def varintU32 : Bytes → Except VarintError (ℕ × ℕ) := readUleb128 32

def varintU64 : Bytes → Except VarintError (ℕ × ℕ) := readUleb128 64

/-- `uleb128_encode`: the bytes it writes. -/
def uleb128Encode (v : ℕ) : Bytes :=
  if v < 0x80 then [UInt8.ofNat v]
  else (UInt8.ofNat v ||| 0x80) :: uleb128Encode (v >>> 7)
termination_by v
decreasing_by
  rw [Nat.shiftRight_eq_div_pow]
  omega

/-! ## The format -/

/-- **The plain reading**: seven bits a byte, lowest first, up to the
first byte without the continuation bit. -/
def leb128 : Bytes → Option (ℕ × ℕ)
  | [] => none
  | b :: rest =>
    if b.toNat < 128 then some (b.toNat, 1)
    else (leb128 rest).map fun p => (b.toNat - 128 + 128 * p.1, p.2 + 1)

/-- A varint of a width: a number that fits, in no more bytes than the
width needs. -/
def varint (bits : ℕ) (input : Bytes) : Option (ℕ × ℕ) :=
  (leb128 input).filter fun p => p.1 < 2 ^ bits ∧ p.2 ≤ leb128MaxBytes bits

theorem leb128_used (h : leb128 input = some p) : 0 < p.2 ∧ p.2 ≤ input.length := by
  induction input generalizing p with
  | nil => cases h
  | cons b rest ih =>
    rw [leb128] at h
    rw [length_cons]
    split at h
    · cases h
      exact ⟨by omega, by omega⟩
    · obtain ⟨q, hq, rfl⟩ := map_eq_some_iff.mp h
      have := ih hq
      exact ⟨by omega, by omega⟩

theorem varint_bounds (h : varint bits input = some p) : p.1 < 2 ^ bits ∧ p.2 ≤ input.length := by
  obtain ⟨hread, hfits⟩ := filter_eq_some_iff.mp h
  exact ⟨(of_decide_eq_true hfits).1, (leb128_used hread).2⟩

/-- The bytes behind a varint do not matter, and neither do they help. -/
theorem leb128_take (input : Bytes) (m : ℕ) :
    leb128 (input.take m) = (leb128 input).filter fun p => p.2 ≤ m := by
  induction input generalizing m with
  | nil => rw [take_nil]; rfl
  | cons b rest ih =>
    cases m with
    | zero =>
      symm
      refine filter_eq_none_iff.mpr ?_
      intro p hp hle
      have := leb128_used hp
      have := of_decide_eq_true hle
      omega
    | succ m =>
      rw [take_succ_cons, leb128, leb128, ih]
      split
      · rw [filter_some, if_pos (by simp)]
      cases leb128 rest with
      | none => rfl
      | some p =>
        simp only [filter_some, map_some, Nat.add_le_add_iff_right]
        split <;> rfl

theorem leb128_append (h : leb128 input = some p) (r : Bytes) : leb128 (input ++ r) = some p := by
  induction input generalizing p with
  | nil => cases h
  | cons b rest ih =>
    rw [leb128] at h
    rw [cons_append, leb128]
    by_cases hb : b.toNat < 128
    · rw [if_pos hb] at h ⊢
      exact h
    · rw [if_neg hb] at h ⊢
      obtain ⟨q, hq, rfl⟩ := map_eq_some_iff.mp h
      rw [ih hq]
      rfl

/-! ## The reader reads the format -/

theorem and_0x80_eq_zero_iff : ∀ b < 256, b &&& 0x80 = 0 ↔ b < 128 := by
  decide +kernel

theorem and_0x7f (b : ℕ) : b &&& 0x7f = b % 128 := Nat.and_two_pow_sub_one_eq_mod b 7

theorem or_shiftLeft_mod {x : ℕ} (hv : v < 2 ^ k) (hx : 2 ^ k * x < 2 ^ bits) :
    v ||| (x <<< k % 2 ^ bits) = v + 2 ^ k * x := by
  rw [Nat.shiftLeft_eq, mul_comm x, Nat.mod_eq_of_lt hx, Nat.or_comm,
    ← Nat.two_pow_add_eq_or_of_lt hv, add_comm]

section Width

variable {bits : ℕ}

theorem leb128MaxBytes_pos (hbits : 0 < bits) : 0 < leb128MaxBytes bits := by
  rw [leb128MaxBytes]
  omega

/-- The bits of the bytes before the last one and of that one make up
the width. -/
theorem leb128LastBits_add (hbits : 0 < bits) :
    7 * (leb128MaxBytes bits - 1) + leb128LastBits bits = bits := by
  rw [leb128LastBits, leb128MaxBytes]
  omega

theorem add_mul_lt_iff (hbits : 0 < bits) (hi : i + 1 = leb128MaxBytes bits)
    (hv : v < 2 ^ (7 * i)) : v + 2 ^ (7 * i) * b < 2 ^ bits ↔ b < 2 ^ leb128LastBits bits := by
  have hsum : 2 ^ bits = 2 ^ (7 * i) * 2 ^ leb128LastBits bits := by
    rw [← pow_add]
    congr 1
    have := leb128LastBits_add hbits
    rw [← hi] at this
    exact this.symm
  rw [hsum]
  constructor
  · intro h
    exact Nat.lt_of_mul_lt_mul_left (lt_of_le_of_lt (Nat.le_add_left _ v) h)
  · intro h
    calc v + 2 ^ (7 * i) * b < 2 ^ (7 * i) * (b + 1) := by rw [Nat.mul_succ]; omega
      _ ≤ 2 ^ (7 * i) * 2 ^ leb128LastBits bits := Nat.mul_le_mul_left _ h

theorem add_mul_lt (hv : v < 2 ^ (7 * i)) (hb : b < 128) :
    v + 2 ^ (7 * i) * b < 2 ^ (7 * (i + 1)) := by
  calc v + 2 ^ (7 * i) * b < 2 ^ (7 * i) * (b + 1) := by rw [Nat.mul_succ]; omega
    _ ≤ 2 ^ (7 * i) * 2 ^ 7 := Nat.mul_le_mul_left _ (by omega)
    _ = 2 ^ (7 * (i + 1)) := by rw [← pow_add]; rfl

/-- The bits of a byte go below those of the rest, whether they are added
as the byte is read or after the rest. -/
theorem map_leb128_cons (i v b : ℕ) (rest : Bytes) :
    ((leb128 rest).map fun p => (b + 128 * p.1, p.2 + 1)).map
        (fun p => (v + 2 ^ (7 * i) * p.1, i + p.2))
      = (leb128 rest).map fun p =>
        (v + 2 ^ (7 * i) * b + 2 ^ (7 * (i + 1)) * p.1, i + 1 + p.2) := by
  rw [Option.map_map]
  congr 1
  funext p
  have hpow : 2 ^ (7 * (i + 1)) = 2 ^ (7 * i) * 128 := by rw [Nat.mul_succ, Nat.pow_add]
  rw [hpow, Nat.mul_assoc, Nat.add_assoc v, ← Nat.mul_add, Nat.add_right_comm i]
  rfl

/-- The last permitted byte has to end the varint, and what it carries has
to fit. -/
theorem readUleb128From_last (hbits : 0 < bits) (b : UInt8) (rest : Bytes)
    (hlast : i + 1 = leb128MaxBytes bits) (hv : v < 2 ^ (7 * i)) :
    Refines (fun _ => True) Eq (readUleb128From bits i v (b :: rest))
      (((leb128 (b :: rest)).map fun p => (v + 2 ^ (7 * i) * p.1, i + p.2)).filter
        fun p => p.1 < 2 ^ bits ∧ p.2 ≤ leb128MaxBytes bits) := by
  have hcont := and_0x80_eq_zero_iff b.toNat b.toNat_lt
  have hfit := add_mul_lt_iff (b := b.toNat) hbits hlast hv
  simp only [readUleb128From, leb128, Ne, hcont, Nat.shiftRight_eq_div_pow,
    Nat.div_eq_zero_iff_lt (Nat.two_pow_pos _)]
  rw [if_pos hlast]
  by_cases hb : b.toNat < 128
  · rw [if_pos hb, map_some, filter_some]
    by_cases hlt : b.toNat < 2 ^ leb128LastBits bits
    · have hval := hfit.mpr hlt
      rw [if_neg (by simp [hb, hlt]), if_pos (decide_eq_true ⟨hval, hlast.le⟩),
        or_shiftLeft_mod hv (by omega)]
      exact .ok rfl
    · rw [if_pos (.inr hlt), if_neg (by simpa using fun h => absurd (hfit.mp h) hlt)]
      exact .error trivial
  · have hnone : (((leb128 rest).map fun p => (b.toNat - 128 + 128 * p.1, p.2 + 1)).map
        fun p => (v + 2 ^ (7 * i) * p.1, i + p.2)).filter
          (fun p => p.1 < 2 ^ bits ∧ p.2 ≤ leb128MaxBytes bits) = none := by
      rw [map_leb128_cons]
      refine filter_eq_none_iff.mpr fun p hp hle => ?_
      obtain ⟨q, hq, rfl⟩ := map_eq_some_iff.mp hp
      have hused := leb128_used hq
      have hle := (of_decide_eq_true hle).2
      omega
    rw [if_pos (.inl hb), if_neg hb, hnone]
    exact .error trivial

theorem readUleb128From_refines (hbits : 0 < bits) {rest : Bytes}
    (hi : i < leb128MaxBytes bits) (hv : v < 2 ^ (7 * i)) :
    Refines (fun _ => True) Eq (readUleb128From bits i v rest)
      (((leb128 rest).map fun p => (v + 2 ^ (7 * i) * p.1, i + p.2)).filter
        fun p => p.1 < 2 ^ bits ∧ p.2 ≤ leb128MaxBytes bits) := by
  -- over the bytes: the value so far is below the bits still to come
  induction rest generalizing i v with
  | nil => exact .error trivial
  | cons b rest ih =>
    by_cases hlast : i + 1 = leb128MaxBytes bits
    · exact readUleb128From_last hbits b rest hlast hv
    have hup := add_mul_lt (b := b.toNat % 128) hv (by omega)
    have hbound : 2 ^ (7 * (i + 1)) ≤ 2 ^ bits := by
      refine Nat.pow_le_pow_right (by omega) ?_
      rw [leb128MaxBytes] at hi hlast
      omega
    simp only [readUleb128From, leb128, and_0x80_eq_zero_iff b.toNat b.toNat_lt, and_0x7f]
    rw [if_neg hlast, or_shiftLeft_mod hv (by omega)]
    by_cases hb : b.toNat < 128
    · rw [if_pos hb, if_pos hb, map_some, filter_some, Nat.mod_eq_of_lt hb]
      rw [Nat.mod_eq_of_lt hb] at hup
      rw [if_pos (decide_eq_true ⟨lt_of_lt_of_le hup hbound, hi⟩)]
      exact .ok rfl
    · have hmod : b.toNat - 128 = b.toNat % 128 := by have : b.toNat < 256 := b.toNat_lt; omega
      rw [if_neg hb, if_neg hb, map_leb128_cons, hmod]
      exact ih (by omega) hup

theorem readUleb128From_zero (hbits : 0 < bits) (input : Bytes) :
    Refines (fun _ => True) Eq (readUleb128From bits 0 0 input) (varint bits input) := by
  have h := @readUleb128From_refines 0 0 bits hbits input (leb128MaxBytes_pos hbits) (by decide)
  have hmap : (fun p : ℕ × ℕ => (0 + 2 ^ (7 * 0) * p.1, 0 + p.2)) = id := by funext p; simp
  rwa [hmap, Option.map_id] at h

end Width

/-- **The reader accepts the varints of its width**, and reads what they
say. -/
theorem readUleb128_refines (bits : ℕ) (hbits : 0 < bits) (input : Bytes) :
    Refines (fun _ => True) Eq (readUleb128 bits input) (varint bits input) := by
  have h := readUleb128From_zero hbits (input.take (leb128MaxBytes bits))
  rw [varint, leb128_take, Option.filter_filter] at h
  simp only [← Bool.decide_and, and_left_comm, and_self] at h
  exact h

theorem readUleb128_of_varint (hbits : 0 < bits) (h : varint bits input = some p) :
    readUleb128 bits input = .ok p := (readUleb128_refines bits hbits input).ok_iff.2 h

/-- A varint takes a byte at least, and no more than there are. -/
theorem readUleb128_used (hbits : 0 < bits) (h : readUleb128 bits input = .ok p) :
    0 < p.2 ∧ p.2 ≤ input.length :=
  leb128_used (filter_eq_some_iff.mp ((readUleb128_refines bits hbits input).ok_iff.1 h)).1

theorem lt_of_readUleb128From (h : readUleb128From bits i v input = .ok p) : i < p.2 := by
  induction input generalizing i v with
  | nil => cases h
  | cons b rest ih =>
    rw [readUleb128From] at h
    split at h
    · split at h <;> cases h
      exact Nat.lt_succ_self i
    · split at h
      · cases h
        exact Nat.lt_succ_self i
      · exact Nat.lt_of_succ_lt (ih h)

/-! ## Writing -/

theorem ofNat_or_0x80 : ∀ b < 256, (UInt8.ofNat b ||| 0x80).toNat = b % 128 + 128 := by
  decide +kernel

theorem toNat_or_0x80 (v : ℕ) : (UInt8.ofNat v ||| 0x80).toNat = v % 128 + 128 := by
  have hbyte : UInt8.ofNat v = UInt8.ofNat (v % 256) := by
    refine UInt8.toNat_inj.1 ?_
    rw [UInt8.toNat_ofNat', UInt8.toNat_ofNat', Nat.mod_mod]
  rw [hbyte, ofNat_or_0x80 _ (Nat.mod_lt _ (by decide))]
  omega

/-- What is written is read, with anything behind it. -/
theorem leb128_uleb128Encode (v : ℕ) (rest : Bytes) :
    leb128 (uleb128Encode v ++ rest) = some (v, (uleb128Encode v).length) := by
  induction v using uleb128Encode.induct with
  | case1 v hlt =>
    have hval : (UInt8.ofNat v).toNat = v := by rw [UInt8.toNat_ofNat']; omega
    rw [uleb128Encode, if_pos hlt, singleton_append, leb128, hval, if_pos hlt]
    rfl
  | case2 v hge ih =>
    rw [uleb128Encode, if_neg hge, cons_append, leb128, toNat_or_0x80, if_neg (by omega), ih,
      map_some]
    congr 2
    omega

theorem length_uleb128Encode (hk : 0 < k) (h : v < 2 ^ (7 * k)) :
    0 < (uleb128Encode v).length ∧ (uleb128Encode v).length ≤ k := by
  induction k generalizing v with
  | zero => omega
  | succ k ih =>
    rw [uleb128Encode]
    split
    · exact ⟨Nat.one_pos, Nat.succ_le_succ (Nat.zero_le k)⟩
    refine ⟨Nat.succ_pos _, Nat.succ_le_succ ?_⟩
    have hkpos : 0 < k := by
      rcases Nat.eq_zero_or_pos k with rfl | hpos
      · omega
      · exact hpos
    refine (ih hkpos ?_).2
    rw [Nat.shiftRight_eq_div_pow]
    refine Nat.div_lt_of_lt_mul (Nat.lt_of_lt_of_eq h ?_)
    rw [Nat.mul_succ, Nat.add_comm, Nat.pow_add]

/-- **A varint is read back.** -/
theorem varintU64_uleb128Encode (hv : v < 2 ^ 64) (rest : Bytes) :
    varintU64 (uleb128Encode v ++ rest) = .ok (v, (uleb128Encode v).length) := by
  have hlen := length_uleb128Encode (k := 10) (by decide)
    (lt_trans hv (Nat.pow_lt_pow_right (by decide) (by decide)))
  refine readUleb128_of_varint (by decide) ?_
  rw [varint, leb128_uleb128Encode, filter_some, if_pos (decide_eq_true ⟨hv, hlen.2⟩)]

/-! ## Zigzag -/

section Zigzag

variable {w : ℕ}

def zigzagEncode (s : BitVec w) : BitVec w := (s <<< 1) ^^^ (0 - s >>> (w - 1))

def zigzagDecode (u : BitVec w) : BitVec w := (u >>> 1) ^^^ (0 - (u &&& 1))

theorem ushiftRight_last (hw : 0 < w) (s : BitVec w) :
    s >>> (w - 1) = if s.msb then 1#w else 0#w := by
  have hpow : 2 ^ w = 2 * 2 ^ (w - 1) := by
    rw [← Nat.pow_succ', Nat.succ_eq_add_one, Nat.sub_add_cancel hw]
  refine BitVec.eq_of_toNat_eq ?_
  rw [BitVec.toNat_ushiftRight, Nat.shiftRight_eq_div_pow, BitVec.msb_eq_decide]
  by_cases hmsb : 2 ^ (w - 1) ≤ s.toNat
  · rw [if_pos (decide_eq_true hmsb), BitVec.toNat_ofNat,
      Nat.mod_eq_of_lt (Nat.one_lt_two_pow (Nat.ne_of_gt hw))]
    exact Nat.div_eq_of_lt_le (by omega) (by omega)
  · rw [if_neg (by simpa using hmsb), Nat.div_eq_of_lt (by omega)]
    rfl

theorem zero_sub_one : (0 : BitVec w) - 1#w = BitVec.allOnes w := by
  simp [BitVec.neg_one_eq_allOnes]

/-- **Zigzag is undone**, at every width. -/
theorem zigzagDecode_zigzagEncode (hw : 0 < w) (s : BitVec w) :
    zigzagDecode (zigzagEncode s) = s := by
  have hlast : ∀ i < w, ¬ i + 1 < w → s.getLsbD i = s.msb := by
    intro i hi hi'
    rw [BitVec.msb_eq_getLsbD_last]
    congr 1
    omega
  rw [zigzagDecode, zigzagEncode, ushiftRight_last hw]
  -- bit by bit: all but the last are shifted up and down, the last is the sign
  cases hmsb : s.msb with
  | false =>
    have hlow : (s <<< 1 ^^^ (0 - 0#w)) &&& 1 = 0#w := by
      ext i hi
      rcases i with - | i <;> simp [BitVec.getElem_one]
    rw [if_neg (by decide), hlow]
    ext i hi
    by_cases hi' : i + 1 < w
    · simp [hi', add_comm 1]
    · have hsign := hlast i hi hi'
      rw [hmsb] at hsign
      simp [← BitVec.getLsbD_eq_getElem, hsign]
  | true =>
    have hlow : (s <<< 1 ^^^ BitVec.allOnes w) &&& 1 = 1#w := by
      ext i hi
      rcases i with - | i <;> simp [BitVec.getElem_one]
    rw [if_pos rfl, zero_sub_one, hlow, zero_sub_one]
    ext i hi
    by_cases hi' : i + 1 < w
    · simp [hi', add_comm 1]
    · have hsign := hlast i hi hi'
      rw [hmsb] at hsign
      simp [add_comm 1, hi', hsign, hi]

theorem toNat_zigzagEncode (hw : 0 < w) (s : BitVec w) :
    ((zigzagEncode s).toNat : ℤ) = if s.toInt < 0 then -2 * s.toInt - 1 else 2 * s.toInt := by
  have hpow : 2 ^ w = 2 * 2 ^ (w - 1) := by
    rw [← Nat.pow_succ', Nat.succ_eq_add_one, Nat.sub_add_cancel hw]
  have hshift : (s <<< 1).toNat = 2 * s.toNat % 2 ^ w := by
    rw [BitVec.toNat_shiftLeft, Nat.shiftLeft_eq, pow_one, mul_comm]
  rw [zigzagEncode, ushiftRight_last hw, BitVec.toInt_eq_msb_cond]
  cases hmsb : s.msb with
  | false =>
    have hsmall := BitVec.toNat_lt_of_msb_false hmsb
    have hzero : s <<< 1 ^^^ ((0 : BitVec w) - 0#w) = s <<< 1 := by simp
    rw [if_neg Bool.false_ne_true, if_neg Bool.false_ne_true, hzero, hshift,
      Nat.mod_eq_of_lt (by omega), if_neg (by omega)]
    push_cast
    rfl
  | true =>
    have hbig := BitVec.le_toNat_of_msb_true hmsb
    have hmod : 2 * s.toNat % 2 ^ w = 2 * s.toNat - 2 ^ w := by
      rw [Nat.mod_eq_sub_mod (by omega), Nat.mod_eq_of_lt (by omega)]
    rw [if_pos rfl, if_pos rfl, zero_sub_one, BitVec.xor_allOnes, BitVec.toNat_not, hshift, hmod]
    omega

theorem zigzagDecode_ofNat_zigzagEncode {w' : ℕ} (hw : 0 < w) (hle : w ≤ w') (s : BitVec w) :
    (zigzagDecode (BitVec.ofNat w' (zigzagEncode s).toNat)).toInt = s.toInt := by
  have hwide : (s.signExtend w').toInt = s.toInt := BitVec.toInt_signExtend_of_le hle
  have hsame : (zigzagEncode (s.signExtend w')).toNat = (zigzagEncode s).toNat := by
    have h := toNat_zigzagEncode (lt_of_lt_of_le hw hle) (s.signExtend w')
    rw [hwide, ← toNat_zigzagEncode hw s] at h
    exact Int.ofNat_inj.1 h
  rw [← hsame, BitVec.ofNat_toNat, BitVec.setWidth_eq,
    zigzagDecode_zigzagEncode (lt_of_lt_of_le hw hle), hwide]
end Zigzag

end Nanom.Wire
