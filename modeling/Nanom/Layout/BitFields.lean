import Nanom.Layout.Emit

/-!
# Bit fields

`bitAt order b i` is bit `i` of a byte string in one of the two bit orders. A
field of `n` bits is read as the number these spell (`rawBits_spells`), and
writing it sets them and leaves all others (`bitAt_writeBits`). The last section
is about the integer a bit field is held in.
-/

namespace Nanom.Layout

open BitVec (ofInt ofNat toInt toNat)

open Nom List BitVec Nat

variable {order : BitOrder} {b p : Bytes} {n got use bit v off i j k q : ℕ}

/-! ## Bit orders -/

/-- The place of bit `i`, counted with the lowest bit of a byte first. -/
def place : BitOrder → ℕ → ℕ
  | .msb0, i => mirror i
  | .lsb0, i => i

/-- Bit `i` of a byte string in an order. -/
def bitAt (order : BitOrder) (b : Bytes) (i : ℕ) : Bool := bitOf b (place order i)

/-- The bit of a number of `n` bits that comes `j`-th. -/
def spot : BitOrder → ℕ → ℕ → ℕ
  | .msb0, n, j => n - 1 - j
  | .lsb0, _, j => j

section

variable (order : BitOrder)

@[simp] theorem place_div (i : ℕ) : place order i / 8 = i / 8 := by
  cases order with
  | msb0 => exact mirror_div i
  | lsb0 => rfl

@[simp] theorem place_place (i : ℕ) : place order (place order i) = i := by
  cases order with
  | msb0 => exact mirror_mirror i
  | lsb0 => rfl

theorem place_add (q i : ℕ) : place order (8 * q + i) = 8 * q + place order i := by
  cases order with
  | msb0 => rw [place, place, mirror, mirror]; omega
  | lsb0 => rfl

theorem place_mod (i : ℕ) : place order i % 8 = place order (i % 8) := by
  cases order with
  | msb0 => rw [place, place, mirror, mirror]; omega
  | lsb0 => rfl

/-- A bit is in the byte that its number divided by eight says. -/
theorem bitAt_eq (b : Bytes) (i : ℕ) :
    bitAt order b i = (b.getD (i / 8) 0).toNat.testBit (place order (i % 8)) := by
  rw [bitAt, bitOf, place_div, place_mod]

theorem spot_lt (h : j < n) : spot order n j < n := by
  cases order with
  | msb0 => rw [spot]; omega
  | lsb0 => exact h

@[simp] theorem spot_spot (h : j < n) : spot order n (spot order n j) = j := by
  cases order with
  | msb0 => rw [spot, spot]; omega
  | lsb0 => rfl

end

/-- `v` is the number that `n` bits spell in an order. -/
structure Spells (order : BitOrder) (n v : ℕ) (f : ℕ → Bool) : Prop where
  lt : v < 2 ^ n
  testBit : ∀ j < n, v.testBit (spot order n j) = f j

theorem Spells.unique {f : ℕ → Bool} {w : ℕ} (hv : Spells order n v f) (hw : Spells order n w f) :
    v = w := by
  refine eq_of_testBit_eq fun i => ?_
  by_cases hi : i < n
  · have hvi := hv.testBit _ (spot_lt order hi)
    have hwi := hw.testBit _ (spot_lt order hi)
    rw [spot_spot order hi] at hvi hwi
    rw [hvi, hwi]
  · have hpow : 2 ^ n ≤ 2 ^ i := Nat.pow_le_pow_right (by decide) (by omega)
    rw [testBit_lt_two_pow (lt_of_lt_of_le hv.lt hpow),
      testBit_lt_two_pow (lt_of_lt_of_le hw.lt hpow)]

/-! ## Reading -/

theorem testBit_piece (x s use i : ℕ) :
    ((x >>> s) &&& (2 ^ use - 1)).testBit i = (decide (i < use) && x.testBit (s + i)) := by
  rw [testBit_and, testBit_shiftRight, testBit_two_pow_sub_one, Bool.and_comm]

theorem piece_lt (x s use : ℕ) : (x >>> s) &&& (2 ^ use - 1) < 2 ^ use :=
  lt_of_le_of_lt and_le_right (sub_lt (Nat.two_pow_pos use) Nat.one_pos)

/-- A round adds the next bits of its byte to the number. -/
theorem addPiece_spells {f : ℕ → Bool} {x out : ℕ} (hout : Spells order got out f)
    (hbit : bit + use ≤ 8) (hn : got + use ≤ 64)
    (hf : ∀ j < use, f (got + j) = x.testBit (place order (bit + j))) :
    Spells order (got + use) (addPiece order x bit use got out) f := by
  have hpow : 2 ^ (got + use) ≤ 2 ^ 64 := Nat.pow_le_pow_right (by decide) hn
  cases order with
  | msb0 =>
    have hpiece := piece_lt x (8 - bit - use) use
    have hshift : out <<< use < 2 ^ (got + use) := by
      rw [Nat.shiftLeft_eq, pow_add]
      exact Nat.mul_lt_mul_of_pos_right hout.lt (Nat.two_pow_pos use)
    have hu : u64 (out <<< use) = out <<< use := mod_eq_of_lt (lt_of_lt_of_le hshift hpow)
    rw [addPiece, hu]
    refine ⟨or_lt_two_pow hshift (lt_of_lt_of_le hpiece
      (Nat.pow_le_pow_right (by decide) (by omega))), fun j hj => ?_⟩
    rw [spot, testBit_or, testBit_shiftLeft, testBit_piece]
    by_cases hlt : j < got
    · have hold := hout.testBit j hlt
      rw [spot] at hold
      have hidx : got + use - 1 - j - use = got - 1 - j := by omega
      rw [decide_eq_true (by omega), decide_eq_false (by omega), Bool.true_and, Bool.false_and,
        Bool.or_false, hidx, hold]
    · obtain ⟨d, rfl⟩ : ∃ d, j = got + d := ⟨j - got, by omega⟩
      have hmirror : mirror (bit + d) = 8 - bit - use + (got + use - 1 - (got + d)) := by
        rw [mirror]; omega
      rw [decide_eq_false (by omega), decide_eq_true (by omega), Bool.false_and, Bool.true_and,
        Bool.false_or, hf d (by omega), place, hmirror]
  | lsb0 =>
    have hpiece := piece_lt x bit use
    have hshift : ((x >>> bit) &&& (2 ^ use - 1)) <<< got < 2 ^ (got + use) := by
      rw [Nat.shiftLeft_eq, add_comm, pow_add]
      exact Nat.mul_lt_mul_of_pos_right hpiece (Nat.two_pow_pos got)
    have hu := mod_eq_of_lt (lt_of_lt_of_le hshift hpow)
    rw [addPiece, u64, hu]
    refine ⟨or_lt_two_pow (lt_of_lt_of_le hout.lt
      (Nat.pow_le_pow_right (by decide) (by omega))) hshift, fun j hj => ?_⟩
    rw [spot, testBit_or, testBit_shiftLeft, testBit_piece]
    by_cases hlt : j < got
    · have hold := hout.testBit j hlt
      rw [spot] at hold
      rw [decide_eq_false (by omega), Bool.false_and, Bool.or_false, hold]
    obtain ⟨d, rfl⟩ : ∃ d, j = got + d := ⟨j - got, by omega⟩
    have hhigh : out.testBit (got + d) = false := testBit_lt_two_pow
      (lt_of_lt_of_le hout.lt (Nat.pow_le_pow_right (by decide) (by omega)))
    rw [hhigh, decide_eq_true (by omega), Nat.add_sub_cancel_left, decide_eq_true (by omega),
      Bool.true_and, Bool.true_and, Bool.false_or, hf d (by omega), place]

/-- The loop of `read_bits` at bit `off + got` of a byte string. -/
theorem readBitsFrom_spells {out : ℕ} {bi : BitInput} (hn : n ≤ 64)
    (hroom : off + n ≤ 8 * b.length) (hbytes : bi.input.bytes = b.drop ((off + got) / 8))
    (hbit : bi.bit = (off + got) % 8) (hgot : got ≤ n)
    (hout : Spells order got out fun j => bitAt order b (off + j)) (hk : n ≤ got + k) :
    ∃ raw rest, readBitsFrom order n k got out bi = .done raw rest
      ∧ Spells order n raw fun j => bitAt order b (off + j) := by
  induction k generalizing got out bi with
  | zero =>
    obtain rfl : got = n := by omega
    exact ⟨out, bi, by simp only [readBitsFrom, if_neg (lt_irrefl _)], hout⟩
  | succ k ih =>
    by_cases hlt : got < n
    · have huse : 0 < min (8 - bi.bit) (n - got) := by omega
      have hle : bi.bit + min (8 - bi.bit) (n - got) ≤ 8 := by omega
      generalize hu : min (8 - bi.bit) (n - got) = use at huse hle
      have hhead : bi.input.bytes.headD 0 = b.getD ((off + got) / 8) 0 := by
        rw [hbytes, headD_eq_head?_getD, head?_drop, getD_eq_getElem?_getD]
      have hpiece : ∀ j < use, bitAt order b (off + (got + j))
          = (bi.input.bytes.headD 0).toNat.testBit (place order (bi.bit + j)) := by
        intro j hj
        have hdiv : (off + (got + j)) / 8 = (off + got) / 8 := by omega
        have hmod : (off + (got + j)) % 8 = bi.bit + j := by omega
        rw [bitAt_eq, hdiv, hmod, hhead]
      have hnext := addPiece_spells hout hle (by omega) hpiece
      simp only [readBitsFrom, if_pos hlt, hu]
      refine ih ?_ ?_ (by omega) hnext (by omega)
      · rw [BitInput.step]
        split
        · have hdiv : (off + (got + use)) / 8 = (off + got) / 8 + 1 := by omega
          rw [Input.bytes_advance, hbytes, drop_drop, hdiv]
        · have hdiv : (off + (got + use)) / 8 = (off + got) / 8 := by omega
          rw [hbytes, hdiv]
      · rw [BitInput.step]
        split <;> dsimp only <;> omega
    · obtain rfl : got = n := by omega
      exact ⟨out, bi, by simp only [readBitsFrom, if_neg hlt], hout⟩

theorem readBits_spells {bi : BitInput} (hn : n ≤ 64) (hbit : bi.bit < 8)
    (hroom : bi.bit + n ≤ 8 * bi.input.bytes.length) :
    ∃ raw rest, readBits n order bi = .done raw rest
      ∧ Spells order n raw fun j => bitAt order bi.input.bytes (bi.bit + j) := by
  have hleft : ¬ bi.bitsLeft < n := by rw [BitInput.bitsLeft, Input.size]; omega
  rw [readBits, if_neg hleft]
  refine readBitsFrom_spells hn hroom ?_ ?_ (zero_le n)
    ⟨Nat.one_pos, fun j hj => absurd hj (Nat.not_lt_zero j)⟩ (by omega)
  · rw [add_zero, div_eq_of_lt hbit, drop_zero]
  · rw [add_zero, mod_eq_of_lt hbit]

/-- A bit field is read as the number its bits spell. -/
theorem rawBits_spells (hn : n ≤ 64) (hpos : 0 < n) (hroom : off + n ≤ 8 * p.length) :
    Spells order n (rawBits n order p off) fun j => bitAt order p (off + j) := by
  rw [rawBits]
  by_cases hfast : order = .msb0 ∧ 7 + n ≤ 64
  · rw [if_pos hfast]
    obtain ⟨rfl, hle⟩ := hfast
    dsimp only
    generalize hbytes : (off % 8 + n + 7) / 8 = nbytes
    have hlen : (subspan p (off / 8) nbytes).length = nbytes := length_subspan (by omega)
    have hword : beNat (subspan p (off / 8) nbytes) < 2 ^ 64 := by
      have hlt := leNat_lt (subspan p (off / 8) nbytes).reverse
      rw [leNat, reverse_reverse, length_reverse, hlen] at hlt
      have hpow : 256 ^ nbytes ≤ 256 ^ 8 := Nat.pow_le_pow_right (by decide) (by omega)
      exact lt_of_lt_of_le hlt hpow
    rw [u64, mod_eq_of_lt hword]
    refine ⟨piece_lt _ _ _, fun j hj => ?_⟩
    have hat : nbytes * 8 - off % 8 - n + (n - 1 - j)
        = 8 * (subspan p (off / 8) nbytes).length - 1 - (off % 8 + j) := by
      rw [hlen]; omega
    have hmirror : 8 * (off / 8) + mirror (off % 8 + j) = mirror (off + j) := by
      rw [mirror, mirror]; omega
    have hin : mirror (off % 8 + j) < 8 * nbytes := by rw [mirror]; omega
    rw [testBit_piece, spot, decide_eq_true (by omega), hat, testBit_beNat _ (by omega),
      bitOf_subspan _ hin, hmirror]
    rfl
  · rw [if_neg hfast]
    dsimp only
    generalize hbytes : (off + n + 7) / 8 - off / 8 = nbytes
    have hlen : (subspan p (off / 8) nbytes).length = nbytes := length_subspan (by omega)
    obtain ⟨raw, rest, hraw, hspells⟩ := @readBits_spells order n
      ⟨⟨subspan p (off / 8) nbytes, off / 8, false⟩, off % 8⟩ hn (mod_lt _ (by decide))
      (by dsimp only; rw [hlen]; omega)
    rw [hraw]
    refine ⟨hspells.lt, fun j hj => ?_⟩
    have hoff : off + j = 8 * (off / 8) + (off % 8 + j) := by omega
    have hin : place order (off % 8 + j) < 8 * nbytes := by
      have hdiv := place_div order (off % 8 + j)
      omega
    rw [hspells.testBit j hj, bitAt, bitAt, bitOf_subspan _ hin, hoff, place_add]

/-! ## Writing -/

theorem testBit_ofNat (h : i < 8) (v : ℕ) : (UInt8.ofNat v).toNat.testBit i = v.testBit i := by
  rw [UInt8.toNat_ofNat', testBit_mod_two_pow, decide_eq_true h, Bool.true_and]

theorem testBit_not (h : i < 8) (x : UInt8) : (~~~x).toNat.testBit i = !x.toNat.testBit i := by
  have hnot : (~~~x).toNat = 2 ^ 8 - (x.toNat + 1) := by rw [UInt8.toNat_not, UInt8.size]; omega
  rw [hnot, testBit_two_pow_sub_succ x.toNat_lt, decide_eq_true h, Bool.true_and]

/-- Bits `shift` to `shift + use` of a byte are replaced. -/
theorem testBit_blend (h : i < 8) (x : UInt8) (w s shift : ℕ) :
    ((x &&& ~~~UInt8.ofNat ((2 ^ use - 1) <<< shift))
        ||| UInt8.ofNat (((w >>> s) &&& (2 ^ use - 1)) <<< shift)).toNat.testBit i
      = if shift ≤ i ∧ i < shift + use then w.testBit (s + (i - shift)) else x.toNat.testBit i := by
  rw [UInt8.toNat_or, UInt8.toNat_and, testBit_or, testBit_and, testBit_not h,
    testBit_ofNat h, testBit_ofNat h, testBit_shiftLeft, testBit_shiftLeft,
    testBit_two_pow_sub_one, testBit_piece]
  by_cases hi : shift ≤ i ∧ i < shift + use
  · rw [if_pos hi, decide_eq_true hi.1, decide_eq_true (show i - shift < use by omega)]
    simp
  rw [if_neg hi]
  by_cases hle : shift ≤ i
  · rw [decide_eq_false (show ¬ i - shift < use by omega)]
    simp
  · rw [decide_eq_false (show ¬ i ≥ shift from hle)]
    simp

/-- A round writes its bits of `v` to the byte and leaves the others. -/
theorem testBit_putPiece (hbit : bit + use ≤ 8) (hgot : got + use ≤ n) (h : i < 8) (x : UInt8) :
    (putPiece order v n got bit use x).toNat.testBit (place order i)
      = if bit ≤ i ∧ i < bit + use then v.testBit (spot order n (got + (i - bit)))
        else x.toNat.testBit (place order i) := by
  cases order with
  | msb0 =>
    have hmirror : mirror i = 7 - i := by rw [mirror]; omega
    simp only [putPiece]
    rw [place, hmirror, testBit_blend (by omega), spot]
    by_cases hi : bit ≤ i ∧ i < bit + use
    · have hat : n - got - use + (7 - i - (8 - bit - use)) = n - 1 - (got + (i - bit)) := by omega
      rw [if_pos hi, if_pos (by omega), hat]
    · rw [if_neg hi, if_neg (by omega)]
  | lsb0 => exact testBit_blend h x v got bit

theorem bitAt_set (hq : q < p.length) (x : UInt8) (i : ℕ) :
    bitAt order (p.set q x) i
      = if i / 8 = q then x.toNat.testBit (place order (i % 8)) else bitAt order p i := by
  rw [bitAt, bitOf_set hq, place_div, place_mod]
  rfl

theorem length_writeBitsFrom (order : BitOrder) (v n k got q bit : ℕ) (p : Bytes) :
    (writeBitsFrom order v n k got q bit p).length = p.length := by
  induction k generalizing got q bit p with
  | zero => rfl
  | succ k ih =>
    simp only [writeBitsFrom]
    split_ifs <;> simp [ih]

@[simp] theorem length_writeBits (p : Bytes) (off n v : ℕ) (order : BitOrder) :
    (writeBits p off n v order).length = p.length := length_writeBitsFrom ..

/-- The loop of `write_bits` at bit `off + got`. -/
theorem bitAt_writeBitsFrom (hroom : off + n ≤ 8 * p.length) (hq : q = (off + got) / 8)
    (hbit : bit = (off + got) % 8) (hgot : got ≤ n) (hk : n ≤ got + k) (i : ℕ) :
    bitAt order (writeBitsFrom order v n k got q bit p) i
      = if off + got ≤ i ∧ i < off + n then v.testBit (spot order n (i - off))
        else bitAt order p i := by
  induction k generalizing got q bit p with
  | zero => rw [writeBitsFrom, if_neg (by omega)]
  | succ k ih =>
    by_cases hlt : got < n
    · have huse : 0 < min (8 - bit) (n - got) := by omega
      have hle : bit + min (8 - bit) (n - got) ≤ 8 := by omega
      have hsum : got + min (8 - bit) (n - got) ≤ n := by omega
      rw [writeBitsFrom, if_pos hlt]
      dsimp only
      generalize min (8 - bit) (n - got) = use at huse hle hsum
      generalize hput : p.set q (putPiece order v n got bit use (p.getD q 0)) = p'
      have hlen : p'.length = p.length := by rw [← hput, length_set]
      -- One round.
      have hround : bitAt order p' i = if off + got ≤ i ∧ i < off + got + use
          then v.testBit (spot order n (i - off)) else bitAt order p i := by
        rw [← hput, bitAt_set (by omega)]
        by_cases hi : i / 8 = q
        · rw [if_pos hi, testBit_putPiece hle hsum (mod_lt _ (by decide))]
          by_cases hin : off + got ≤ i ∧ i < off + got + use
          · have hat : got + (i % 8 - bit) = i - off := by omega
            rw [if_pos (by omega), if_pos hin, hat]
          rw [if_neg (by omega), if_neg hin, bitAt_eq, hi]
        · rw [if_neg hi, if_neg (by omega)]
      -- The rest of the loop, at the next byte or in this one.
      have hrest : ∀ q' bit', q' = (off + (got + use)) / 8 → bit' = (off + (got + use)) % 8 →
          bitAt order (writeBitsFrom order v n k (got + use) q' bit' p') i
            = if off + got ≤ i ∧ i < off + n then v.testBit (spot order n (i - off))
              else bitAt order p i := by
        intro q' bit' hq' hbit'
        rw [ih (by omega) hq' hbit' (by omega) (by omega), hround]
        by_cases hin : off + (got + use) ≤ i ∧ i < off + n
        · rw [if_pos hin, if_pos (by omega)]
        · rw [if_neg hin]
          by_cases hnow : off + got ≤ i ∧ i < off + got + use
          · rw [if_pos hnow, if_pos (by omega)]
          · rw [if_neg hnow, if_neg (by omega)]
      split
      · exact hrest _ _ (by omega) (by omega)
      · exact hrest _ _ (by omega) (by omega)
    · rw [writeBitsFrom, if_neg hlt, if_neg (by omega)]

/-- A bit field is written to its bits, and no other bit changes. -/
theorem bitAt_writeBits (hroom : off + n ≤ 8 * p.length) (i : ℕ) :
    bitAt order (writeBits p off n v order) i
      = if off ≤ i ∧ i < off + n then v.testBit (spot order n (i - off)) else bitAt order p i :=
  bitAt_writeBitsFrom hroom rfl rfl (zero_le n) (by omega) i

/-! ## The integer of a bit field -/

/-- The value of a bit field has no more bits than the field. -/
def BitsInRange (signed : Bool) (n : ℕ) (v : BitVec (8 * (uintForBits n).bytes)) : Prop :=
  if signed then -2 ^ (n - 1) ≤ v.toInt ∧ v.toInt < 2 ^ (n - 1) else v.toNat < 2 ^ n

theorem bitsValue_unsigned (n raw : ℕ) :
    bitsValue false n raw = ofNat (8 * (uintForBits n).bytes) raw := by
  simp [bitsValue]

section SignExtend

variable {raw w : ℕ}

theorem sign_getLsbD (hpos : 0 < n) (hi : i < w) :
    (1#w <<< (n - 1)).getLsbD i = decide (i = n - 1) := by
  rw [Bool.eq_iff_iff]
  simp
  omega

theorem and_sign_eq_zero (hpos : 0 < n) (hle : n ≤ w) :
    ofNat w raw &&& (1#w <<< (n - 1)) = 0 ↔ raw.testBit (n - 1) = false := by
  have hlt : n - 1 < w := by omega
  constructor
  · intro h
    have hbit := congrArg (fun x => x.getLsbD (n - 1)) h
    simp only [getLsbD_and, getLsbD_ofNat] at hbit
    simpa [hlt] using hbit
  · intro h
    refine eq_of_getLsbD_eq fun i hi => ?_
    rw [getLsbD_and, sign_getLsbD hpos hi, getLsbD_ofNat]
    by_cases hi' : i = n - 1
    · simp [hi', h]
    · simp [hi']

/-- The mask that `decode_field` adds has the bits from `n` on. -/
theorem getLsbD_signMask (hpos : 0 < n) (hi : i < w) :
    (~~~((1#w <<< (n - 1)) <<< 1 - 1)).getLsbD i = decide (n ≤ i) := by
  have hshift : (1#w <<< (n - 1)) <<< 1 = ofNat w (2 ^ n) := by
    have hn : n - 1 + 1 = n := by omega
    refine eq_of_toNat_eq ?_
    rw [← BitVec.shiftLeft_add, hn, toNat_shiftLeft, toNat_ofNat, toNat_ofNat,
      Nat.shiftLeft_eq, mod_mul_mod, one_mul]
  have hmask : ofNat w (2 ^ n) - 1#w = ofNat w (2 ^ n - 1) :=
    ofNat_sub_ofNat_of_le _ _ (Nat.one_lt_two_pow (by omega)) Nat.one_le_two_pow
  have hone : (1 : BitVec w) = 1#w := rfl
  rw [getLsbD_not, hshift, hone, hmask, getLsbD_ofNat, Bool.eq_iff_iff]
  simp [hi]

/-- The bits above the sign are copies of it. -/
theorem bitsValue_signed (hpos : 0 < n) (hn : n ≤ 64) (hraw : raw < 2 ^ n) :
    bitsValue true n raw = (ofNat n raw).signExtend (8 * (uintForBits n).bytes) := by
  have hle := le_uintForBits hn
  have hmsb : (ofNat n raw).msb = raw.testBit (n - 1) := by
    rw [msb_eq_getLsbD_last, getLsbD_ofNat, decide_eq_true (by omega), Bool.true_and]
  refine eq_of_getLsbD_eq fun i hi => ?_
  rw [getLsbD_signExtend, decide_eq_true hi, hmsb, getLsbD_ofNat]
  -- Above the field the number has no bits.
  have hhigh : ¬ i < n → raw.testBit i = false := fun h => testBit_lt_two_pow
    (lt_of_lt_of_le hraw (Nat.pow_le_pow_right (by decide) (by omega)))
  simp only [bitsValue, true_and, ne_eq, and_sign_eq_zero hpos hle, Bool.not_eq_false]
  by_cases hsign : raw.testBit (n - 1) = true
  · rw [if_pos hsign, getLsbD_or, getLsbD_signMask hpos hi, getLsbD_ofNat]
    by_cases hin : i < n
    · simp [hin, hi]
    · simp [hsign, Nat.le_of_not_lt hin]
  · rw [if_neg hsign, getLsbD_ofNat]
    by_cases hin : i < n
    · simp [hin, hi]
    · simp [hin, hhigh hin, hsign]

end SignExtend

section Range

variable {signed : Bool} {raw : ℕ} {w : BitVec (8 * (uintForBits n).bytes)}

theorem toInt_bitsValue (hpos : 0 < n) (hn : n ≤ 64) (hraw : raw < 2 ^ n) :
    (bitsValue true n raw).toInt = (ofNat n raw).toInt := by
  rw [bitsValue_signed hpos hn hraw, toInt_signExtend_of_le (le_uintForBits hn)]

theorem toNat_bitsValue (hn : n ≤ 64) (hraw : raw < 2 ^ n) :
    (bitsValue false n raw).toNat = raw := by
  have hpow : 2 ^ n ≤ 2 ^ (8 * (uintForBits n).bytes) :=
    Nat.pow_le_pow_right (by decide) (le_uintForBits hn)
  rw [bitsValue_unsigned, toNat_ofNat, mod_eq_of_lt (lt_of_lt_of_le hraw hpow)]

theorem bitsInRange_bitsValue (hpos : 0 < n) (hn : n ≤ 64) (hraw : raw < 2 ^ n) :
    BitsInRange signed n (bitsValue signed n raw) := by
  cases signed with
  | false =>
    have hnat := toNat_bitsValue hn hraw
    exact lt_of_le_of_lt (le_of_eq hnat) hraw
  | true =>
    have hlo := le_toInt (ofNat n raw)
    have hhi : (ofNat n raw).toInt < 2 ^ (n - 1) := toInt_lt
    rw [← toInt_bitsValue hpos hn hraw] at hlo hhi
    exact ⟨hlo, hhi⟩

theorem bitsValue_inj {raw' : ℕ} (hpos : 0 < n) (hn : n ≤ 64) (hraw : raw < 2 ^ n)
    (hraw' : raw' < 2 ^ n) (h : bitsValue signed n raw = bitsValue signed n raw') : raw = raw' := by
  cases signed with
  | false =>
    have hnat := congrArg toNat h
    rwa [toNat_bitsValue hn hraw, toNat_bitsValue hn hraw'] at hnat
  | true =>
    have hint := congrArg toInt h
    rw [toInt_bitsValue hpos hn hraw, toInt_bitsValue hpos hn hraw'] at hint
    have hnat := congrArg toNat (eq_of_toInt_eq hint)
    rwa [toNat_ofNat, toNat_ofNat, mod_eq_of_lt hraw, mod_eq_of_lt hraw'] at hnat

/-- The low bits of an integer, out of the low 64. -/
theorem toNat_low (hn : n ≤ 64) (x : ℤ) :
    (x % 2 ^ 64).toNat &&& (2 ^ n - 1) = (ofInt n x).toNat := by
  have hdvd : ((2 ^ n : ℕ) : ℤ) ∣ 2 ^ 64 := by exact_mod_cast pow_dvd_pow 2 hn
  have hnn : 0 ≤ x % 2 ^ 64 := Int.emod_nonneg _ (by decide)
  rw [and_two_pow_sub_one_eq_mod, toNat_ofInt, ← Int.emod_emod_of_dvd x hdvd,
    Int.toNat_emod hnn (Int.natCast_nonneg _), Int.toNat_natCast]

/-- A value in range is written as bits that are read as this value. -/
theorem fieldBits_of_inRange (hpos : 0 < n) (hn : n ≤ 64) (h : BitsInRange signed n w) :
    ∃ raw, fieldBits signed n w = .ok raw ∧ raw < 2 ^ n ∧ bitsValue signed n raw = w := by
  cases signed with
  | false =>
    have hlt : w.toNat < 2 ^ n := h
    have hfit : w.toNat >>> n = 0 := by rw [shiftRight_eq_div_pow, div_eq_of_lt hlt]
    refine ⟨w.toNat, ?_, hlt, eq_of_toNat_eq (toNat_bitsValue hn hlt)⟩
    simp [fieldBits, hfit]
  | true =>
    obtain ⟨hlo, hhi⟩ : -2 ^ (n - 1) ≤ w.toInt ∧ w.toInt < 2 ^ (n - 1) := h
    have hcut : fieldBits true n w = .ok (ofInt n w.toInt).toNat := by
      have hin : ¬ (w.toInt < -2 ^ (n - 1) ∨ 2 ^ (n - 1) - 1 < w.toInt) := by omega
      rw [fieldBits, if_pos rfl]
      dsimp only
      split
      · rw [toNat_low hn]
      · obtain rfl : n = 64 := by omega
        rfl
    refine ⟨_, hcut, isLt _, eq_of_toInt_eq ?_⟩
    rw [toInt_bitsValue hpos hn (isLt _), ofNat_toNat, setWidth_eq,
      toInt_ofInt_eq_self hpos hlo hhi]

theorem fieldBits_of_not_inRange (hn : n ≤ 64) (h : ¬ BitsInRange signed n w) :
    ∃ e, fieldBits signed n w = .error e := by
  cases signed with
  | false =>
    have hge : ¬ w.toNat < 2 ^ n := h
    have hlt : n < 64 := by
      refine lt_of_le_of_ne hn fun hn64 => hge ?_
      subst hn64
      exact w.isLt
    have hfit : w.toNat >>> n ≠ 0 := by
      rw [shiftRight_eq_div_pow]
      exact Nat.ne_of_gt (Nat.div_pos (Nat.le_of_not_lt hge) (Nat.two_pow_pos n))
    refine ⟨"a value wider than its bit field", ?_⟩
    rw [fieldBits, if_neg Bool.false_ne_true, if_pos ⟨hlt, hfit⟩]
  | true =>
    have hout : ¬ (-2 ^ (n - 1) ≤ w.toInt ∧ w.toInt < 2 ^ (n - 1)) := h
    have hlt : n < 64 := by
      refine lt_of_le_of_ne hn fun hn64 => hout ?_
      subst hn64
      exact ⟨w.le_toInt, toInt_lt⟩
    have hcase : w.toInt < -2 ^ (n - 1) ∨ 2 ^ (n - 1) - 1 < w.toInt := by omega
    refine ⟨"a value outside its signed bit field", ?_⟩
    rw [fieldBits, if_pos rfl]
    rw [if_pos hlt, if_pos hcase]

end Range

end Nanom.Layout
