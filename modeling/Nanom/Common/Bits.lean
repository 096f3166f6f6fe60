import Mathlib.Data.Nat.Digits.Defs
import Nanom.Common.Bytes

/-!
# Bit fields

A byte string is also a string of bits, the lowest of each byte first.
`field b off w` is the number that `w` of them spell from bit `off` on; the bits
behind the end are zero. It is what a reader gets that loads the bytes around a
field, shifts and masks (`field_subspan`).

`packed w vs` is the number that values of `w` bits each spell, first lowest,
and `field_packed` reads them back.
-/

namespace Nanom

open List Nat

section Field

variable {a b : Bytes} {off w k : ℕ}

/-- The number that `w` bits from bit `off` on spell, first bit lowest. -/
def field (b : Bytes) (off w : ℕ) : ℕ := leNat b / 2 ^ off % 2 ^ w

theorem two_pow_eight_mul (k : ℕ) : 2 ^ (8 * k) = 256 ^ k := pow_mul 2 8 k

theorem field_lt (b : Bytes) (off w : ℕ) : field b off w < 2 ^ w := mod_lt _ (Nat.two_pow_pos w)

/-- A field lies in the low bits of the number that its end bounds. -/
theorem div_mod_two_pow (n : ℕ) {off w k : ℕ} (h : off + w ≤ k) :
    n % 2 ^ k / 2 ^ off % 2 ^ w = n / 2 ^ off % 2 ^ w := by
  obtain ⟨d, rfl⟩ := Nat.exists_eq_add_of_le h
  rw [add_assoc, pow_add, mod_mul_right_div_self,
    mod_mod_of_dvd _ (Nat.pow_dvd_pow 2 (Nat.le_add_right w d))]

/-- The bytes in front of a field. -/
theorem field_drop (b : Bytes) (k off w : ℕ) :
    field (b.drop k) off w = field b (8 * k + off) w := by
  rw [field, field, pow_add, ← Nat.div_div_eq_div_mul, two_pow_eight_mul]
  rcases lt_or_ge k b.length with hlt | hge
  · have hlen : (b.take k).length = k := by rw [length_take]; omega
    have happ := leNat_append (b.take k) (b.drop k)
    have htake := leNat_lt (b.take k)
    rw [take_append_drop, hlen] at happ
    rw [hlen] at htake
    rw [happ, add_mul_div_left _ _ (Nat.pow_pos (by decide)), div_eq_of_lt htake, zero_add]
  · have hlt : leNat b < 256 ^ k :=
      lt_of_lt_of_le (leNat_lt b) (Nat.pow_le_pow_right (by decide) hge)
    rw [drop_of_length_le hge, div_eq_of_lt hlt]
    rfl

/-- The bytes behind it. -/
theorem field_append (h : off + w ≤ 8 * a.length) (b : Bytes) :
    field (a ++ b) off w = field a off w := by
  rw [field, field, ← div_mod_two_pow _ h, ← div_mod_two_pow (leNat a) h, two_pow_eight_mul,
    leNat_append, add_mul_mod_self_left]

theorem field_take (h : off + w ≤ 8 * k) : field (b.take k) off w = field b off w := by
  rcases lt_or_ge k b.length with hlt | hge
  · have hlen : (b.take k).length = k := by rw [length_take]; omega
    have happ := field_append (by rw [hlen]; exact h) (b.drop k)
    rw [take_append_drop] at happ
    exact happ.symm
  · rw [take_of_length_le hge]

/-- Zeros behind the end change nothing. -/
theorem field_append_zeros (b : Bytes) (k off w : ℕ) :
    field (b ++ replicate k 0) off w = field b off w := by
  have hzero : leNat (replicate k (0 : UInt8)) = 0 := by
    induction k with
    | zero => rfl
    | succ k ih => rw [replicate_succ, leNat_cons, ih]; rfl
  rw [field, field, leNat_append, hzero, mul_zero, add_zero]

/-- **A field is read** from the bytes it lies in. -/
theorem field_subspan (b : Bytes) (off w : ℕ) {i n : ℕ} (hi : 8 * i ≤ off)
    (hn : off + w ≤ 8 * (i + n)) :
    leNat (subspan b i n) / 2 ^ (off - 8 * i) % 2 ^ w = field b off w := by
  have hread : field (subspan b i n) (off - 8 * i) w = field b off w := by
    rw [subspan, field_take (by omega), field_drop]
    congr 1
    omega
  exact hread

theorem field_leBytes {n : ℕ} (h : off + w ≤ 8 * k) :
    field (leBytes k n) off w = n / 2 ^ off % 2 ^ w := by
  rw [field, leNat_leBytes, ← two_pow_eight_mul, div_mod_two_pow _ h]

end Field

/-- `x |= y << s` in a 64-bit word, above what the word holds. -/
theorem or_shiftLeft_u64 {x y s : ℕ} (hx : x < 2 ^ s) (hs : s ≤ 64) :
    x ||| u64 (y <<< s) = u64 (x + 2 ^ s * y) := by
  have hpow : 2 ^ 64 = 2 ^ s * 2 ^ (64 - s) := by
    rw [← pow_add]
    congr 1
    omega
  rw [u64, u64, hpow, shiftLeft_eq, mul_comm y, mul_mod_mul_left, Nat.or_comm,
    ← two_pow_add_eq_or_of_lt hx, mod_mul, add_mul_mod_self_left, mod_eq_of_lt hx,
    add_mul_div_left _ _ (Nat.two_pow_pos s), div_eq_of_lt hx, zero_add, add_comm]

/-! ## Values of one width -/

section Packed

variable {w : ℕ}

/-- The number that values of `w` bits each spell, first lowest; bits
above the width are dropped. -/
def packed (w : ℕ) (vs : List ℕ) : ℕ := Nat.ofDigits (2 ^ w) (vs.map (· % 2 ^ w))

theorem packed_append (vs us : List ℕ) :
    packed w (vs ++ us) = packed w vs + 2 ^ (w * vs.length) * packed w us := by
  rw [packed, map_append, ofDigits_append, length_map, ← pow_mul]
  rfl

@[simp] theorem packed_singleton (v : ℕ) : packed w [v] = v % 2 ^ w := ofDigits_singleton ..

theorem packed_lt (vs : List ℕ) : packed w vs < 2 ^ (w * vs.length) := by
  induction vs with
  | nil => exact Nat.two_pow_pos _
  | cons v vs ih =>
    rw [← singleton_append, length_append, length_singleton, mul_add, pow_add, mul_one]
    calc v % 2 ^ w + 2 ^ w * packed w vs < 2 ^ w * (packed w vs + 1) := by
          rw [mul_succ]
          omega
      _ ≤ 2 ^ w * 2 ^ (w * vs.length) := Nat.mul_le_mul_left _ ih

/-- **What is packed is read back.** -/
theorem packed_div_mod {vs : List ℕ} {i v : ℕ} (h : vs[i]? = some v) :
    packed w vs / 2 ^ (i * w) % 2 ^ w = v % 2 ^ w := by
  obtain ⟨hlt, rfl⟩ := List.getElem?_eq_some_iff.1 h
  -- the values before are below the field, those behind above it
  have hsplit : vs = vs.take i ++ ([vs[i]] ++ vs.drop (i + 1)) := by
    rw [singleton_append, ← drop_eq_getElem_cons hlt, take_append_drop]
  have hlen : (vs.take i).length = i := by rw [length_take]; omega
  have hbelow := packed_lt (w := w) (vs.take i)
  rw [hlen, mul_comm w] at hbelow
  conv_lhs => rw [hsplit]
  rw [packed_append, packed_append, hlen, packed_singleton, length_singleton, mul_one,
    mul_comm w, add_mul_div_left _ _ (Nat.two_pow_pos _), div_eq_of_lt hbelow,
    zero_add, add_mul_mod_self_left, mod_mod]

/-- The bytes of packed values, with anything behind them. -/
theorem field_packed {vs : List ℕ} {i v k : ℕ} (h : vs[i]? = some v)
    (hk : vs.length * w ≤ 8 * k) (rest : Bytes) :
    field (leBytes k (packed w vs) ++ rest) (i * w) w = v % 2 ^ w := by
  obtain ⟨hlt, -⟩ := List.getElem?_eq_some_iff.1 h
  have hend : i * w + w ≤ 8 * k := by
    have hmul := mul_le_mul_right w hlt
    rw [succ_mul] at hmul
    omega
  rw [field_append (by rw [length_leBytes]; exact hend), field_leBytes hend, packed_div_mod h]

end Packed

end Nanom
