import Mathlib.Data.Nat.Bitwise
import Mathlib.Algebra.BigOperators.Group.List.Basic
import Nanom.Common.Bytes

/-!
# The bits of a byte string

Bit `i` of a byte string is bit `i % 8` of byte `i / 8`, the lowest bit first;
`mirror` counts the bits of each byte from its other end. Byte strings of one
length are equal when their bits are. The last section is about pieces of given
widths laid end to end.
-/

namespace Nanom

open List Nat

variable {a b : Bytes} {x : UInt8} {i j k n q off : ℕ}

/-- Bit `i`, the lowest of each byte first; behind the end none is set. -/
def bitOf (b : Bytes) (i : ℕ) : Bool := (b.getD (i / 8) 0).toNat.testBit (i % 8)

/-- The place of a bit counted from the other end of its byte. -/
def mirror (i : ℕ) : ℕ := i / 8 * 8 + (7 - i % 8)

@[simp] theorem mirror_div (i : ℕ) : mirror i / 8 = i / 8 := by
  rw [mirror]
  omega

@[simp] theorem mirror_mod (i : ℕ) : mirror i % 8 = 7 - i % 8 := by
  rw [mirror]
  omega

@[simp] theorem mirror_mirror (i : ℕ) : mirror (mirror i) = i := by
  rw [mirror, mirror_div, mirror_mod]
  omega

theorem testBit_toNat_of_le (x : UInt8) (h : 8 ≤ i) : x.toNat.testBit i = false := by
  have hpow : 2 ^ 8 ≤ 2 ^ i := Nat.pow_le_pow_right (by decide) h
  exact testBit_lt_two_pow (lt_of_lt_of_le x.toNat_lt hpow)

theorem eq_of_testBit {y : UInt8} (h : ∀ i < 8, x.toNat.testBit i = y.toNat.testBit i) : x = y := by
  refine UInt8.toNat_inj.1 (eq_of_testBit_eq fun i => ?_)
  by_cases hi : i < 8
  · exact h i hi
  · rw [testBit_toNat_of_le x (by omega), testBit_toNat_of_le y (by omega)]

/-- Byte strings of one length with the same bits are one. -/
theorem eq_of_bitOf (hlen : a.length = b.length)
    (h : ∀ i < 8 * a.length, bitOf a i = bitOf b i) : a = b := by
  refine ext_getElem hlen fun q ha hb => eq_of_testBit fun j hj => ?_
  have hbit := h (8 * q + j) (by omega)
  have hdiv : (8 * q + j) / 8 = q := by omega
  have hmod : (8 * q + j) % 8 = j := by omega
  rw [bitOf, bitOf, hdiv, hmod, getD_eq_getElem _ _ ha, getD_eq_getElem _ _ hb] at hbit
  exact hbit

/-! ## Writing and cutting -/

/-- A byte is written, the others are left. -/
theorem bitOf_set (hq : q < b.length) (x : UInt8) (i : ℕ) :
    bitOf (b.set q x) i = if i / 8 = q then x.toNat.testBit (i % 8) else bitOf b i := by
  rw [bitOf, bitOf, getD_eq_getElem?_getD, getElem?_set]
  by_cases h : q = i / 8
  · rw [if_pos h, if_pos hq, if_pos h.symm, Option.getD_some]
  · rw [if_neg h, if_neg (Ne.symm h), ← getD_eq_getElem?_getD]

/-- Bytes written from byte `q` on, one after another. -/
def putAt (b : Bytes) (q : ℕ) : Bytes → Bytes
  | [] => b
  | x :: l => putAt (b.set q x) (q + 1) l

@[simp] theorem length_putAt (b : Bytes) (q : ℕ) (l : Bytes) : (putAt b q l).length = b.length := by
  induction l generalizing b q with
  | nil => rfl
  | cons x l ih => rw [putAt, ih, length_set]

theorem getElem?_putAt {l : Bytes} (h : q + l.length ≤ b.length) (j : ℕ) :
    (putAt b q l)[j]? = if q ≤ j ∧ j < q + l.length then l[j - q]? else b[j]? := by
  induction l generalizing b q with
  | nil => rw [putAt, length_nil, if_neg (by omega)]
  | cons x l ih =>
    rw [length_cons] at h
    rw [putAt, ih (by rw [length_set]; omega), length_cons]
    by_cases hj : q + 1 ≤ j ∧ j < q + 1 + l.length
    · have hsub : j - q = j - (q + 1) + 1 := by omega
      rw [if_pos hj, if_pos (by omega), hsub, getElem?_cons_succ]
    · rw [if_neg hj, getElem?_set]
      by_cases hq : q = j
      · rw [if_pos hq, if_pos (by omega), if_pos (by omega), hq, Nat.sub_self, getElem?_cons_zero]
      · rw [if_neg hq, if_neg (by omega)]

/-- What was written is there, the other bits are left. -/
theorem bitOf_putAt {l : Bytes} (h : q + l.length ≤ b.length) (i : ℕ) :
    bitOf (putAt b q l) i
      = if 8 * q ≤ i ∧ i < 8 * (q + l.length) then bitOf l (i - 8 * q) else bitOf b i := by
  have hdiv : (i - 8 * q) / 8 = i / 8 - q := by omega
  rw [bitOf, getD_eq_getElem?_getD, getElem?_putAt h]
  by_cases hi : 8 * q ≤ i ∧ i < 8 * (q + l.length)
  · have hmod : (i - 8 * q) % 8 = i % 8 := by omega
    rw [if_pos hi, if_pos (by omega), bitOf, hdiv, hmod, getD_eq_getElem?_getD]
  · rw [if_neg hi, if_neg (by omega), bitOf, getD_eq_getElem?_getD]

theorem bitOf_drop (b : Bytes) (q i : ℕ) : bitOf (b.drop q) i = bitOf b (8 * q + i) := by
  have hdiv : (8 * q + i) / 8 = q + i / 8 := by omega
  have hmod : (8 * q + i) % 8 = i % 8 := by omega
  rw [bitOf, bitOf, hdiv, hmod, getD_eq_getElem?_getD, getD_eq_getElem?_getD, getElem?_drop]

theorem bitOf_append (a b : Bytes) (i : ℕ) :
    bitOf (a ++ b) i = if i < 8 * a.length then bitOf a i else bitOf b (i - 8 * a.length) := by
  rw [bitOf, bitOf, bitOf, getD_eq_getElem?_getD, getElem?_append]
  by_cases hi : i < 8 * a.length
  · rw [if_pos hi, if_pos (by omega), getD_eq_getElem?_getD]
  · have hdiv : (i - 8 * a.length) / 8 = i / 8 - a.length := by omega
    have hmod : (i - 8 * a.length) % 8 = i % 8 := by omega
    rw [if_neg hi, if_neg (by omega), hdiv, hmod, getD_eq_getElem?_getD]

theorem bitOf_subspan (b : Bytes) (h : i < 8 * n) :
    bitOf (subspan b q n) i = bitOf b (8 * q + i) := by
  rw [← bitOf_drop, bitOf, bitOf, subspan, getD_eq_getElem?_getD, getD_eq_getElem?_getD,
    getElem?_take_of_lt (by omega)]

/-! ## Numbers -/

theorem bitOf_nil (i : ℕ) : bitOf [] i = false := by
  exact zero_testBit _

theorem bitOf_cons (x : UInt8) (b : Bytes) (i : ℕ) :
    bitOf (x :: b) i = if i < 8 then x.toNat.testBit i else bitOf b (i - 8) := by
  split
  · have hdiv : i / 8 = 0 := by omega
    have hmod : i % 8 = i := by omega
    rw [bitOf, hdiv, hmod, getD_cons_zero]
  · have hdrop := bitOf_drop (x :: b) 1 (i - 8)
    have hi : 8 * 1 + (i - 8) = i := by omega
    rw [hi] at hdrop
    exact hdrop.symm

/-- The bits of a number are those of its bytes. -/
theorem testBit_leNat (b : Bytes) (i : ℕ) : (leNat b).testBit i = bitOf b i := by
  induction b generalizing i with
  | nil => rw [bitOf_nil]; exact zero_testBit i
  | cons x b ih =>
    have h := testBit_two_pow_mul_add (leNat b) (show x.toNat < 2 ^ 8 from x.toNat_lt) i
    rw [leNat_cons, add_comm, bitOf_cons, ← ih]
    exact h

/-- The highest bit of a number is the first of its first byte. -/
theorem testBit_beNat (b : Bytes) (h : i < 8 * b.length) :
    (beNat b).testBit (8 * b.length - 1 - i) = bitOf b (mirror i) := by
  have hrev : beNat b = leNat b.reverse := by rw [leNat, reverse_reverse]
  have hdiv : (8 * b.length - 1 - i) / 8 = b.length - 1 - i / 8 := by omega
  have hmod : (8 * b.length - 1 - i) % 8 = 7 - i % 8 := by omega
  have hlt : b.length - 1 - i / 8 < b.length := by omega
  have hback : b.length - 1 - (b.length - 1 - i / 8) = i / 8 := by omega
  rw [hrev, testBit_leNat, bitOf, bitOf, hdiv, hmod, mirror_div, mirror_mod,
    getD_eq_getElem?_getD, getD_eq_getElem?_getD, getElem?_reverse hlt, hback]

/-! ## Pieces end to end -/

/-- Where piece `k` of the given widths starts. -/
def startOf (w : List ℕ) (k : ℕ) : ℕ := (w.take k).sum

@[simp] theorem startOf_zero (w : List ℕ) : startOf w 0 = 0 := by
  rw [startOf, take_zero, sum_nil]

theorem startOf_succ {w : List ℕ} (h : k < w.length) : startOf w (k + 1) = startOf w k + w[k] :=
  sum_take_succ w k h

theorem startOf_mono (w : List ℕ) (h : j ≤ k) : startOf w j ≤ startOf w k := by
  induction h with
  | refl => exact le_rfl
  | @step k _ ih =>
    by_cases hk : k < w.length
    · rw [startOf_succ hk]; omega
    have hle : w.length ≤ k := Nat.le_of_not_lt hk
    have hall : w.take (k + 1) = w.take k := by
      rw [take_of_length_le hle, take_of_length_le (le_succ_of_le hle)]
    rw [startOf, startOf, hall]
    exact ih

theorem startOf_length (w : List ℕ) : startOf w w.length = w.sum := by
  rw [startOf, take_length]

end Nanom
