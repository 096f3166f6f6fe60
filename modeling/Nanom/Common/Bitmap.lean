import Mathlib.Data.Nat.Bitwise
import Nanom.Common.Window

/-!
# Bitmaps

A buffer of bytes is also a buffer of bits, the lowest of each byte
first. `Marks bits b` says what a bitmap holds that started as zeros and
is marked from the front.
-/

namespace Nanom.Buffer

open List Nat

variable {n : ℕ} {b : Buffer UInt8 n} {bits : List Bool} {i k : ℕ}

/-- Bit `k`; behind the end none is set. -/
def bit (b : Buffer UInt8 n) (k : ℕ) : Bool :=
  match b.elems[k / 8]? with
  | some x => x.toNat.testBit (k % 8)
  | none => false

/-- `b[i / 8] |= 1 << (i % 8)`. -/
def setBit (i : ℕ) (b : Buffer UInt8 n) : Option (Buffer UInt8 n) := do
  let x ← b.elems[i / 8]?
  b.store (i / 8) [x ||| UInt8.ofNat (1 <<< (i % 8))]

theorem testBit_or_one (x : UInt8) (i k : ℕ) :
    (x ||| UInt8.ofNat (1 <<< (i % 8))).toNat.testBit (k % 8)
      = (decide (k % 8 = i % 8) || x.toNat.testBit (k % 8)) := by
  have hlt : 2 ^ (i % 8) < 2 ^ 8 := Nat.pow_lt_pow_right (by decide) (mod_lt i (by decide))
  have hone : (UInt8.ofNat (1 <<< (i % 8))).toNat = 2 ^ (i % 8) := by
    rw [one_shiftLeft]
    exact mod_eq_of_lt hlt
  rw [UInt8.toNat_or, testBit_or, hone, testBit_two_pow, Bool.or_comm]
  congr 1
  exact decide_eq_decide.2 eq_comm

/-- The bit that is set, and the others. -/
theorem exists_setBit (b : Buffer UInt8 n) (h : i < 8 * n) :
    ∃ b', b.setBit i = some b' ∧ ∀ k, b'.bit k = (decide (k = i) || b.bit k) := by
  have hlen : i / 8 < b.elems.length := by rw [b.length_elems]; omega
  have hget : b.elems[i / 8]? = some b.elems[i / 8] := getElem?_eq_getElem hlen
  obtain ⟨b', hstore, helems⟩ := b.exists_store (i / 8)
    [b.elems[i / 8] ||| UInt8.ofNat (1 <<< (i % 8))] (by rw [length_singleton]; omega)
  refine ⟨b', by rw [setBit, hget]; exact hstore, fun k => ?_⟩
  rw [length_singleton] at helems
  rw [bit, bit, helems]
  by_cases hk : k / 8 = i / 8
  · rw [if_pos (by omega), hk, Nat.sub_self, hget]
    have hiff : (k % 8 = i % 8) ↔ k = i := by omega
    exact (testBit_or_one _ i k).trans (by rw [decide_eq_decide.2 hiff])
  · have hne : k ≠ i := fun h => hk (by rw [h])
    rw [if_neg (by omega), decide_eq_false hne, Bool.false_or]

/-- Bit `i`, set or left as it is. -/
def mark (flag : Bool) (i : ℕ) (b : Buffer UInt8 n) : Option (Buffer UInt8 n) :=
  if flag then b.setBit i else some b

/-- The bits set are those of a list. -/
def Marks (bits : List Bool) (b : Buffer UInt8 n) : Prop := ∀ k, b.bit k = bits.getD k false

theorem marks_zeros (n : ℕ) : Marks [] (zeros n) := by
  intro k
  rw [bit]
  cases h : (zeros n).elems[k / 8]? with
  | none => rfl
  | some x =>
    obtain rfl : x = 0 := eq_of_mem_replicate (mem_of_getElem? h)
    exact zero_testBit _

/-- One more. -/
theorem Marks.mark (h : Marks bits b) (flag : Bool) (hroom : bits.length < 8 * n) :
    ∃ b', b.mark flag bits.length = some b' ∧ Marks (bits ++ [flag]) b' := by
  have hsnoc : ∀ k, (bits ++ [flag]).getD k false
      = (decide (k = bits.length) && flag || bits.getD k false) := by
    intro k
    simp only [getD_eq_getElem?_getD]
    rcases lt_trichotomy k bits.length with hlt | rfl | hgt
    · rw [getElem?_append_left hlt, decide_eq_false (Nat.ne_of_lt hlt)]
      rfl
    · simp
    · rw [getElem?_eq_none (by rw [length_append, length_singleton]; omega),
        getElem?_eq_none (Nat.le_of_lt hgt), decide_eq_false (by omega)]
      rfl
  cases flag with
  | false =>
    refine ⟨b, rfl, fun k => ?_⟩
    rw [hsnoc, Bool.and_false]
    exact h k
  | true =>
    obtain ⟨b', hset, hbits⟩ := b.exists_setBit hroom
    refine ⟨b', hset, fun k => ?_⟩
    rw [hbits, hsnoc, Bool.and_true, h k]

end Nanom.Buffer
