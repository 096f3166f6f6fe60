import Mathlib.Algebra.GroupWithZero.Nat
import Mathlib.Data.List.Basic
import Mathlib.Tactic.Basic
/-!
# Byte strings

A span is its content. `subspan` is the view of `n` bytes from an
offset on, `u32` and `u64` are what a counter of that width keeps of a
number, and `bitsAt` reads a bit field of a byte string.
-/

namespace Nanom

open List Nat

variable {k n off : ℕ}

/-- The content of a span of bytes. -/
abbrev Bytes := List UInt8

/-- What a 32-bit unsigned counter keeps of a number. -/
def u32 (n : ℕ) : ℕ := n % 2 ^ 32

/-- What a 64-bit unsigned counter keeps of a number. -/
def u64 (n : ℕ) : ℕ := n % 2 ^ 64

theorem u32_of_lt (h : n < 2 ^ 32) : u32 n = n := mod_eq_of_lt h

theorem u64_of_lt (h : n < 2 ^ 64) : u64 n = n := mod_eq_of_lt h

section Subspan

variable {α : Type*}

/-- The `n` elements from `off` on. -/
def subspan (l : List α) (off n : ℕ) : List α := (l.drop off).take n

theorem length_subspan {l : List α} (h : off + n ≤ l.length) : (subspan l off n).length = n := by
  rw [subspan, length_take, length_drop]
  omega

theorem getElem?_subspan {l : List α} {i : ℕ} :
    (subspan l off n)[i]? = if i < n then l[off + i]? else none := by
  rw [subspan, getElem?_take, getElem?_drop]

@[simp] theorem subspan_zero_length (l : List α) : subspan l 0 l.length = l := by
  simp [subspan]

theorem subspan_append_of_le {l₁ l₂ : List α} (h : l₁.length ≤ off) :
    subspan (l₁ ++ l₂) off n = subspan l₂ (off - l₁.length) n := by
  rw [subspan, subspan, drop_append, drop_of_length_le h, nil_append]

theorem subspan_append_of_lt {l₁ l₂ : List α} (h : off < l₁.length) :
    subspan (l₁ ++ l₂) off n
      = subspan l₁ off (min (l₁.length - off) n) ++ subspan l₂ 0 (n - (l₁.length - off)) := by
  rw [subspan, subspan, drop_append, Nat.sub_eq_zero_of_le (by omega), take_append, length_drop]
  congr 1
  rw [take_eq_take_iff, length_drop]
  omega

theorem subspan_append_of_fits {l₁ l₂ : List α} (h : off + n ≤ l₁.length) :
    subspan (l₁ ++ l₂) off n = subspan l₁ off n := by
  rw [subspan, subspan, drop_append_of_le_length (by omega),
    take_append_of_le_length (by rw [length_drop]; omega)]

theorem subspan_subspan {l : List α} {off' n' : ℕ} (h : off' + n' ≤ n) :
    subspan (subspan l off n) off' n' = subspan l (off + off') n' := by
  rw [subspan, subspan, subspan, drop_take, drop_drop, take_take, Nat.min_eq_left (by omega)]

theorem subspan_drop {l : List α} : subspan (l.drop k) off n = subspan l (k + off) n := by
  rw [subspan, subspan, drop_drop]

/-- Pieces of one length, end to end: the piece of the `i`-th element. -/
theorem subspan_flatMap {β : Type*} {g : α → List β} (hg : ∀ a, (g a).length = k)
    {l : List α} {i : ℕ} {a : α} (h : l[i]? = some a) : subspan (l.flatMap g) (i * k) k = g a := by
  induction l generalizing i with
  | nil => cases h
  | cons b l ih =>
    rw [flatMap_cons]
    cases i with
    | zero =>
      cases h
      have hlen : k ≤ (g a).length := Nat.le_of_eq (hg a).symm
      rw [zero_mul, subspan, drop_zero, take_append_of_le_length hlen]
      exact take_of_length_le (Nat.le_of_eq (hg a))
    | succ i =>
      have hlen : (g b).length ≤ (i + 1) * k := by rw [hg, succ_mul]; exact le_add_left k _
      rw [subspan_append_of_le hlen, hg, succ_mul, Nat.add_sub_cancel]
      exact ih h

theorem length_flatMap_const {β : Type*} {g : α → List β} (hg : ∀ a, (g a).length = k)
    (l : List α) : (l.flatMap g).length = l.length * k := by
  induction l with
  | nil => rw [flatMap_nil, length_nil, length_nil, zero_mul]
  | cons a l ih => rw [flatMap_cons, length_append, ih, hg, length_cons, succ_mul, add_comm]

theorem append_eq_append_of_length {a b c d : List α} (h : a.length = c.length) :
    a ++ b = c ++ d ↔ a = c ∧ b = d := ⟨fun he => append_inj he h, fun he => by rw [he.1, he.2]⟩

end Subspan

/-! ## Numbers in bytes -/

/-- The number bytes spell, first byte highest. -/
def beNat (b : Bytes) : ℕ := b.foldl (fun n x => n * 256 + x.toNat) 0

/-- The number bytes spell, first byte lowest. -/
def leNat (b : Bytes) : ℕ := beNat b.reverse

variable (b : Bytes) (x : UInt8)

theorem beNat_append_singleton : beNat (b ++ [x]) = beNat b * 256 + x.toNat := by
  rw [beNat, foldl_append]
  rfl

theorem leNat_cons (b : Bytes) : leNat (x :: b) = x.toNat + 256 * leNat b := by
  rw [leNat, reverse_cons, beNat_append_singleton, ← leNat]
  omega

theorem leNat_append (a b : Bytes) : leNat (a ++ b) = leNat a + 256 ^ a.length * leNat b := by
  induction a with
  | nil =>
    rw [length_nil, pow_zero, one_mul]
    exact (zero_add _).symm
  | cons x a ih =>
    rw [cons_append, leNat_cons, leNat_cons, ih, length_cons, pow_succ,
      Nat.mul_comm _ 256, Nat.mul_assoc, Nat.mul_add, Nat.add_assoc]

theorem leNat_lt : leNat b < 256 ^ b.length := by
  induction b with
  | nil => decide
  | cons x b ih =>
    have hx : x.toNat < 256 := x.toNat_lt
    rw [leNat_cons, length_cons]
    omega

/-- The low bytes of a number are its first ones. -/
theorem leNat_take (hk : k ≤ b.length) : leNat (b.take k) = leNat b % 256 ^ k := by
  have hlen : (b.take k).length = k := by rw [length_take]; omega
  have happ := leNat_append (b.take k) (b.drop k)
  have hlt := leNat_lt (b.take k)
  rw [take_append_drop, hlen] at happ
  rw [hlen] at hlt
  rw [happ, add_mul_mod_self_left, mod_eq_of_lt hlt]

/-- The low `k` bytes of a number, lowest first. -/
def leBytes : ℕ → ℕ → Bytes
  | 0, _ => []
  | k + 1, n => UInt8.ofNat n :: leBytes k (n / 256)

@[simp] theorem length_leBytes (k n : ℕ) : (leBytes k n).length = k := by
  induction k generalizing n with
  | zero => rfl
  | succ k ih => rw [leBytes, length_cons, ih]

/-- Fewer bytes of a number are the first of more. -/
theorem take_leBytes {l : ℕ} (h : l ≤ k) (n : ℕ) : (leBytes k n).take l = leBytes l n := by
  induction l generalizing k n with
  | zero => rfl
  | succ l ih =>
    obtain ⟨k, rfl⟩ : ∃ k', k = k' + 1 := ⟨k - 1, by omega⟩
    rw [leBytes, take_succ_cons, ih (by omega), leBytes]

theorem leNat_leBytes (k n : ℕ) : leNat (leBytes k n) = n % 256 ^ k := by
  induction k generalizing n with
  | zero => rw [pow_zero, mod_one]; rfl
  | succ k ih =>
    rw [leBytes, leNat_cons, ih, pow_succ, mul_comm _ 256, mod_mul, UInt8.toNat_ofNat']

/-- A byte string is the bytes of the number it spells. -/
theorem leBytes_leNat : leBytes b.length (leNat b) = b := by
  induction b with
  | nil => rfl
  | cons x b ih =>
    have hx : x.toNat < 256 := x.toNat_lt
    have hdiv : (x.toNat + 256 * leNat b) / 256 = leNat b := by omega
    have hmod : UInt8.ofNat (x.toNat + 256 * leNat b) = x := by
      refine UInt8.toNat_inj.1 ?_
      rw [UInt8.toNat_ofNat']
      omega
    rw [length_cons, leNat_cons, leBytes, hdiv, hmod, ih]

theorem leNat_inj {a b : Bytes} (hlen : a.length = b.length) (h : leNat a = leNat b) : a = b := by
  rw [← leBytes_leNat a, ← leBytes_leNat b, hlen, h]

/-- The number that `n` bits from bit `off` on spell, first bit highest. -/
def bitsAt (b : Bytes) (off n : ℕ) : ℕ := beNat b / 2 ^ (8 * b.length - off - n) % 2 ^ n

end Nanom
