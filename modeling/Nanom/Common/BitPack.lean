import Nanom.Common.Bits
/-!
# Packed fields

The other direction of `bitsAt`: fields of given widths, end to end and
first bit highest, as the bytes of one number (`fieldBytes`). A field is
read back from where the widths before it end (`bitsAt_fieldBytes`), also
with other bytes around.
-/

namespace Nanom

open List Nat

/-! ## Numbers in bytes, first byte highest -/

/-- The low `k` bytes of a number, highest first. -/
def beBytes (k n : ℕ) : Bytes := (leBytes k n).reverse

@[simp] theorem length_beBytes (k n : ℕ) : (beBytes k n).length = k := by
  rw [beBytes, length_reverse, length_leBytes]

theorem beNat_beBytes (k n : ℕ) : beNat (beBytes k n) = n % 256 ^ k := leNat_leBytes k n

theorem beNat_append (a b : Bytes) : beNat (a ++ b) = beNat b + 256 ^ b.length * beNat a := by
  have h := leNat_append b.reverse a.reverse
  rwa [leNat, leNat, leNat, ← reverse_append, reverse_reverse, reverse_reverse,
    reverse_reverse, length_reverse] at h

theorem beNat_lt (b : Bytes) : beNat b < 256 ^ b.length := by
  have h := leNat_lt b.reverse
  rwa [leNat, reverse_reverse, length_reverse] at h

section Around

variable {a b : Bytes} {off n : ℕ}

/-- The bytes behind a field. -/
theorem bitsAt_append_left (h : off + n ≤ 8 * a.length) :
    bitsAt (a ++ b) off n = bitsAt a off n := by
  have hshift : 8 * (a ++ b).length - off - n
      = 8 * b.length + (8 * a.length - off - n) := by
    rw [length_append]
    omega
  rw [bitsAt, bitsAt, hshift, pow_add, ← Nat.div_div_eq_div_mul, beNat_append,
    two_pow_eight_mul, add_mul_div_left _ _ (Nat.pow_pos (succ_pos 255)),
    div_eq_of_lt (beNat_lt b), zero_add]

/-- The bytes in front of it. -/
theorem bitsAt_append_right (hoff : 8 * a.length ≤ off)
    (h : off + n ≤ 8 * a.length + 8 * b.length) :
    bitsAt (a ++ b) off n = bitsAt b (off - 8 * a.length) n := by
  have hshift : 8 * (a ++ b).length - off - n
      = 8 * b.length - (off - 8 * a.length) - n := by
    rw [length_append]
    omega
  have hsplit : 8 * b.length = (8 * b.length - (off - 8 * a.length) - n) + n
      + (off - 8 * a.length) := by omega
  rw [bitsAt, bitsAt, hshift, beNat_append, ← two_pow_eight_mul]
  generalize 8 * b.length - (off - 8 * a.length) - n = s at hsplit ⊢
  rw [hsplit, pow_add, pow_add, mul_assoc, mul_assoc,
    add_mul_div_left _ _ (Nat.two_pow_pos s), add_mul_mod_self_left]

end Around

/-! ## Fields -/

/-- The bits that fields take, given as width and value. -/
def fieldsWidth : List (ℕ × ℕ) → ℕ
  | [] => 0
  | (w, _) :: fs => w + fieldsWidth fs

/-- The number that fields spell, first one highest. -/
def packFields : List (ℕ × ℕ) → ℕ
  | [] => 0
  | (_, v) :: fs => v * 2 ^ fieldsWidth fs + packFields fs

/-- Fields as `k` bytes. -/
def fieldBytes (k : ℕ) (fs : List (ℕ × ℕ)) : Bytes := beBytes k (packFields fs)

/-- Every value fits its width. -/
def FieldsFit (fs : List (ℕ × ℕ)) : Prop := ∀ f ∈ fs, f.2 < 2 ^ f.1

instance (fs : List (ℕ × ℕ)) : Decidable (FieldsFit fs) :=
  inferInstanceAs (Decidable (∀ f ∈ fs, f.2 < 2 ^ f.1))

variable {fs : List (ℕ × ℕ)}

theorem FieldsFit.nil : FieldsFit [] := forall_mem_nil _

theorem FieldsFit.cons {w v : ℕ} (hv : v < 2 ^ w) (h : FieldsFit fs) : FieldsFit ((w, v) :: fs) :=
  forall_mem_cons.2 ⟨hv, h⟩

@[simp] theorem fieldsWidth_nil : fieldsWidth [] = 0 := rfl

@[simp] theorem fieldsWidth_cons (f : ℕ × ℕ) (fs : List (ℕ × ℕ)) :
    fieldsWidth (f :: fs) = f.1 + fieldsWidth fs := rfl

theorem packFields_lt (h : FieldsFit fs) : packFields fs < 2 ^ fieldsWidth fs := by
  induction fs with
  | nil => exact one_pos
  | cons f fs ih =>
    have hf : f.2 < 2 ^ f.1 := h f mem_cons_self
    have hfs := ih (forall_mem_cons.1 h).2
    rw [fieldsWidth_cons, pow_add]
    calc f.2 * 2 ^ fieldsWidth fs + packFields fs
        < f.2 * 2 ^ fieldsWidth fs + 2 ^ fieldsWidth fs := Nat.add_lt_add_left hfs _
      _ = (f.2 + 1) * 2 ^ fieldsWidth fs := (succ_mul _ _).symm
      _ ≤ 2 ^ f.1 * 2 ^ fieldsWidth fs := mul_le_mul_right _ hf

@[simp] theorem length_fieldBytes (k : ℕ) (fs : List (ℕ × ℕ)) : (fieldBytes k fs).length = k :=
  length_beBytes _ _

theorem fieldsWidth_take {i w v : ℕ} (hi : fs[i]? = some (w, v)) :
    fieldsWidth (fs.take i) + w ≤ fieldsWidth fs := by
  induction fs generalizing i with
  | nil => cases hi
  | cons f fs ih =>
    cases i with
    | zero =>
      cases hi
      rw [take_zero, fieldsWidth_cons, fieldsWidth_nil]
      omega
    | succ i =>
      have := ih hi
      rw [take_succ_cons, fieldsWidth_cons, fieldsWidth_cons]
      omega

/-- A field of the number: the ones behind it are cut off by the division,
the ones in front by the remainder. -/
theorem packFields_div_mod (h : FieldsFit fs) {i w v : ℕ} (hi : fs[i]? = some (w, v)) :
    packFields fs / 2 ^ (fieldsWidth fs - fieldsWidth (fs.take i) - w) % 2 ^ w = v := by
  induction fs generalizing i with
  | nil => cases hi
  | cons f fs ih =>
    have hrest : FieldsFit fs := (forall_mem_cons.1 h).2
    cases i with
    | zero =>
      cases hi
      have hv : v < 2 ^ w := h (w, v) mem_cons_self
      have hwidth : fieldsWidth ((w, v) :: fs) - fieldsWidth [] - w = fieldsWidth fs := by
        rw [fieldsWidth_cons, fieldsWidth_nil]
        omega
      rw [take_zero, hwidth, packFields, mul_comm,
        mul_add_div (Nat.two_pow_pos _), div_eq_of_lt (packFields_lt hrest),
        add_zero, mod_eq_of_lt hv]
    | succ i =>
      have hle := fieldsWidth_take (show fs[i]? = some (w, v) from hi)
      have hshift : fieldsWidth (f :: fs) - fieldsWidth ((f :: fs).take (i + 1)) - w
          = fieldsWidth fs - fieldsWidth (fs.take i) - w := by
        rw [take_succ_cons, fieldsWidth_cons, fieldsWidth_cons]
        omega
      have hsplit : fieldsWidth fs = (fieldsWidth fs - fieldsWidth (fs.take i) - w) + w
          + fieldsWidth (fs.take i) := by omega
      have ih := ih hrest hi
      rw [hshift, packFields, add_comm, mul_comm]
      generalize fieldsWidth fs - fieldsWidth (fs.take i) - w = s at hsplit ih ⊢
      rw [hsplit, pow_add, pow_add, mul_assoc, mul_assoc,
        add_mul_div_left _ _ (Nat.two_pow_pos s), add_mul_mod_self_left, ih]

/-- **A field is read back** from behind the fields before it. -/
theorem bitsAt_fieldBytes {k : ℕ} (h : FieldsFit fs) (hk : fieldsWidth fs = 8 * k) (i : ℕ)
    {w v : ℕ} (hi : fs[i]? = some (w, v)) :
    bitsAt (fieldBytes k fs) (fieldsWidth (fs.take i)) w = v := by
  have hlt : packFields fs < 256 ^ k := by rw [← two_pow_eight_mul, ← hk]; exact packFields_lt h
  rw [bitsAt, length_fieldBytes, ← hk, fieldBytes, beNat_beBytes, mod_eq_of_lt hlt,
    packFields_div_mod h hi]

end Nanom
