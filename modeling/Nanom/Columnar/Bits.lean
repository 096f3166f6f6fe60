import Nanom.Common.Bits
import Nanom.Common.BitView
import Nanom.Common.Loop
import Nanom.Common.Window

/-!
# Columnar pages — bit packing

The kernels that pack integers of one width into bytes and unpack them in
groups of eight: unpacking loads whole words and lets a group near the end go
through a padded buffer, packing collects bits in a word and stores it when it
is full. `unpackBits_eq` and `packBits_eq` say what both come to, in terms of
`field` and `packed`. A load behind the input and a store behind the output are
`Fault.undefined`.
-/

namespace Nanom.Columnar

open Loop List Except Nat

variable {bit k size : ℕ} {values vs : List ℕ}
variable {α : Type} {bits width n : ℕ} {input : Bytes}

/-- What is not a result: an access outside the memory given, or a loop
that was not given enough rounds. -/
inductive Fault
  | undefined
  | unfinished
  deriving DecidableEq

/-- The result of an access. -/
def access : Option α → Except Fault α
  | some a => .ok a
  | none => .error .undefined

theorem access_of_eq {o : Option α} {a : α} (h : o = some a) : access o = .ok a := by
  rw [h]
  rfl

/-- Why a value kernel has no result: a `kernel_status` with the message
of what was malformed, or a fault. -/
inductive KernelStop
  | fail (error : String)
  | fault (f : Fault)
  deriving DecidableEq

def kernelFail (why : String) : Except KernelStop α := .error (.fail why)

/-- A step of a value kernel that can only go wrong. -/
def unfailing : Except Fault α → Except KernelStop α
  | .ok a => .ok a
  | .error f => .error (.fault f)

def int32Max : ℕ := 2 ^ 31 - 1

/-! ## Unpacking -/

def loadLe64 (input : Bytes) (p : ℕ) : Except Fault ℕ :=
  access (if p + 8 ≤ input.length then some (leNat (subspan input p 8)) else none)

/-- The mask of a width. -/
def widthMask (width : ℕ) : ℕ := if 64 ≤ width then 2 ^ 64 - 1 else (1 <<< width) - 1

/-- The value at bit `bit`, of a width up to 56: in the word from its
first byte on. -/
def unpackNarrow (bits width : ℕ) (input : Bytes) (bit : ℕ) : Except Fault ℕ := do
  let word ← loadLe64 input (bit / 8)
  return ((word >>> (bit % 8)) &&& widthMask width) % 2 ^ bits

/-- The bits of a wide value in the byte behind the word. -/
def highBits (input : Bytes) (bit : ℕ) : Except Fault ℕ :=
  if bit % 8 ≠ 0 then do
    let byte ← access input[bit / 8 + 8]?
    return u64 (byte.toNat <<< (64 - bit % 8))
  else return 0

/-- The value at bit `bit`, of a greater width: its last bits may be in
the byte behind the word. -/
def unpackWide (bits width : ℕ) (input : Bytes) (bit : ℕ) : Except Fault ℕ := do
  let lo ← loadLe64 input (bit / 8)
  let hi ← highBits input bit
  return (((lo >>> (bit % 8)) ||| hi) &&& widthMask width) % 2 ^ bits

/-- `unpack8<U, W>`, with `bits` the bits of `U`. -/
def unpack8 (bits width : ℕ) (input : Bytes) : Except Fault (List ℕ) :=
  if width = 0 then return List.replicate 8 0
  else if width ≤ 56 then (List.range 8).mapM fun i => unpackNarrow bits width input (i * width)
  else (List.range 8).mapM fun i => unpackWide bits width input (i * width)

/-- The group at `pos`, copied into a buffer of zeros. -/
def paddedGroup (width : ℕ) (input : Bytes) (inLen pos : ℕ) : Except Fault Bytes := do
  let have_ := if pos < inLen then min width (inLen - pos) else 0
  let group ← access (if have_ = 0 ∨ pos + have_ ≤ input.length then
    some (subspan input pos have_) else none)
  return group ++ List.replicate (64 + 16 - have_) 0

/-- `unpack_groups<U, W>`: the groups with slack behind them as they
stand, the others through a padded buffer. What `in_len` says is readable is
not always there. -/
def unpackGroups (bits width : ℕ) (input : Bytes) (inLen groups : ℕ) : Except Fault (List ℕ) := do
  let safe := if width + 8 ≤ inLen then
    (inLen - (width + 8)) / (if width ≠ 0 then width else 1) + 1 else 0
  let fast := if width = 0 then groups else min groups safe
  let head ← (List.range fast).mapM fun g => unpack8 bits width (input.drop (g * width))
  let tail ← (List.range' fast (groups - fast)).mapM fun g => do
    unpack8 bits width (← paddedGroup width input inLen (g * width))
  return head.flatten ++ tail.flatten

/-- A difference in a `size_t`. -/
def sub64 (a b : ℕ) : ℕ := if b ≤ a then a - b else 2 ^ 64 + a - b

/-- `unpack_bits<U>`, into a span of `size` values: what is written, or
nothing where it returns false. -/
def unpackBits (bits : ℕ) (input : Bytes) (width size n : ℕ) : Except Fault (Option (List ℕ)) :=
  if bits < width ∨ size < n then return none
  else if input.length < u64 (u64 (n * width) + 7) / 8 then return none
  else do
    let full := n / 8
    let whole ← unpackGroups bits width input input.length full
    if n % 8 ≠ 0 then
      let at_ := u64 (full * width)
      let tmp ← unpackGroups bits width (input.drop at_) (sub64 input.length at_) 1
      return some (whole ++ tmp.take (n % 8))
    else return some whole

/-- The values of a width that bytes hold, from value `i` on. -/
def valuesFrom (input : Bytes) (width i n : ℕ) : List ℕ :=
  (List.range' i n).map fun i => field input (i * width) width

section

variable (input : Bytes)

theorem length_valuesFrom (width i n : ℕ) : (valuesFrom input width i n).length = n := by
  rw [valuesFrom, length_map, length_range']

theorem valuesFrom_add (width i m n : ℕ) :
    valuesFrom input width i (m + n)
      = valuesFrom input width i m ++ valuesFrom input width (i + m) n := by
  rw [valuesFrom, ← range'_append_1, map_append]
  rfl

theorem take_valuesFrom (width i : ℕ) {n : ℕ} (h : k ≤ n) :
    (valuesFrom input width i n).take k = valuesFrom input width i k := by
  obtain ⟨m, rfl⟩ := Nat.exists_eq_add_of_le h
  rw [valuesFrom_add, take_left' (length_valuesFrom ..)]

theorem valuesFrom_drop (width g n : ℕ) :
    valuesFrom (input.drop (g * width)) width 0 n = valuesFrom input width (8 * g) n := by
  rw [valuesFrom, valuesFrom, range'_eq_map_range, range'_eq_map_range, map_map, map_map]
  refine map_congr_left fun i _ => ?_
  show field _ ((0 + i) * width) width = field _ ((8 * g + i) * width) width
  rw [field_drop, zero_add, add_mul, mul_assoc]

end

theorem and_widthMask (hw : width ≤ 64) (m : ℕ) : m &&& widthMask width = m % 2 ^ width := by
  have hmask : widthMask width = 2 ^ width - 1 := by
    rw [widthMask]
    split
    · rw [le_antisymm hw ‹64 ≤ width›]
    · rw [shiftLeft_eq, one_mul]
  rw [hmask, and_two_pow_sub_one_eq_mod]

theorem loadLe64_eq {p : ℕ} (h : p + 8 ≤ input.length) :
    loadLe64 input p = .ok (leNat (subspan input p 8)) := by
  rw [loadLe64, if_pos h]
  rfl

theorem unpackNarrow_eq (hw : width ≤ 56) (hbits : width ≤ bits) (h : bit / 8 + 8 ≤ input.length) :
    unpackNarrow bits width input bit = .ok (field input bit width) := by
  have hread := field_subspan input bit width (i := bit / 8) (n := 8)
    (by omega) (by omega)
  have hmod : bit - 8 * (bit / 8) = bit % 8 := by omega
  have hlt := lt_of_lt_of_le (field_lt input bit width) (Nat.pow_le_pow_right (by decide) hbits)
  rw [hmod] at hread
  rw [unpackNarrow, loadLe64_eq h, ok_bind, and_widthMask (by omega), shiftRight_eq_div_pow,
    hread, mod_eq_of_lt hlt]
  rfl

theorem unpackWide_eq (hw : width ≤ 64) (hbits : width ≤ bits) (h : bit / 8 + 9 ≤ input.length) :
    unpackWide bits width input bit = .ok (field input bit width) := by
  have hmod : bit - 8 * (bit / 8) = bit % 8 := by omega
  have hlt := lt_of_lt_of_le (field_lt input bit width) (Nat.pow_le_pow_right (by decide) hbits)
  rw [unpackWide, loadLe64_eq (by omega), ok_bind, highBits]
  split
  · obtain ⟨byte, hbyte⟩ : ∃ byte, input[bit / 8 + 8]? = some byte :=
      ⟨_, getElem?_eq_getElem (by omega)⟩
    -- the nine bytes around the value
    have hnine : leNat (subspan input (bit / 8) 9)
        = leNat (subspan input (bit / 8) 8) + 2 ^ 64 * byte.toNat := by
      have hlast : subspan input (bit / 8) 9 = subspan input (bit / 8) 8 ++ [byte] := by
        rw [subspan, subspan, take_add_one, getElem?_drop, hbyte]
        rfl
      rw [hlast, leNat_append, length_subspan (by omega), leNat_cons]
      rfl
    have hread := field_subspan input bit width (i := bit / 8) (n := 9)
      (by omega) (by omega)
    have hpow : 2 ^ 64 = 2 ^ (bit % 8) * 2 ^ (64 - bit % 8) := by
      rw [← pow_add]
      congr 1
      omega
    have hlo := leNat_lt (subspan input (bit / 8) 8)
    rw [length_subspan (by omega)] at hlo
    have hlow : leNat (subspan input (bit / 8) 8) / 2 ^ (bit % 8) < 2 ^ (64 - bit % 8) :=
      Nat.div_lt_of_lt_mul (hpow ▸ hlo)
    rw [hmod, hnine, hpow, mul_assoc, add_mul_div_left _ _ (Nat.two_pow_pos _)] at hread
    have hdvd : 2 ^ width ∣ 2 ^ 64 := pow_dvd_pow 2 hw
    rw [hbyte]
    show ok _ = _
    rw [and_widthMask hw, shiftRight_eq_div_pow, or_shiftLeft_u64 hlow (by omega), u64,
      mod_mod_of_dvd _ hdvd, hread, mod_eq_of_lt hlt]
  · have hread := field_subspan input bit width (i := bit / 8) (n := 8)
      (by omega) (by omega)
    rw [hmod] at hread
    show ok _ = _
    rw [or_zero, and_widthMask hw, shiftRight_eq_div_pow, hread, mod_eq_of_lt hlt]

/-- **A group of eight.** -/
theorem unpack8_eq (hw : width ≤ 64) (hbits : width ≤ bits)
    (h : width ≠ 0 → width + 8 ≤ input.length) :
    unpack8 bits width input = .ok (valuesFrom input width 0 8) := by
  have hvalues : valuesFrom input width 0 8
      = (range 8).map fun i => field input (i * width) width := by
    rw [valuesFrom, range_eq_range']
  rw [unpack8, hvalues]
  split
  · subst width
    simp [field, mod_one]
    rfl
  split
  · refine mapM_ok fun i hi => unpackNarrow_eq ‹_› hbits ?_
    have hi' := mul_le_mul_right width (le_of_lt_succ (mem_range.1 hi))
    omega
  · refine mapM_ok fun i hi => unpackWide_eq hw hbits ?_
    have hi' := mul_le_mul_right width (le_of_lt_succ (mem_range.1 hi))
    omega

/-- **A group near the end**, with nothing but zeros behind it. -/
theorem paddedGroup_eq (hw : width ≤ 64) (g : ℕ) : ∃ buf,
    paddedGroup width input input.length (g * width) = .ok buf ∧ buf.length = 64 + 16 ∧
      valuesFrom buf width 0 8 = valuesFrom input width (8 * g) 8 := by
  set have_ := if g * width < input.length then min width (input.length - g * width) else 0
    with hhave
  have hread : have_ = 0 ∨ g * width + have_ ≤ input.length := by
    rw [hhave]
    split <;> omega
  refine ⟨subspan input (g * width) have_ ++ replicate (64 + 16 - have_) 0, ?_, ?_, ?_⟩
  · unfold paddedGroup
    dsimp only
    rw [← hhave, if_pos hread]
    rfl
  · rw [length_append, length_replicate, subspan, length_take, length_drop, hhave]
    split <;> omega
  rw [← valuesFrom_drop]
  refine map_congr_left fun i hi => ?_
  have hi' := mul_le_mul_right width (le_of_lt_succ (mem_range'_1.1 hi).2)
  rw [field_append_zeros, hhave]
  split
  · rcases le_total width (input.length - g * width) with hle | hle
    · rw [subspan, field_take (by omega)]
    · rw [min_eq_right hle, subspan, take_of_length_le (by rw [length_drop])]
  · rw [subspan, take_zero, drop_of_length_le (by omega)]

theorem flatten_valuesFrom (m groups : ℕ) :
    ((range' m groups).map fun g => valuesFrom input width (8 * g) 8).flatten
      = valuesFrom input width (8 * m) (8 * groups) := by
  induction groups generalizing m with
  | zero => rfl
  | succ groups ih =>
    rw [range'_succ, map_cons, flatten_cons, ih, mul_succ,
      mul_succ, add_comm (8 * groups), valuesFrom_add]

section

variable (hw : width ≤ 64) (hbits : width ≤ bits)
include hw hbits

/-- **Groups of eight**, wherever the input ends. -/
theorem unpackGroups_eq (groups : ℕ) :
    unpackGroups bits width input input.length groups
      = .ok (valuesFrom input width 0 (8 * groups)) := by
  unfold unpackGroups
  dsimp only
  set safe := if width + 8 ≤ input.length then
    (input.length - (width + 8)) / (if width ≠ 0 then width else 1) + 1 else 0 with hsafe
  set fast := if width = 0 then groups else min groups safe with hfast
  have hle : fast ≤ groups := by
    rw [hfast]
    split <;> omega
  -- the unchecked loads stay in the input
  have hslack : ∀ g < fast, width ≠ 0 → width + 8 ≤ (input.drop (g * width)).length := by
    intro g hg hne
    rw [hfast, if_neg hne, hsafe, if_pos hne] at hg
    by_cases hlen : width + 8 ≤ input.length
    · rw [if_pos hlen] at hg
      have hdiv := div_mul_le_self (input.length - (width + 8)) width
      have hmul := mul_le_mul_right width
        (show g ≤ (input.length - (width + 8)) / width by omega)
      rw [length_drop]
      omega
    · rw [if_neg hlen] at hg
      omega
  have hhead : (range fast).mapM (fun g => unpack8 bits width (input.drop (g * width)))
      = .ok ((range fast).map fun g => valuesFrom input width (8 * g) 8) :=
    mapM_ok fun g hg => by
      rw [unpack8_eq hw hbits (hslack g (mem_range.1 hg)), valuesFrom_drop]
  have htail : (range' fast (groups - fast)).mapM
        (fun g => do unpack8 bits width (← paddedGroup width input input.length (g * width)))
      = .ok ((range' fast (groups - fast)).map fun g => valuesFrom input width (8 * g) 8) :=
    mapM_ok fun g _ => by
      obtain ⟨buf, hbuf, hlen, hvalues⟩ := @paddedGroup_eq width input hw g
      rw [hbuf, ok_bind, unpack8_eq hw hbits (fun _ => by rw [hlen]; omega), hvalues]
  rw [hhead, ok_bind, htail, ok_bind, range_eq_range', flatten_valuesFrom, flatten_valuesFrom]
  show ok _ = _
  have hadd := valuesFrom_add input width 0 (8 * fast) (8 * (groups - fast))
  rw [zero_add] at hadd
  rw [← hadd, ← mul_add, Nat.add_sub_cancel' hle]

/-- **Unpacking** gives the values, if their bits are there. -/
theorem unpackBits_eq (hsize : n ≤ size) (h : n * width ≤ 8 * input.length)
    (hat : n % 8 ≠ 0 → n / 8 * width < 2 ^ 64) :
    unpackBits bits input width size n = .ok (some (valuesFrom input width 0 n)) := by
  have h₁ : u64 (n * width) ≤ n * width := mod_le _ _
  have h₂ : u64 (u64 (n * width) + 7) ≤ u64 (n * width) + 7 := mod_le _ _
  have hdiv : 8 * (n / 8) + n % 8 = n := div_add_mod n 8
  rw [unpackBits, if_neg (by omega), if_neg (by omega)]
  dsimp only
  rw [unpackGroups_eq hw hbits, ok_bind]
  split
  · rename_i hrem
    -- the last group starts in the input
    have hle : n / 8 * width ≤ input.length := by
      have hmul := mul_le_mul_right width (mul_div_le n 8)
      rw [mul_assoc] at hmul
      omega
    have hlast : valuesFrom input width (8 * (n / 8)) 8
        = valuesFrom input width (8 * (n / 8)) (n % 8)
          ++ valuesFrom input width (8 * (n / 8) + n % 8) (8 - n % 8) := by
      rw [← valuesFrom_add]
      congr 1
      omega
    rw [u64_of_lt (hat hrem), sub64, if_pos hle, ← length_drop, unpackGroups_eq hw hbits, ok_bind,
      valuesFrom_drop, hlast, take_append_of_le_length (by rw [length_valuesFrom]),
      take_of_length_le (by rw [length_valuesFrom])]
    have hadd := valuesFrom_add input width 0 (8 * (n / 8)) (n % 8)
    rw [zero_add, hdiv] at hadd
    rw [hadd]
    rfl
  · have hfull : 8 * (n / 8) = n := by omega
    rw [hfull]
    rfl

end

/-! ## Packing -/

/-- Where packing is: the bytes stored, the bits collected behind them and
the output. -/
structure BitPacker (n : ℕ) where
  o : ℕ
  acc : ℕ
  bits : ℕ
  buf : Buffer UInt8 n

/-- Nothing packed, into zeros. -/
def BitPacker.fresh (n : ℕ) : BitPacker n := ⟨0, 0, 0, .zeros n⟩

/-- One value: its low bits go into the word, which is stored when full. -/
def packValue (width : ℕ) (c : BitPacker n) (x : ℕ) : Except Fault (BitPacker n) :=
  let v := x &&& widthMask width
  let acc := c.acc ||| u64 (v <<< c.bits)
  if 64 ≤ c.bits + width then do
    let buf ← access (c.buf.store c.o (leBytes 8 acc))
    return ⟨c.o + 8, if c.bits ≠ 0 then v >>> (64 - c.bits) else 0, c.bits + width - 64, buf⟩
  else return { c with acc := acc, bits := c.bits + width }

/-- `pack_bits`, appended to `out`: into zeros with room for a whole word
more, which is cut off again. -/
def packBits (values : List ℕ) (width : ℕ) (out : Bytes) : Except Fault Bytes :=
  if width = 0 ∨ values = [] then return out
  else do
    let total := u64 (u64 (values.length * width) + 7) / 8
    let c ← values.foldlM (packValue width) (.fresh (total + 8))
    let buf ← access (c.buf.store c.o (leBytes 8 c.acc))
    return out ++ buf.elems.take total

/-- What packing keeps: the bytes stored and the bits collected are those
of the values so far. -/
structure BitPacker.Holds (width : ℕ) (vs : List ℕ) (c : BitPacker n) : Prop where
  bits_lt : c.bits < 64
  acc_lt : c.acc < 2 ^ c.bits
  count : 8 * c.o + c.bits = vs.length * width
  value : leNat (c.buf.elems.take c.o) + 2 ^ (8 * c.o) * c.acc = packed width vs

theorem BitPacker.Holds.value_append {c : BitPacker n} (h : c.Holds width vs) (x : ℕ) :
    leNat (c.buf.elems.take c.o) + 2 ^ (8 * c.o) * (c.acc + 2 ^ c.bits * (x % 2 ^ width))
      = packed width (vs ++ [x]) := by
  rw [packed_append, packed_singleton, ← h.value, mul_comm width, ← h.count, mul_add,
    pow_add, mul_assoc, add_assoc]

theorem carry_eq {acc b v : ℕ} (hacc : acc < 2 ^ b) (hb : b < 64) (hv : v < 2 ^ 64) :
    (if b ≠ 0 then v >>> (64 - b) else 0) = (acc + 2 ^ b * v) / 2 ^ 64 := by
  have hpow : 2 ^ 64 = 2 ^ b * 2 ^ (64 - b) := by
    rw [← pow_add]
    congr 1
    omega
  have hdiv : (acc + 2 ^ b * v) / 2 ^ 64 = v / 2 ^ (64 - b) := by
    rw [hpow, ← Nat.div_div_eq_div_mul, add_mul_div_left _ _ (Nat.two_pow_pos b),
      div_eq_of_lt hacc, zero_add]
  rw [hdiv]
  split
  · rw [shiftRight_eq_div_pow]
  · rw [show b = 0 by omega, div_eq_of_lt hv]

/-- **A value more.** -/
theorem BitPacker.Holds.packValue {c : BitPacker n} (h : c.Holds width vs)
    (hw : width ≤ 64) (x : ℕ) (hroom : (vs.length + 1) * width ≤ 8 * n) :
    ∃ c', packValue width c x = .ok c' ∧ c'.Holds width (vs ++ [x]) := by
  have hbits := h.bits_lt
  have hcount := h.count
  have hlen : (vs ++ [x]).length = vs.length + 1 := by rw [length_append]; rfl
  have hx : x % 2 ^ width < 2 ^ width := mod_lt _ (Nat.two_pow_pos width)
  have hsum : c.acc + 2 ^ c.bits * (x % 2 ^ width) < 2 ^ (c.bits + width) := by
    calc c.acc + 2 ^ c.bits * (x % 2 ^ width) < 2 ^ c.bits * (x % 2 ^ width + 1) := by
          rw [mul_succ]
          have := h.acc_lt
          omega
      _ ≤ 2 ^ c.bits * 2 ^ width := mul_le_mul_left _ hx
      _ = 2 ^ (c.bits + width) := (pow_add ..).symm
  rw [succ_mul] at hroom
  unfold Columnar.packValue
  dsimp only
  rw [and_widthMask hw, or_shiftLeft_u64 h.acc_lt (by omega)]
  split
  · rename_i hfull
    set sum := c.acc + 2 ^ c.bits * (x % 2 ^ width) with hdef
    obtain ⟨b', hstore, htake⟩ := Buffer.take_store (b := c.buf) (l := leBytes 8 (u64 sum))
      (k := 8) (show c.o + (leBytes 8 (u64 sum)).length ≤ n by rw [length_leBytes]; omega)
      (le_of_eq (length_leBytes 8 _).symm)
    rw [take_of_length_le (le_of_eq (length_leBytes 8 _))] at htake
    have hcarry := carry_eq h.acc_lt hbits
      (lt_of_lt_of_le hx (Nat.pow_le_pow_right Nat.two_pos hw))
    rw [← hdef] at hcarry
    refine ⟨_, by rw [hstore]; rfl, ?_, ?_, ?_, ?_⟩
    · show c.bits + width - 64 < 64
      omega
    · show (if c.bits ≠ 0 then (x % 2 ^ width) >>> (64 - c.bits) else 0)
        < 2 ^ (c.bits + width - 64)
      rw [hcarry]
      refine Nat.div_lt_of_lt_mul (Nat.lt_of_lt_of_eq hsum ?_)
      rw [← pow_add]
      congr 1
      omega
    · show 8 * (c.o + 8) + (c.bits + width - 64) = _
      rw [hlen, succ_mul vs.length]
      omega
    · have hoLe : c.o ≤ n := by omega
      show leNat (b'.elems.take (c.o + 8)) + 2 ^ (8 * (c.o + 8))
        * (if c.bits ≠ 0 then (x % 2 ^ width) >>> (64 - c.bits) else 0) = _
      rw [hcarry, ← h.value_append, ← hdef, htake, leNat_append, Buffer.length_take hoLe,
        leNat_leBytes, ← two_pow_eight_mul, ← two_pow_eight_mul, u64, mod_mod, mul_add 8,
        pow_add, mul_assoc, add_assoc, ← mul_add, mod_add_div]
  · refine ⟨_, rfl, ?_, ?_, ?_, ?_⟩
    · show c.bits + width < 64
      omega
    · show u64 _ < 2 ^ (c.bits + width)
      exact lt_of_le_of_lt (mod_le _ _) hsum
    · show 8 * c.o + (c.bits + width) = _
      rw [hlen, succ_mul vs.length]
      omega
    · rw [← h.value_append]
      have hlt : c.acc + 2 ^ c.bits * (x % 2 ^ width) < 2 ^ 64 :=
        lt_of_lt_of_le hsum (Nat.pow_le_pow_right (by decide) (by omega))
      show leNat (c.buf.elems.take c.o) + 2 ^ (8 * c.o) * u64 _ = _
      rw [u64_of_lt hlt]

theorem packAll (hw : width ≤ 64) (values : List ℕ) (hroom : values.length * width ≤ 8 * n) :
    ∃ c, values.foldlM (packValue width) (.fresh n) = .ok c ∧ c.Holds width values := by
  refine foldlM_inv (I := fun done c => BitPacker.Holds width done c)
    (fun done x rest c hl hc => hc.packValue hw x ?_)
    ⟨zero_lt_succ 63, Nat.two_pow_pos 0, (zero_mul _).symm, rfl⟩
  rw [hl, length_append, length_cons] at hroom
  exact le_trans (mul_le_mul_right width (by omega)) hroom

/-- **Packing** gives the bytes of the packed values. -/
theorem packBits_eq (hw : width ≤ 64) (out : Bytes) (hlen : values.length * width + 7 < 2 ^ 64) :
    packBits values width out
      = .ok (out ++ leBytes ((values.length * width + 7) / 8) (packed width values)) := by
  unfold packBits
  by_cases hempty : width = 0 ∨ values = []
  · have hzero : values.length * width = 0 := by
      rcases hempty with rfl | rfl
      · exact mul_zero _
      · exact zero_mul _
    rw [if_pos hempty, hzero]
    show ok out = ok (out ++ [])
    rw [append_nil]
  have htotal : u64 (u64 (values.length * width) + 7) / 8
      = (values.length * width + 7) / 8 := by
    rw [u64_of_lt (show values.length * width < 2 ^ 64 by omega), u64_of_lt hlen]
  rw [if_neg hempty]
  dsimp only
  rw [htotal]
  set total := (values.length * width + 7) / 8 with hdef
  obtain ⟨c, hrun, hc⟩ := packAll (n := total + 8) hw values (by omega)
  have hbits := hc.bits_lt
  have hcount := hc.count
  obtain ⟨b', hstore, htake⟩ := Buffer.take_store (b := c.buf) (l := leBytes 8 c.acc) (k := 8)
    (show c.o + (leBytes 8 c.acc).length ≤ total + 8 by rw [length_leBytes]; omega)
    (le_of_eq (length_leBytes 8 _).symm)
  rw [take_of_length_le (le_of_eq (length_leBytes 8 _))] at htake
  -- the last word, of which the output keeps what the values need
  have hacc : c.acc < 256 ^ 8 := lt_trans hc.acc_lt (Nat.pow_lt_pow_right (by decide) hbits)
  have hbytes : leNat (b'.elems.take (c.o + 8)) = packed width values := by
    rw [htake, leNat_append, Buffer.length_take (by omega), leNat_leBytes,
      mod_eq_of_lt hacc, ← two_pow_eight_mul, hc.value]
  have hcut : b'.elems.take total = leBytes total (packed width values) := by
    rw [← hbytes, ← take_leBytes (show total ≤ c.o + 8 by omega)]
    have hlen' := Buffer.length_take (b := b') (show c.o + 8 ≤ total + 8 by omega)
    have hle := leBytes_leNat (b'.elems.take (c.o + 8))
    rw [hlen'] at hle
    rw [hle, take_take, min_eq_left (by omega)]
  rw [hrun, ok_bind, hstore]
  show ok (out ++ b'.elems.take total) = _
  rw [hcut]

theorem valuesFrom_leBytes (hk : values.length * width ≤ 8 * k) (rest : Bytes) :
    valuesFrom (leBytes k (packed width values) ++ rest) width 0 values.length
      = values.map (· % 2 ^ width) := by
  refine ext_getElem? fun i => ?_
  rw [valuesFrom, getElem?_map, getElem?_map]
  rcases lt_or_ge i values.length with hi | hi
  · have hget := getElem?_eq_getElem hi
    rw [getElem?_range' hi, hget, Option.map_some, zero_add, one_mul,
      field_packed hget hk, Option.map_some]
  · rw [getElem?_eq_none hi, getElem?_eq_none (by rw [length_range']; exact hi)]
    rfl

theorem valuesFrom_packed (hlt : ∀ v ∈ values, v < 2 ^ width)
    (hk : values.length * width ≤ 8 * k) (rest : Bytes) :
    valuesFrom (leBytes k (packed width values) ++ rest) width 0 values.length = values := by
  rw [valuesFrom_leBytes hk]
  exact (map_congr_left fun v hv => mod_eq_of_lt (hlt v hv)).trans values.map_id'

/-! ## Bit by bit -/

/-- The number that bits spell, first lowest. -/
def spelled (b : Bytes) (off w : ℕ) : ℕ := Nat.ofBits fun j : Fin w => bitOf b (off + j)

theorem field_eq_spelled (b : Bytes) (off w : ℕ) : field b off w = spelled b off w := by
  refine eq_of_testBit_eq fun j => ?_
  rw [field, spelled, testBit_mod_two_pow, testBit_div_two_pow, testBit_leNat, add_comm]
  by_cases hj : j < w
  · rw [testBit_ofBits_lt _ _ hj, decide_eq_true hj, Bool.true_and]
  · rw [testBit_ofBits_ge _ _ (Nat.le_of_not_lt hj), decide_eq_false hj, Bool.false_and]

/-- The bytes that `n` values take. -/
def bytesFor (width n : ℕ) : ℕ := (n * width + 7) / 8

/-- What `unpack_bits` is for: the values that the bits of the first bytes spell,
or nothing where one argument is too small for the others. -/
def unpacked (bits : ℕ) (input : Bytes) (width size n : ℕ) : Option (List ℕ) :=
  if width ≤ bits ∧ n ≤ size ∧ bytesFor width n ≤ input.length then
    some ((List.range n).map fun i => spelled (input.take (bytesFor width n)) (i * width) width)
  else none

/-- **Unpacking is bit by bit**, into any span that there can be: one of `2 ^ 61`
bytes has no place in memory. -/
theorem unpackBits_spelled {size : ℕ} (hbits : bits = 32 ∨ bits = 64)
    (hspan : size * (bits / 8) < 2 ^ 61) :
    unpackBits bits input width size n = .ok (unpacked bits input width size n) := by
  rw [unpacked, bytesFor]
  by_cases hargs : bits < width ∨ size < n
  · rw [unpackBits, if_pos hargs, if_neg (by omega)]
    rfl
  -- the bits of the values can be counted, and rounded up to bytes
  have hn : n * width + 7 < 2 ^ 64 := by
    have hmul : n * width ≤ size * bits := Nat.mul_le_mul (by omega) (by omega)
    rcases hbits with rfl | rfl <;> omega
  by_cases hlen : (n * width + 7) / 8 ≤ input.length
  · have hat : n / 8 * width ≤ n * width := mul_le_mul_right width (div_le_self n 8)
    rw [unpackBits_eq (by omega) (by omega) (by omega) (by omega) fun _ => by omega,
      if_pos (by omega), valuesFrom, ← range_eq_range']
    refine congrArg (ok ∘ some) (map_congr_left fun i hi => ?_)
    have hend : i * width + width ≤ n * width := by
      rw [← succ_mul]
      exact mul_le_mul_right width (mem_range.1 hi)
    rw [← field_eq_spelled, field_take (by omega)]
  · rw [unpackBits, if_neg hargs, u64_of_lt (show n * width < 2 ^ 64 by omega), u64_of_lt hn,
      if_pos (by omega), if_neg (by omega)]
    rfl

/-- Eleven values of three bits, three of them behind the last whole group, and a
byte that is not looked at. -/
theorem unpackBits_spelled_eleven :
    unpackBits 32 [0xD1, 0x01, 0xFF, 0xAA, 0x01, 0xFF] 3 11 11
      = .ok (some [1, 2, 7, 0, 0, 6, 7, 7, 2, 5, 6]) :=
  (unpackBits_spelled (.inl rfl) (by decide)).trans (by decide)

/-- **What is packed is unpacked**, with the bits above the width dropped. -/
theorem unpackBits_packBits {values : List ℕ} (hw : width ≤ 64)
    (hlen : values.length * width < 2 ^ 63) (out : Bytes) :
    ∃ bytes, packBits values width out = .ok (out ++ bytes) ∧
      bytes.length = bytesFor width values.length ∧
      unpackBits 64 bytes width values.length values.length
        = .ok (some (values.map (· &&& widthMask width))) := by
  refine ⟨_, packBits_eq hw out (by omega), length_leBytes .., ?_⟩
  have hat := mul_le_mul_right width (div_le_self values.length 8)
  rw [unpackBits_eq hw hw (le_refl _) (by rw [length_leBytes]; omega) fun _ => by omega]
  have hk : values.length * width ≤ 8 * ((values.length * width + 7) / 8) := by omega
  have hvalues := valuesFrom_leBytes hk []
  simp only [append_nil] at hvalues
  simp only [hvalues, and_widthMask hw]

/-- Two values of which the first is too wide. -/
theorem unpackBits_packBits_two : ∃ bytes, packBits [9, 2] 3 [7] = .ok ([7] ++ bytes) ∧
    bytes.length = 1 ∧ unpackBits 64 bytes 3 2 2 = .ok (some [1, 2]) :=
  unpackBits_packBits (by decide) (by decide) [7]

end Nanom.Columnar
