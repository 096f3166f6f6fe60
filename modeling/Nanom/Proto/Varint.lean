import Mathlib.Data.Nat.Size
import Nanom.Proto.Reader
import Nanom.Tagged.Skip

/-!
# Protobuf — varints

There are four readers of 64-bit varints: `uleb128`, the one of the Thrift
decoder, the one that skips there, and `read_varint` here. They read the same
varints (`varint_readers_agree`), so what is known of one is known of all.
-/

namespace Nanom.Proto

open Nat (size size_le)

open Nanom.Parser Nat Wire

theorem readVarintSlow_eq_ok {e : Tagged.Stop} {s : Bytes} {i v x : ℕ} {b rest : Bytes}
    (hi : i ≤ 9) : readVarintSlow i v b = .ok (x, rest) ↔
      Tagged.varintLoop e s i v b = .ok (x, rest) := by
  -- over the bytes: only the tenth is checked for more than its bits
  induction b generalizing i v with
  | nil =>
    rw [readVarintSlow, if_pos (by omega)]
    exact ⟨fun h => (by cases h), fun h => (by cases h)⟩
  | cons c b ih =>
    have hcont := and_0x80_eq_zero_iff c.toNat c.toNat_lt
    rw [readVarintSlow, Tagged.varintLoop, if_pos (by omega)]
    by_cases hbad : i = 9 ∧ 1 < c.toNat
    · obtain ⟨rfl, hc⟩ := hbad
      rw [if_pos ⟨rfl, hc⟩]
      by_cases hlast : c.toNat < 0x80
      · rw [if_pos hlast, if_pos ⟨rfl, hc⟩]
        exact ⟨fun h => (by cases h), fun h => (by cases h)⟩
      · rw [if_neg hlast]
        exact ⟨fun h => (by cases h), fun h => (by cases h)⟩
    · rw [if_neg hbad, if_neg hbad]
      by_cases hlast : c.toNat < 0x80
      · rw [if_pos (hcont.2 hlast), if_pos hlast]
        exact ⟨fun h => by cases h; rfl, fun h => by cases h; rfl⟩
      · rw [if_neg fun h => hlast (hcont.1 h), if_neg hlast, if_pos (by omega)]
        exact ih (by omega)

/-- **`read_varint` reads what Thrift's `varint` reads.** -/
theorem readVarint_iff {b rest : Bytes} {v : ℕ} :
    readVarint b = .ok (v, rest) ↔ Tagged.varint b = .ok (v, rest) := by
  rw [Tagged.varint_eq_ok, ← Tagged.varintLoop_zero_eq_ok (e := .undefined) (s := b),
    ← readVarintSlow_eq_ok (zero_le 9)]
  cases b with
  | nil => rw [readVarint]
  | cons c b =>
    rw [readVarint]
    by_cases hone : c.toNat &&& 0x80 = 0
    · -- one byte on the spot is what the first round of the loop reads
      have hlt := (and_0x80_eq_zero_iff c.toNat c.toNat_lt).1 hone
      have hval : 0 ||| u64 ((c.toNat &&& 0x7f) <<< (7 * 0)) = c.toNat := by
        rw [zero_or, shiftLeft_zero, and_0x7f, mod_eq_of_lt hlt,
          u64_of_lt (lt_trans c.toNat_lt (by decide))]
      rw [if_pos hone, readVarintSlow, if_pos (by decide), if_neg (by omega), if_pos hone, hval]
    · rw [if_neg hone]

theorem takes_readVarint : Takes 1 readVarint := Tagged.takes_varint.congr fun _ _ => readVarint_iff

theorem readVarint_uleb128Encode {v : ℕ} (hv : v < 2 ^ 64) (rest : Bytes) :
    readVarint (uleb128Encode v ++ rest) = .ok (v, rest) :=
  readVarint_iff.2 (Tagged.varint_uleb128Encode hv rest)

def varintSize (v : ℕ) : ℕ := (Nat.size (v ||| 1) + 6) / 7

theorem size_eq_add_seven {v : ℕ} (hv : 128 ≤ v) : size v = size (v / 128) + 7 := by
  have hbig : 7 < size v := lt_size.2 hv
  refine le_antisymm ?_ ?_
  · have hlt := lt_size_self (v / 128)
    refine size_le.2 ?_
    calc v < (v / 128 + 1) * 128 := by omega
      _ ≤ 2 ^ size (v / 128) * 128 := mul_le_mul_right 128 hlt
      _ = 2 ^ (size (v / 128) + 7) := (pow_add 2 _ 7).symm
  · have hlt := lt_size_self v
    have hsplit : 2 ^ size v = 2 ^ (size v - 7) * 128 := by
      rw [show (128 : ℕ) = 2 ^ 7 from rfl, ← pow_add, Nat.sub_add_cancel (Nat.le_of_lt hbig)]
    have hle : size (v / 128) ≤ size v - 7 :=
      size_le.2 (Nat.div_lt_of_lt_mul (by rw [mul_comm, ← hsplit]; exact hlt))
    omega

/-- **The bytes of a varint**: seven bits each, and one at least. -/
theorem length_uleb128Encode_eq (v : ℕ) : (uleb128Encode v).length = max 1 ((size v + 6) / 7) := by
  induction v using uleb128Encode.induct with
  | case1 v hlt =>
    have hsize : size v ≤ 7 := size_le.2 hlt
    rw [uleb128Encode, if_pos hlt, List.length_singleton]
    omega
  | case2 v hge ih =>
    have hge' : 128 ≤ v := not_lt.1 hge
    have hsize := size_eq_add_seven hge'
    have hpos : 0 < size (v / 128) := size_pos.2 (div_pos hge' (by decide))
    rw [uleb128Encode, if_neg hge, List.length_cons, ih, shiftRight_eq_div_pow,
      show (2 : ℕ) ^ 7 = 128 from rfl]
    omega

theorem size_or_one (v : ℕ) : size (v ||| 1) = max 1 (size v) := by
  by_cases hv : v = 0
  · subst hv
    rfl
  have hpos : 0 < size v := Nat.size_pos.2 (Nat.pos_of_ne_zero hv)
  have hone : 1 < 2 ^ size v := Nat.one_lt_two_pow (Nat.ne_of_gt hpos)
  have hle : size (v ||| 1) ≤ size v := size_le.2 (or_lt_two_pow (lt_size_self v) hone)
  have hge : size v ≤ size (v ||| 1) := size_le_size left_le_or
  omega

/-- `varint_size` is the size of the varint. -/
theorem varintSize_eq (v : ℕ) : varintSize v = (uleb128Encode v).length := by
  rw [varintSize, length_uleb128Encode_eq, size_or_one]
  omega

/-- **The readers of 64-bit varints agree**: they accept the same bytes, read
the same number from as many of them, and so does the one that skips. Each
reads what `uleb128_encode` writes, which is a byte for every seven bits and
one at least. -/
theorem varint_readers_agree (b rest : Bytes) (v : ℕ) :
    ((∃ k, varintU64 b = .ok (v, k) ∧ k ≤ b.length ∧ rest = b.drop k) ↔
      Tagged.varint b = .ok (v, rest)) ∧
    (readVarint b = .ok (v, rest) ↔ Tagged.varint b = .ok (v, rest)) ∧
    (Tagged.skipVarint b = .ok ((), rest) ↔ ∃ v, Tagged.varint b = .ok (v, rest)) ∧
    (v < 2 ^ 64 → varintU64 (uleb128Encode v ++ rest) = .ok (v, (uleb128Encode v).length) ∧
      Tagged.varint (uleb128Encode v ++ rest) = .ok (v, rest) ∧
      Tagged.skipVarint (uleb128Encode v ++ rest) = .ok ((), rest) ∧
      readVarint (uleb128Encode v ++ rest) = .ok (v, rest) ∧
      (uleb128Encode v).length = max 1 ((Nat.size v + 6) / 7)) := by
  refine ⟨?_, readVarint_iff, Tagged.skipVarint_eq_ok, ?_⟩
  · rw [Tagged.varint_eq_ok]
    constructor
    · rintro ⟨k, hk, -, rfl⟩
      exact ⟨k, (readUleb128_refines 64 (by decide) b).ok_iff.1 hk, rfl⟩
    · rintro ⟨k, hk, rfl⟩
      exact ⟨k, readUleb128_of_varint (by decide) hk, (varint_bounds hk).2, rfl⟩
  · intro hv
    have hread := Tagged.varint_uleb128Encode hv rest
    exact ⟨varintU64_uleb128Encode hv rest, hread, Tagged.skipVarint_eq_ok.2 ⟨v, hread⟩,
      readVarint_iff.2 hread, length_uleb128Encode_eq v⟩

/-- Two bytes, with another behind them. -/
theorem varint_readers_agree_two_bytes :
    uleb128Encode 300 = [0xac, 0x02] ∧ readVarint ([0xac, 0x02] ++ [7]) = .ok (300, [7]) := by
  have henc : uleb128Encode 300 = [0xac, 0x02] := by decide +kernel
  have hread := ((varint_readers_agree [] [7] 300).2.2.2 (by decide)).2.2.2.1
  rw [henc] at hread
  exact ⟨henc, hread⟩

end Nanom.Proto
