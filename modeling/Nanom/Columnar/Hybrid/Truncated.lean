import Nanom.Columnar.Hybrid.RoundTrip

/-!
# Columnar pages — a packed run that is cut short

The last packed run of a stream may be shorter than its header says, and then
yields the values that are there. The header's number of groups is turned into
values in 64 bits, so a great one can come out smaller than what is there:
`truncated_iff` says when it does not.
-/

namespace Nanom.Columnar

open List RleBpDecoder

variable {data : Bytes} {width h used : ℕ}

/-- However many are asked for, `get` delivers the whole values that the bytes
`rest` hold, and no others. -/
def YieldsWhole (data rest : Bytes) (width : ℕ) : Prop :=
  ∀ n, ∃ t, get n (start data width) = .ok t ∧
    t.out = (valuesFrom rest width 0 (8 * rest.length / width)).take n

theorem stream_truncated (hw : 1 ≤ width ∧ width ≤ 32)
    (hread : Wire.varintU64 data = .ok (h, used)) (hodd : h % 2 = 1)
    (hshort : (data.drop used).length < (h >>> 1) * width) (hlen : data.length * 32 < 2 ^ 64) :
    (stream (start data width)).1 = valuesFrom (data.drop used) width 0
      (min (u64 ((h >>> 1) * 8)) (8 * (data.drop used).length / width)) := by
  have hused := Wire.readUleb128_used (by decide) hread
  set rest := data.drop used with hrest
  have hle : rest.length ≤ data.length := by rw [hrest, length_drop]; omega
  have hmul : rest.length * width ≤ rest.length * 32 := Nat.mul_le_mul_left _ hw.2
  have hge : rest.length ≤ rest.length * width := Nat.le_mul_of_pos_right _ hw.1
  -- all bytes that are there are the run's
  have hrun : min (u64 (if rest.length < h >>> 1 then rest.length * width else h >>> 1 * width))
      rest.length = rest.length := by
    split
    · rw [u64_of_lt (by omega), min_eq_right hge]
    · have hgroups : h >>> 1 * width ≤ rest.length * width := Nat.mul_le_mul_right _ (by omega)
      rw [u64_of_lt (by omega), min_eq_right hshort.le]
  set count := min (u64 (h >>> 1 * 8)) (8 * rest.length / width) with hcount
  have hnext : nextRun (between width data)
      = ({ between width [] with bp := rest, bpLeft := count }, true) := by
    have hne : data ≠ [] := by
      rintro rfl
      cases hread
    have hbit : h &&& 1 ≠ 0 := by rw [Nat.and_one_is_mod]; omega
    rw [nextRun, between, if_neg hne]
    dsimp only
    rw [hread]
    dsimp only
    rw [if_pos hbit, packedRun]
    dsimp only
    rw [← hrest, hrun, if_pos (by omega), take_length, drop_length, u64_of_lt (n := rest.length * 8)
      (by omega), mul_comm rest.length]
    rfl
  rw [stream_of_ok (decide_eq_true hw.2)]
  show [] ++ (runs width data).1 = _
  rw [runs_of_nextRun hnext]
  show valuesFrom rest width 0 count ++ (runs width []).1 = _
  rw [runs_nil, append_nil]

/-- **Where a run that is cut short yields what is there**: the values its header
counts, modulo `2 ^ 64`, are no fewer. -/
theorem truncated_iff (hw : 1 ≤ width ∧ width ≤ 32)
    (hread : Wire.varintU64 data = .ok (h, used)) (hodd : h % 2 = 1)
    (hshort : (data.drop used).length < (h >>> 1) * width) (hlen : data.length * 32 < 2 ^ 64) :
    YieldsWhole data (data.drop used) width ↔
      8 * (data.drop used).length / width ≤ (h >>> 1) * 8 % 2 ^ 64 := by
  have hstream := stream_truncated hw hread hodd hshort hlen
  have hget := fun n => get_spec (start_fits data hw.2) n
  constructor
  · intro h
    obtain ⟨t, ht, hout⟩ := h (8 * (data.drop used).length / width)
    obtain ⟨t', ht', hgets⟩ := hget (8 * (data.drop used).length / width)
    cases ht.symm.trans ht'
    have hcount := congrArg length (hout.symm.trans hgets.out_eq)
    rw [hstream, length_take, length_take, length_valuesFrom, length_valuesFrom, u64] at hcount
    omega
  · intro hle n
    obtain ⟨t, ht, hgets⟩ := hget n
    refine ⟨t, ht, ?_⟩
    rw [hgets.out_eq, hstream, u64, min_eq_right hle]

/-- One of two groups, of four bits a value. -/
theorem truncated_iff_one : YieldsWhole [0x05, 0x21] ([0x05, 0x21].drop 1) 4 :=
  (truncated_iff (h := 5) (by decide) rfl rfl (by decide) (by decide)).2 (by decide)

/-- Two values of four bits under a header of `2 ^ 61` groups. -/
theorem wrapped_header_yields_none :
    (get 2 (start [0x81, 0x80, 0x80, 0x80, 0x80, 0x80, 0x80, 0x80, 0x40, 0x21] 4)).toOption.map
      Taken.out = some [] ∧ valuesFrom [0x21] 4 0 2 = [1, 2] := by
  decide +kernel

end Nanom.Columnar
