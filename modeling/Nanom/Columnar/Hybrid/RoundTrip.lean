import Mathlib.Data.List.TakeWhile
import Nanom.Columnar.Hybrid.Stream

/-!
# Columnar pages — the hybrid's round trip

Bytes `Decode` to values if the runs in front of any others are those values. A
literal of whole groups does, a repeated value does, and the encoder keeps what
it has written so: it writes a literal only when it has whole groups, of values
it has passed (`HybridEncoder.Holds`).
-/

namespace Nanom.Columnar

open Loop RleBpDecoder List Nat Wire

variable {width : ℕ} {values : List ℕ}

/-! ## Runs -/

/-- The runs of the bytes are the values, whatever runs follow. -/
def Decodes (width : ℕ) (bytes : Bytes) (values : List ℕ) : Prop :=
  ∀ rest, runs width (bytes ++ rest) = (values ++ (runs width rest).1, (runs width rest).2)

theorem decodes_nil : Decodes width [] [] := fun _ => rfl

theorem Decodes.append {a b : Bytes} {vs us : List ℕ} (ha : Decodes width a vs)
    (hb : Decodes width b us) : Decodes width (a ++ b) (vs ++ us) := by
  intro rest
  rw [append_assoc, ha, hb, append_assoc]

theorem runs_nil : runs width [] = ([], true) := by
  rw [runs]
  rfl

theorem runs_of_nextRun {p : Bytes} {d : RleBpDecoder} (h : nextRun (between width p) = (d, true)) :
    runs width p = (d.pending ++ (runs width d.p).1, (runs width d.p).2) := by
  rw [runs, dif_pos (by rw [h]), h]

theorem nextRun_header (width : ℕ) {h : ℕ} (hh : h < 2 ^ 64) (rest : Bytes) :
    nextRun (between width (uleb128Encode h ++ rest))
      = if h &&& 1 ≠ 0 then ((between width rest).packedRun h, true)
        else (between width rest).rleRun h := by
  have hpos := (length_uleb128Encode (k := 10) (by decide)
    (lt_trans hh (Nat.pow_lt_pow_right (by decide) (by decide)))).1
  have hne : uleb128Encode h ++ rest ≠ [] :=
    append_ne_nil_of_left_ne_nil (length_pos_iff.1 hpos) rest
  unfold nextRun between
  rw [if_neg hne, varintU64_uleb128Encode hh]
  dsimp only
  rw [drop_left]

/-- **Whole groups of packed values.** -/
theorem decodes_literal {groups : ℕ} (hw : width ≤ 32) (hlen : values.length = groups * 8)
    (hgroups : groups * 8 ≤ 2 ^ 40) (hlt : ∀ v ∈ values, v < 2 ^ width) :
    Decodes width (uleb128Encode (u64 (groups <<< 1) ||| 1)
      ++ leBytes (groups * width) (packed width values)) values := by
  intro rest
  have hshift : u64 (groups <<< 1) ||| 1 = 2 * groups + 1 := by
    rw [shiftLeft_eq, u64_of_lt (by omega), mul_comm groups]
    exact (two_pow_add_eq_or_of_lt (i := 1) (b := 1) (by decide) groups).symm
  have hodd : (2 * groups + 1) &&& 1 ≠ 0 := by rw [and_one_is_mod]; omega
  have hhalf : (2 * groups + 1) >>> 1 = groups := by omega
  have hmul : groups * width ≤ groups * 32 := mul_le_mul_left _ hw
  -- the run is as long as its header says
  have hrun : (between width (leBytes (groups * width) (packed width values) ++ rest)).packedRun
      (2 * groups + 1)
      = { p := rest, width, ok := true, bpLeft := groups * 8
          bp := leBytes (groups * width) (packed width values) } := by
    have hbytes : (leBytes (groups * width) (packed width values) ++ rest).length
        = groups * width + rest.length := by
      rw [length_append, length_leBytes]
    unfold packedRun between
    dsimp only
    rw [hhalf, hbytes]
    have hwant : u64 (if groups * width + rest.length < groups then
        (groups * width + rest.length) * width else groups * width) = groups * width := by
      rcases Nat.eq_zero_or_pos width with rfl | hpos
      · rw [mul_zero, mul_zero, ite_self]
        rfl
      · have hge : groups ≤ groups * width := Nat.le_mul_of_pos_right groups hpos
        rw [if_neg (by omega), u64_of_lt (by omega)]
    have hleft : (if width ≠ 0 then min (u64 (groups * 8)) (u64 (groups * width * 8) / width)
        else min (u64 (groups * 8)) (1 <<< 40)) = groups * 8 := by
      rw [u64_of_lt (show groups * 8 < 2 ^ 64 by omega)]
      split
      · rename_i hne
        rw [u64_of_lt (by omega), mul_right_comm,
          Nat.mul_div_cancel _ (Nat.pos_of_ne_zero hne), Nat.min_self]
      · exact min_eq_left hgroups
    have hmin : min (groups * width) (groups * width + rest.length) = groups * width := by omega
    rw [hwant, hmin, hleft, take_left' (length_leBytes _ _), drop_left' (length_leBytes _ _)]
  have hpending := valuesFrom_packed (k := groups * width) hlt
    (by rw [hlen, mul_right_comm, mul_comm]) []
  rw [append_nil, hlen] at hpending
  rw [append_assoc, hshift]
  have hnext := nextRun_header width (show 2 * groups + 1 < 2 ^ 64 by omega)
    (leBytes (groups * width) (packed width values) ++ rest)
  rw [if_pos hodd, hrun] at hnext
  rw [runs_of_nextRun hnext, pending]
  rw [hpending]
  rfl

/-- **A repeated value.** -/
theorem decodes_rle (count : ℕ) {value : ℕ} (hcount : count ≤ 2 ^ 40) (hlt : value < 2 ^ width) :
    Decodes width (uleb128Encode (u64 (count <<< 1)) ++ leBytes ((width + 7) / 8) value)
      (replicate count value) := by
  intro rest
  have hshift : u64 (count <<< 1) = 2 * count := by
    rw [shiftLeft_eq, u64_of_lt (by omega), mul_comm count]
  have heven : ¬ (2 * count &&& 1 ≠ 0) := by rw [and_one_is_mod]; omega
  have hhalf : (2 * count) >>> 1 = count := by omega
  have hvalue : leNat (leBytes ((width + 7) / 8) value) = value := by
    rw [leNat_leBytes, ← two_pow_eight_mul]
    refine mod_eq_of_lt (lt_of_lt_of_le hlt (Nat.pow_le_pow_right (by decide) ?_))
    omega
  have hmin : min count (1 <<< 40) = count := min_eq_left hcount
  have hrun : (between width (leBytes ((width + 7) / 8) value ++ rest)).rleRun (2 * count)
      = ({ p := rest, width, ok := true, rleValue := value, rleLeft := count }, true) := by
    unfold rleRun between
    dsimp only
    rw [hhalf, take_left' (length_leBytes _ _), drop_left' (length_leBytes _ _), hvalue,
      shiftRight_eq_div_pow, div_eq_of_lt hlt, if_neg (by simp), if_neg (by simp),
      hmin]
  rw [append_assoc, hshift]
  have hnext := nextRun_header width (show 2 * count < 2 ^ 64 by omega)
    (leBytes ((width + 7) / 8) value ++ rest)
  rw [if_neg heven, hrun] at hnext
  rw [runs_of_nextRun hnext]
  show (replicate count value ++ [] ++ (runs width rest).1, _) = _
  rw [append_nil]

/-! ## The encoder -/

namespace HybridEncoder

variable {out₀ : Bytes} {s : HybridEncoder}

/-- What is written decodes to values. -/
def Wrote (width : ℕ) (out₀ : Bytes) (s : HybridEncoder) (vs : List ℕ) : Prop :=
  ∃ bytes, s.out = out₀ ++ bytes ∧ Decodes width bytes vs

/-- What encoding keeps: the literal not yet written ends where the
encoder is, and what is written decodes to the values before it. -/
structure Holds (values : List ℕ) (width : ℕ) (out₀ : Bytes) (s : HybridEncoder) : Prop where
  wrote : s.Wrote width out₀ (values.take s.litBegin)
  begin_le : s.litBegin ≤ s.litEnd
  end_eq : s.litEnd = s.i
  i_le : s.i ≤ values.length

theorem take_append_subspan {a b : ℕ} (h : a ≤ b) :
    values.take a ++ subspan values a (b - a) = values.take b := by
  rw [subspan, ← take_add, Nat.add_sub_cancel' h]

section Step

variable (hw : width ≤ 32) (hlen : values.length < 2 ^ 40) (hlt : ∀ v ∈ values, v < 2 ^ width)

include hw hlen hlt

/-- A literal is written as whole groups, with zeros behind it if need
be. -/
theorem flushLiteral_spec (last : Bool) (hs : s.Wrote width out₀ (values.take s.litBegin))
    (hle : s.litBegin ≤ s.litEnd) (hend : s.litEnd ≤ values.length)
    (hgroup : last = false → (s.litEnd - s.litBegin) % 8 = 0) :
    ∃ s' pad, s.flushLiteral values width last = .ok s' ∧ s'.i = s.i ∧ s'.litEnd = s.litEnd ∧
      s'.Wrote width out₀ (values.take s.litEnd ++ pad) ∧ (last = false → pad = []) := by
  obtain ⟨bytes, hout, hbytes⟩ := hs
  unfold flushLiteral
  dsimp only
  by_cases hcount : s.litEnd - s.litBegin = 0
  · have heq : s.litBegin = s.litEnd := by omega
    rw [if_pos hcount]
    refine ⟨s, [], rfl, rfl, rfl, ⟨bytes, hout, ?_⟩, fun _ => rfl⟩
    rw [append_nil, ← heq]
    exact hbytes
  rw [if_neg hcount]
  set count := s.litEnd - s.litBegin with hcountEq
  set groups := (count + 7) / 8 with hgroups
  -- both ways the literal is filled up to whole groups
  have hfill : (if count % 8 = 0 ∨ last = false then subspan values s.litBegin count
        else subspan values s.litBegin count ++ replicate (groups * 8 - count) 0)
      = subspan values s.litBegin count ++ replicate (groups * 8 - count) 0 := by
    split
    · rename_i hfull
      have hzero : groups * 8 - count = 0 := by
        rcases hfull with hmod | hlast
        · omega
        · have := hgroup hlast
          omega
      rw [hzero, replicate_zero, append_nil]
    · rfl
  set pad := replicate (groups * 8 - count) 0 with hpad
  set literal := subspan values s.litBegin count ++ pad with hliteral
  have hlenLit : literal.length = groups * 8 := by
    rw [length_append, length_subspan (by omega), hpad, length_replicate]
    omega
  have hltLit : ∀ v ∈ literal, v < 2 ^ width := by
    intro v hv
    rcases mem_append.1 hv with hv | hv
    · exact hlt v (mem_of_mem_drop (mem_of_mem_take hv))
    · rw [eq_of_mem_replicate hv]
      exact Nat.two_pow_pos width
  have hmul : groups * 8 * width ≤ groups * 8 * 32 := mul_le_mul_left _ hw
  have hbits : (groups * 8 * width + 7) / 8 = groups * width := by rw [mul_right_comm]; omega
  rw [hfill, packBits_eq (by omega) _ (by rw [hlenLit]; omega), hlenLit, hbits, ok_bind]
  refine ⟨_, pad, rfl, rfl, rfl, ⟨bytes ++ (uleb128Encode (u64 (groups <<< 1) ||| 1)
    ++ leBytes (groups * width) (packed width literal)), ?_, ?_⟩, fun hlast => ?_⟩
  · rw [hout, append_assoc, append_assoc]
  · have hall := hbytes.append (decodes_literal hw hlenLit (by omega) hltLit)
    have hsplit : values.take s.litBegin ++ literal = values.take s.litEnd ++ pad := by
      rw [← append_assoc, take_append_subspan hle]
    rw [hsplit] at hall
    exact hall
  · have hmod := hgroup hlast
    rw [hpad, show groups * 8 - count = 0 by omega, replicate_zero]

omit hw hlen hlt in
theorem runEnd_spec {i : ℕ} (hi : i < values.length) :
    i < runEnd values i ∧ runEnd values i ≤ values.length ∧
      ∀ k, i ≤ k → subspan values k (runEnd values i - k)
        = replicate (runEnd values i - k) values[i] := by
  set same := (values.drop (i + 1)).takeWhile fun v => values[i]? = some v with hsame
  have hpre : same <+: values.drop (i + 1) := takeWhile_prefix _
  have hle := hpre.length_le
  rw [length_drop] at hle
  have hend : runEnd values i = i + 1 + same.length := rfl
  have hall : same = replicate same.length values[i] := by
    refine eq_replicate_iff.2 ⟨rfl, fun v hv => ?_⟩
    have hkept := mem_takeWhile_imp (p := fun v => decide (values[i]? = some v)) hv
    have heq := of_decide_eq_true hkept
    rw [getElem?_eq_getElem hi] at heq
    exact (Option.some.inj heq).symm
  -- the whole run, and then what is left of it from `k` on
  have hrun : subspan values i (1 + same.length) = replicate (1 + same.length) values[i] := by
    rw [subspan, drop_eq_getElem_cons hi, add_comm 1, take_succ_cons,
      ← prefix_iff_eq_take.1 hpre, replicate_succ, ← hall]
  refine ⟨by omega, by omega, fun k hk => ?_⟩
  have hdrop := congrArg (drop (k - i)) hrun
  rw [subspan, drop_take, drop_drop, Nat.add_sub_cancel' hk, drop_replicate] at hdrop
  rw [show runEnd values i - k = 1 + same.length - (k - i) by omega]
  exact hdrop

omit hw hlen hlt in
theorem steal_spec (s : HybridEncoder) (h : s.litBegin ≤ s.litEnd) :
    s.steal < 8 ∧ (s.litEnd + s.steal - s.litBegin) % 8 = 0 := by
  unfold steal
  dsimp only
  split
  · constructor
    · omega
    · omega
  · constructor
    · omega
    · omega

theorem encodeRle_spec {j : ℕ} (hs : s.Wrote width out₀ (values.take s.litBegin))
    (hle : s.litBegin ≤ s.litEnd) (hend : s.litEnd = s.i) (hj : s.i < j)
    (hjlen : j ≤ values.length) (hgroup : (s.litEnd - s.litBegin) % 8 = 0)
    (hi : s.i < values.length)
    (hrun : subspan values s.i (j - s.i) = replicate (j - s.i) values[s.i]) :
    ∃ s', s.encodeRle values width j = .ok s' ∧ s'.Holds values width out₀ ∧ s'.i = j := by
  obtain ⟨s₁, pad, hflush, hi₁, -, ⟨bytes, hout, hbytes⟩, hpad⟩ :=
    flushLiteral_spec hw hlen hlt false hs hle (by omega) fun _ => hgroup
  rw [hpad rfl, append_nil, hend] at hbytes
  have hvalue := hlt _ (getElem_mem hi)
  have hall := hbytes.append (decodes_rle (j - s.i) (by omega) hvalue)
  rw [← hrun, take_append_subspan (le_of_lt hj)] at hall
  rw [encodeRle, hflush, ok_bind, hi₁, getElem?_eq_getElem hi]
  refine ⟨_, rfl, ⟨⟨_, ?_, hall⟩, le_refl j, rfl, hjlen⟩, rfl⟩
  rw [hout, append_assoc, append_assoc]

/-- **A round of the encoder.** -/
theorem Holds.encodeRun (hs : s.Holds values width out₀) (hi : s.i < values.length) :
    ∃ s', s.encodeRun values width = .ok s' ∧ s'.Holds values width out₀ ∧
      values.length - s'.i < values.length - s.i := by
  have hbegin := hs.begin_le
  have hend := hs.end_eq
  obtain ⟨hj, hjlen, hrun⟩ := runEnd_spec hi
  obtain ⟨hsteal, hgroup⟩ := steal_spec s hbegin
  unfold HybridEncoder.encodeRun
  generalize runEnd values s.i = j at hj hjlen hrun ⊢
  by_cases hlong : 8 ≤ j - s.i
  · rw [if_pos hlong]
    by_cases hstill : 8 ≤ j - s.i - s.steal
    · have hi' : s.i + s.steal < values.length := by omega
      have hrun' := hrun (s.i + s.steal) (le_add_right _ _)
      -- the values taken from the run are the run's
      have hsame : values[s.i + s.steal] = values[s.i] := by
        have hfirst := congrArg (fun l => l[0]?) hrun'
        rw [getElem?_subspan, if_pos (by omega), add_zero, getElem?_eq_getElem hi',
          getElem?_replicate, if_pos (by omega)] at hfirst
        exact Option.some.inj hfirst
      rw [if_pos hstill]
      obtain ⟨s', hstep, hholds, hj'⟩ := encodeRle_spec hw hlen hlt (j := j)
        (s := { s with litEnd := s.litEnd + s.steal, i := s.i + s.steal }) hs.wrote
        (show s.litBegin ≤ s.litEnd + s.steal by omega)
        (show s.litEnd + s.steal = s.i + s.steal by omega) (show s.i + s.steal < j by omega) hjlen
        hgroup hi' (by rw [hsame]; exact hrun')
      exact ⟨s', hstep, hholds, by omega⟩
    · rw [if_neg hstill]
      refine ⟨_, rfl, ⟨hs.wrote, ?_, rfl, hjlen⟩, ?_⟩
      · show s.litBegin ≤ j
        omega
      · show values.length - j < values.length - s.i
        omega
  · rw [if_neg hlong]
    have hsame : (if s.litBegin = s.litEnd then s.i else s.litBegin) = s.litBegin := by
      split <;> omega
    rw [hsame]
    refine ⟨_, rfl, ⟨hs.wrote, ?_, rfl, hjlen⟩, ?_⟩
    · show s.litBegin ≤ j
      omega
    · show values.length - j < values.length - s.i
      omega

end Step

end HybridEncoder

/-- **The encoder writes the values**, with zeros behind them that fill
the last group. -/
theorem rleHybridEncode_decodes (hw : width ≤ 32) (hlen : values.length < 2 ^ 40)
    (hlt : ∀ v ∈ values, v < 2 ^ width) (out : Bytes) :
    ∃ bytes pad, rleHybridEncode values width out = .ok (out ++ bytes) ∧
      Decodes width bytes (values ++ pad) := by
  have hstart : HybridEncoder.Holds values width out ⟨0, 0, 0, out⟩ :=
    ⟨⟨[], (append_nil out).symm, decodes_nil⟩, le_refl 0, rfl, zero_le _⟩
  obtain ⟨s, hrun, hs, hend⟩ := repeatWhile_inv Fault.unfinished
    (c := fun s : HybridEncoder => decide (s.i < values.length)) (fun s => values.length - s.i)
    (fun s hs hi => hs.encodeRun hw hlen hlt (of_decide_eq_true hi)) hstart
    (show values.length - 0 < values.length + 1 by omega)
  have hall : values.length ≤ s.i := Nat.le_of_not_lt (of_decide_eq_false hend)
  have hle := hs.i_le
  obtain ⟨s', pad, hflush, -, -, ⟨bytes, hout, hbytes⟩, -⟩ :=
    HybridEncoder.flushLiteral_spec hw hlen hlt true hs.wrote hs.begin_le
      (by rw [hs.end_eq]; exact hle) (fun h => by cases h)
  rw [hs.end_eq, take_of_length_le hall] at hbytes
  refine ⟨bytes, pad, ?_, hbytes⟩
  rw [rleHybridEncode, hrun, ok_bind, hflush, ← hout]
  rfl

/-- **The round trip**: one `get` of as many values as there are gives
them back, and the decoder has seen no error. -/
theorem get_rleHybridEncode (hw : width ≤ 32) (hlen : values.length < 2 ^ 40)
    (hlt : ∀ v ∈ values, v < 2 ^ width) (out : Bytes) :
    ∃ bytes t, rleHybridEncode values width out = .ok (out ++ bytes) ∧
      get values.length (start bytes width) = .ok t ∧ t.out = values ∧ t.d.ok = true := by
  obtain ⟨bytes, pad, hencode, hdecodes⟩ := rleHybridEncode_decodes hw hlen hlt out
  obtain ⟨t, hget, ht⟩ := get_spec (start_fits bytes hw) values.length
  -- the stream of the bytes is the values and the padding, with no error behind them
  have hruns := hdecodes []
  rw [append_nil, runs_nil, append_nil] at hruns
  have hstream : stream (start bytes width) = (values ++ pad, true) := by
    rw [stream_of_ok (decide_eq_true hw)]
    show ([] ++ (runs width bytes).1, (runs width bytes).2) = _
    rw [hruns]
    rfl
  refine ⟨bytes, t, hencode, hget, ?_, ?_⟩
  · rw [ht.out_eq, hstream, take_left]
  · have hok := congrArg Prod.snd ht.delivers.stream
    rcases hbad : t.d.ok with - | -
    · rw [hstream, stream_of_not_ok hbad] at hok
      cases hok
    · rfl

/-- A literal that takes five values of a run, the rest of the run, and a
padded group. -/
theorem get_rleHybridEncode_steal : ∃ bytes t,
    rleHybridEncode [1, 2, 3, 5, 5, 5, 5, 5, 5, 5, 5, 5, 5, 5, 5, 5, 5, 7] 3 []
        = .ok ([] ++ bytes) ∧
      get 18 (start bytes 3) = .ok t ∧
      t.out = [1, 2, 3, 5, 5, 5, 5, 5, 5, 5, 5, 5, 5, 5, 5, 5, 5, 7] ∧ t.d.ok = true :=
  get_rleHybridEncode (by decide) (by decide) (by decide) []

end Nanom.Columnar
