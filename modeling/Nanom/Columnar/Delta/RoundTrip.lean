import Nanom.Columnar.Delta.Model

/-!
# Columnar pages — DELTA_BINARY_PACKED is read back

The decoder is `At` a position of the list if it has given the values before it.
A value goes on to the next position if what is unpacked is the difference less
the least one, a miniblock by its values (`readMini_spec`), a block by its
miniblocks (`readBlock_spec`), and the loop by the blocks that the encoder
writes (`deltaBinaryPackedEncode_eq`).
-/

namespace Nanom.Columnar

open BitVec (isLt ofNat ofNat_toNat setWidth_eq toNat)

open Loop List Wire Nat

variable {rest : Bytes}
variable {w n : ℕ} {values : List (BitVec w)}

/-! ## Varints -/

theorem rd_uleb128Encode {v : ℕ} (hv : v < 2 ^ 64) (rest : Bytes) :
    rd (uleb128Encode v ++ rest) = .ok (v, rest) := by
  rw [rd, varintU64_uleb128Encode hv]
  dsimp only
  rw [drop_left]

theorem rd_zigzagBytes (hw : w ≤ 64) (v : BitVec w) (rest : Bytes) :
    ∃ zz, rd (zigzagBytes v ++ rest) = .ok (zz, rest) ∧
      (zigzagDecode (ofNat 64 zz)).setWidth w = v := by
  refine ⟨_, rd_uleb128Encode (isLt _) rest, ?_⟩
  rw [ofNat_toNat, setWidth_eq, zigzagDecode_zigzagEncode (by decide)]
  ext i hi
  rw [BitVec.getElem_setWidth, BitVec.getLsbD_signExtend]
  simp [show i < 64 by omega, hi]

/-! ## Values -/

/-- The difference at a position of the list. -/
def deltaAt (values : List (BitVec w)) (p : ℕ) : BitVec w :=
  values.getD p 0 - values.getD (p - 1) 0

/-- The decoder has given the values before `p`. -/
structure DeltaReader.At (values : List (BitVec w)) (p : ℕ) (s : DeltaReader w) : Prop where
  pos : 0 < p
  le : p ≤ values.length
  out : s.out = values.take p
  last : s.last = values.getD (p - 1) 0

namespace DeltaReader.At

variable {s : DeltaReader w} {p : ℕ}

theorem length_out (h : s.At values p) : s.out.length = p := by
  rw [h.out, length_take]
  exact min_eq_left h.le

theorem addDelta (h : s.At values p) (hp : p < values.length) {minDelta : BitVec w} {u : ℕ}
    (hu : ofNat w u = deltaAt values p - minDelta) : (addDelta minDelta s u).At values (p + 1) := by
  have hnext : s.last + minDelta + ofNat w u = values.getD p 0 := by rw [hu, h.last, deltaAt]; grind
  refine ⟨succ_pos p, hp, ?_, hnext⟩
  show s.out ++ [s.last + minDelta + ofNat w u] = _
  rw [hnext, h.out, take_add_one, getD_eq_getElem?_getD, getElem?_eq_getElem hp]
  rfl

theorem foldl_addDelta (h : s.At values p) (minDelta : BitVec w) {us : List ℕ}
    (hp : p + us.length ≤ values.length)
    (hus : ∀ i u, us[i]? = some u → ofNat w u = deltaAt values (p + i) - minDelta) :
    (us.foldl (Columnar.addDelta minDelta) s).At values (p + us.length) := by
  induction us generalizing s p with
  | nil => exact h
  | cons u us ih =>
    rw [length_cons] at hp
    have hstep := h.addDelta (show p < values.length by omega) (hus 0 u rfl)
    have hrest := ih hstep (by omega) fun i v hv => by
      have hget := hus (i + 1) v (by rw [getElem?_cons_succ]; exact hv)
      rw [add_right_comm]
      exact hget
    rw [length_cons, add_comm us.length, ← add_assoc]
    exact hrest

end DeltaReader.At

/-! ## Miniblocks -/

/-- The bytes of a miniblock. -/
def miniBytes (adjusted : List (BitVec w)) (used m : ℕ) : Bytes :=
  leBytes (4 * miniWidth adjusted used m)
    (packed (miniWidth adjusted used m) ((miniValues adjusted m).map BitVec.toNat))

theorem toNat_lt_two_pow_size (l : List (BitVec w)) {v : BitVec w} (hv : v ∈ l) :
    v.toNat < 2 ^ (l.foldl (· ||| ·) 0#w).toNat.size := by
  have hle : ∀ (l : List (BitVec w)) (a : BitVec w), a.toNat ≤ (l.foldl (· ||| ·) a).toNat ∧
      ∀ v ∈ l, v.toNat ≤ (l.foldl (· ||| ·) a).toNat := by
    intro l
    induction l with
    | nil => exact fun a => ⟨le_refl _, fun v hv => absurd hv not_mem_nil⟩
    | cons b l ih =>
      intro a
      obtain ⟨hacc, hmem⟩ := ih (a ||| b)
      refine ⟨le_trans left_le_or hacc, fun v hv => ?_⟩
      rcases mem_cons.1 hv with rfl | hv
      · exact le_trans right_le_or hacc
      · exact hmem v hv
  exact lt_of_le_of_lt ((hle l 0#w).2 v hv) (lt_size_self _)

theorem miniWidth_le (adjusted : List (BitVec w)) (used m : ℕ) : miniWidth adjusted used m ≤ w := by
  rw [miniWidth]
  split
  · exact size_le.2 (isLt _)
  · exact zero_le w

variable (minDelta : BitVec w)

theorem foldl_addDelta_cur (us : List ℕ) (s : DeltaReader w) :
    (us.foldl (addDelta minDelta) s).cur = s.cur := by
  induction us generalizing s with
  | nil => rfl
  | cons u us ih => rw [foldl_cons, ih]; rfl

theorem readMini_eq {s : DeltaReader w} {width : ℕ} {us : List ℕ}
    (hw : w ≤ 64) (hwidth : width ≤ w) (hlen : us.length = 32)
    (hfit : ∀ u ∈ us, u < 2 ^ width) (hcur : s.cur = leBytes (4 * width) (packed width us) ++ rest)
    (hn : s.out.length < n) :
    readMini n 32 minDelta width s = .ok
      { (us.take (min 32 (n - s.out.length))).foldl (addDelta minDelta) s with cur := rest } := by
  unfold readMini
  set need := min 32 (n - s.out.length) with hneed
  have hmul : need * width ≤ 32 * width := mul_le_mul_right width (min_le_left _ _)
  have hcurLen : s.cur.length = 4 * width + rest.length := by
    rw [hcur, length_append, length_leBytes]
  have hunpack : unpackBits 64 s.cur width need need = .ok (some (us.take need)) := by
    have hall := valuesFrom_packed (k := 4 * width) hfit (by rw [hlen]; omega) rest
    rw [← hcur, hlen] at hall
    have hat := mul_le_mul_right width (div_le_self need 8)
    rw [unpackBits_eq (by omega) (by omega) (le_refl _) (by omega) fun _ => by omega,
      ← take_valuesFrom _ _ _ (show need ≤ 32 from min_le_left _ _), hall]
  -- the values asked for are one chunk
  have hchunk : readChunk minDelta width need (0, s)
      = .ok (need, (us.take need).foldl (addDelta minDelta) s) := by
    unfold readChunk
    dsimp only
    rw [Nat.sub_zero, Nat.min_eq_right (show need ≤ 1024 by omega), Nat.zero_mul, drop_zero,
      hunpack, zero_add]
    rfl
  have hloop := repeatWhile_once (DeltaStop.fault .unfinished)
    (c := fun c : ℕ × DeltaReader w => decide (c.1 < need)) (k := need)
    (decide_eq_true (show 0 < need by omega)) hchunk (decide_eq_false (lt_irrefl need))
    (by omega)
  rw [if_neg (by omega), if_neg (by omega), hloop, ok_bind]
  dsimp only
  have hbytes : min (32 * width / 8) s.cur.length = 4 * width := by omega
  rw [foldl_addDelta_cur, hbytes, hcur, drop_left' (length_leBytes _ _)]
  rfl

/-- **A miniblock** goes on by its values. -/
theorem readMini_spec {s : DeltaReader w} {p m used : ℕ}
    {adjusted : List (BitVec w)} (hw : w ≤ 64) (hs : s.At values p)
    (hcur : s.cur = miniBytes adjusted used m ++ rest) (hm : m < used)
    (hlen : adjusted.length = 128) (hused : used ≤ 4) (hn : n ≤ values.length) (hp : p < n)
    (hadj : ∀ i < min 32 (n - p),
      adjusted[m * 32 + i]? = some (deltaAt values (p + i) - minDelta)) :
    ∃ s', readMini n 32 minDelta (miniWidth adjusted used m) s = .ok s' ∧
      s'.At values (p + min 32 (n - p)) ∧ s'.cur = rest := by
  have hout := hs.length_out
  have hvalues : ((miniValues adjusted m).map toNat).length = 32 := by
    rw [length_map]
    exact length_subspan (by omega)
  have hfit : ∀ v ∈ (miniValues adjusted m).map toNat,
      v < 2 ^ miniWidth adjusted used m := by
    intro v hv
    obtain ⟨b, hb, rfl⟩ := mem_map.1 hv
    rw [miniWidth, if_pos hm]
    exact toNat_lt_two_pow_size _ hb
  have hread := readMini_eq minDelta (n := n) hw (miniWidth_le adjusted used m)
    hvalues hfit hcur (by omega)
  rw [hout] at hread
  set us := ((miniValues adjusted m).map toNat).take (min 32 (n - p)) with hus
  have husLen : us.length = min 32 (n - p) := by rw [length_take]; omega
  have hat := hs.foldl_addDelta minDelta (by rw [husLen]; omega)
    fun i u hu => by
      have hi : i < min 32 (n - p) := husLen ▸ (List.getElem?_eq_some_iff.1 hu).1
      rw [getElem?_take_of_lt hi, getElem?_map, miniValues, getElem?_subspan,
        if_pos (by omega), hadj i hi] at hu
      cases hu
      rw [ofNat_toNat, setWidth_eq]
  rw [husLen] at hat
  exact ⟨_, hread, ⟨hat.pos, hat.le, hat.out, hat.last⟩, rfl⟩

/-! ## Blocks -/

/-- How many values the block from `p` on holds. -/
def blockCount (values : List (BitVec w)) (p : ℕ) : ℕ := min 128 (values.length - p)

/-- The least difference of the block from `p` on. -/
def blockLeast (values : List (BitVec w)) (p : ℕ) : BitVec w :=
  leastDelta ((List.range (blockCount values p)).map fun k => deltaAt values (p + k))

/-- What its differences have more, filled up with zeros. -/
def blockAdjusted (values : List (BitVec w)) (p : ℕ) : List (BitVec w) :=
  ((List.range (blockCount values p)).map fun k => deltaAt values (p + k) - blockLeast values p)
    ++ List.replicate (128 - blockCount values p) 0#w

/-- Its miniblocks with values. -/
def blockUsed (values : List (BitVec w)) (p : ℕ) : ℕ := (blockCount values p + 31) / 32

/-- The bytes of the block from `p` on. -/
def blockBytes (values : List (BitVec w)) (p : ℕ) : Bytes :=
  zigzagBytes (blockLeast values p)
    ++ ((List.range 4).map fun m =>
        UInt8.ofNat (miniWidth (blockAdjusted values p) (blockUsed values p) m))
    ++ (List.range (blockUsed values p)).flatMap
        (miniBytes (blockAdjusted values p) (blockUsed values p))

theorem length_blockAdjusted (values : List (BitVec w)) (p : ℕ) :
    (blockAdjusted values p).length = 128 := by
  have hle : blockCount values p ≤ 128 := min_le_left _ _
  rw [blockAdjusted, length_append, length_map, length_range, length_replicate]
  omega

theorem getElem?_blockAdjusted {p i : ℕ} (hi : i < blockCount values p) :
    (blockAdjusted values p)[i]? = some (deltaAt values (p + i) - blockLeast values p) := by
  have hlen : i < ((range (blockCount values p)).map fun k =>
      deltaAt values (p + k) - blockLeast values p).length := by
    rw [length_map, length_range]
    exact hi
  rw [blockAdjusted, getElem?_append_left hlen, getElem?_map, getElem?_range hi]
  rfl

/-- The miniblocks of a block from the `m`-th on: those with values are
read, and the others are behind the last value asked for. -/
theorem readMinis_spec {s : DeltaReader w} {p m k : ℕ} (hw : w ≤ 64)
    (hp : p < values.length) (hmk : m + k = 4)
    (hs : s.At values (p + min (32 * m) (blockCount values p)))
    (hcur : s.cur = (range' m (blockUsed values p - m)).flatMap
      (miniBytes (blockAdjusted values p) (blockUsed values p)) ++ rest) :
    ∃ s', (range' m k).foldlM (fun s m => if s.out.length < values.length then
          readMini values.length 32 (blockLeast values p)
            (UInt8.ofNat (miniWidth (blockAdjusted values p) (blockUsed values p) m)).toNat s
        else return s) s = .ok s' ∧
      s'.At values (p + blockCount values p) ∧ s'.cur = rest := by
  have hcount : blockCount values p = min 128 (values.length - p) := rfl
  have husedEq : blockUsed values p = (blockCount values p + 31) / 32 := rfl
  induction k generalizing s m with
  | zero =>
    rw [show blockUsed values p - m = 0 by omega] at hcur
    rw [show min (32 * m) (blockCount values p) = blockCount values p by omega] at hs
    exact ⟨s, rfl, hs, hcur⟩
  | succ k ih =>
    have hout := hs.length_out
    rw [range'_succ, foldlM_cons]
    by_cases hm : m < blockUsed values p
    · have hsplit : range' m (blockUsed values p - m)
          = m :: range' (m + 1) (blockUsed values p - (m + 1)) := by
        rw [show blockUsed values p - m = blockUsed values p - (m + 1) + 1 by omega, range'_succ]
      have hle := miniWidth_le (blockAdjusted values p) (blockUsed values p) m
      have hbyte : (UInt8.ofNat (miniWidth (blockAdjusted values p) (blockUsed values p) m)).toNat
            = miniWidth (blockAdjusted values p) (blockUsed values p) m := by
        rw [UInt8.toNat_ofNat']
        omega
      rw [hsplit, flatMap_cons, append_assoc] at hcur
      have hpos : p + min (32 * m) (blockCount values p) = p + m * 32 := by omega
      rw [hpos] at hs hout
      obtain ⟨s₁, hread, hs₁, hcur₁⟩ := readMini_spec (blockLeast values p) hw hs hcur hm
        (length_blockAdjusted values p) (by omega) (le_refl _)
        (show p + m * 32 < values.length by omega) fun i hi => by
          rw [getElem?_blockAdjusted (by omega), add_assoc]
      have hnext : p + m * 32 + min 32 (values.length - (p + m * 32))
          = p + min (32 * (m + 1)) (blockCount values p) := by omega
      rw [hnext] at hs₁
      rw [hbyte, if_pos (by omega), hread]
      exact ih (by omega) hs₁ hcur₁
    · -- only the last block has such a miniblock, and then all values are there
      have hnone : blockUsed values p - m = blockUsed values p - (m + 1) := by omega
      have hsame : min (32 * m) (blockCount values p)
          = min (32 * (m + 1)) (blockCount values p) := by omega
      rw [if_neg (by omega)]
      rw [hnone, show blockUsed values p - (m + 1) = 0 by omega] at hcur
      rw [hsame] at hs
      refine ih (by omega) hs ?_
      rw [show blockUsed values p - (m + 1) = 0 by omega]
      exact hcur

/-- **A block** goes on by its values. -/
theorem readBlock_spec {s : DeltaReader w} {p : ℕ} (hw : w ≤ 64)
    (hp : p < values.length) (hs : s.At values p) (hcur : s.cur = blockBytes values p ++ rest) :
    ∃ s', readBlock values.length 4 32 s = .ok s' ∧
      s'.At values (p + blockCount values p) ∧ s'.cur = rest := by
  set widths := (range 4).map fun m =>
    UInt8.ofNat (miniWidth (blockAdjusted values p) (blockUsed values p) m) with hwidths
  set minis := (range (blockUsed values p)).flatMap
    (miniBytes (blockAdjusted values p) (blockUsed values p)) with hminis
  have hcur' : s.cur = zigzagBytes (blockLeast values p) ++ (widths ++ (minis ++ rest)) := by
    rw [hcur, blockBytes, append_assoc, append_assoc]
  have hfour : widths.length = 4 := by rw [hwidths, length_map, length_range]
  obtain ⟨zz, hrd, hleast⟩ := rd_zigzagBytes hw (blockLeast values p) (widths ++ (minis ++ rest))
  rw [readBlock, hcur', hrd, ok_bind]
  dsimp only
  rw [hleast, drop_left' hfour]
  refine readMinis_spec hw hp (zero_add 4) (m := 0) ?_ ?_
  · exact ⟨hs.pos, hs.le, hs.out, hs.last⟩
  · rw [Nat.sub_zero, hminis, range_eq_range']

/-! ## The encoder -/

theorem blockDeltas_eq {p : ℕ} (hpos : 0 < p) (hp : p < values.length) :
    blockDeltas values p (blockCount values p)
      = .ok ((range (blockCount values p)).map fun k => deltaAt values (p + k)) := by
  refine mapM_ok fun k hk => ?_
  have hk' : k < min 128 (values.length - p) := mem_range.1 hk
  have h₁ : p + k < values.length := by omega
  have h₂ : p + k - 1 < values.length := by omega
  rw [deltaAt, getD_eq_getElem?_getD, getD_eq_getElem?_getD, getElem?_eq_getElem h₁,
    getElem?_eq_getElem h₂]
  rfl

/-- **A block is written** as its bytes. -/
theorem encodeBlock_eq {p : ℕ} (hw : w ≤ 64) (hpos : 0 < p) (hp : p < values.length)
    (out : Bytes) : encodeBlock values (p, out) = .ok (p + 128, out ++ blockBytes values p) := by
  have hmap : ((range (blockCount values p)).map fun k => deltaAt values (p + k)).map
        (· - blockLeast values p) ++ replicate (128 - blockCount values p) 0#w
      = blockAdjusted values p := by
    rw [map_map]
    rfl
  have hused : blockUsed values p ≤ 4 := by
    have hle : blockCount values p ≤ 128 := min_le_left _ _
    rw [blockUsed]
    omega
  -- each miniblock is packed to its bytes
  have hpack : ∀ m ∈ range (blockUsed values p), ∀ out,
      packBits ((miniValues (blockAdjusted values p) m).map toNat)
        (miniWidth (blockAdjusted values p) (blockUsed values p) m) out
      = .ok (out ++ miniBytes (blockAdjusted values p) (blockUsed values p) m) := by
    intro m hm out
    have hm' := mem_range.1 hm
    have hwidth := miniWidth_le (blockAdjusted values p) (blockUsed values p) m
    have hlen : ((miniValues (blockAdjusted values p) m).map toNat).length = 32 := by
      rw [length_map]
      exact length_subspan (by rw [length_blockAdjusted]; omega)
    rw [packBits_eq (by omega) _ (by rw [hlen]; omega), hlen]
    congr 3
    omega
  unfold encodeBlock
  dsimp only
  rw [show min 128 (values.length - p) = blockCount values p from rfl, blockDeltas_eq hpos hp,
    ok_bind]
  rw [show leastDelta ((range (blockCount values p)).map fun k => deltaAt values (p + k))
    = blockLeast values p from rfl, hmap, ← blockUsed, writeBlock, foldlM_append hpack, ok_bind,
    blockBytes]
  show Except.ok (p + 128, _) = _
  simp only [append_assoc]

/-- The number of blocks of a list. -/
def blocks (values : List (BitVec w)) : ℕ := (values.length - 1 + 127) / 128

/-- The bytes of the blocks from the `j`-th on. -/
def blocksFrom (values : List (BitVec w)) (j : ℕ) : Bytes :=
  (List.range' j (blocks values - j)).flatMap fun j => blockBytes values (1 + 128 * j)

theorem blocksFrom_of_lt {j : ℕ} (hj : j < blocks values) :
    blocksFrom values j = blockBytes values (1 + 128 * j) ++ blocksFrom values (j + 1) := by
  rw [blocksFrom, show blocks values - j = blocks values - (j + 1) + 1 by omega]
  rfl

theorem blocksFrom_of_le {j : ℕ} (hj : blocks values ≤ j) : blocksFrom values j = [] := by
  rw [blocksFrom, Nat.sub_eq_zero_of_le hj]
  rfl

/-- The numbers in front of the blocks. -/
def headerBytes (values : List (BitVec w)) : Bytes :=
  Wire.uleb128Encode 128 ++ (Wire.uleb128Encode 4 ++ (Wire.uleb128Encode (u64 values.length)
    ++ zigzagBytes (values.headD 0#w)))

/-- The bytes of an encoding: the header and the blocks. -/
def deltaBytes (values : List (BitVec w)) : Bytes := headerBytes values ++ blocksFrom values 0

/-- **The encoder** writes them. -/
theorem deltaBinaryPackedEncode_eq (hw : w ≤ 64) (values : List (BitVec w)) (out : Bytes) :
    deltaBinaryPackedEncode values out = .ok (out ++ deltaBytes values) := by
  unfold deltaBinaryPackedEncode deltaBytes
  have hheader : out ++ uleb128Encode 128 ++ uleb128Encode 4
      ++ uleb128Encode (u64 values.length) ++ zigzagBytes (values.headD 0#w)
      = out ++ headerBytes values := by
    simp only [headerBytes, append_assoc]
  have hblocks : blocks values = (values.length - 1 + 127) / 128 := rfl
  rw [hheader]
  by_cases hone : values.length ≤ 1
  · rw [if_pos hone, blocksFrom_of_le (by omega), append_nil]
    rfl
  rw [if_neg hone]
  -- what is written and what is still to come is the encoding
  obtain ⟨s, hrun, ⟨j, hj, hstart, hout⟩, hend⟩ := repeatWhile_inv Fault.unfinished
    (I := fun s : ℕ × Bytes => ∃ j ≤ blocks values, s.1 = 1 + 128 * j ∧
      s.2 ++ blocksFrom values j = out ++ headerBytes values ++ blocksFrom values 0)
    (c := fun s => decide (s.1 < values.length)) (fun s => values.length - s.1)
    (fun s ⟨j, hj, hstart, hout⟩ hcond => by
      have hlt := of_decide_eq_true hcond
      obtain ⟨p, written⟩ := s
      subst hstart
      refine ⟨_, encodeBlock_eq hw (by omega) hlt written, ⟨j + 1, by omega, by omega, ?_⟩, ?_⟩
      · rw [append_assoc, ← blocksFrom_of_lt (by omega), hout]
      · omega)
    (s := (1, out ++ headerBytes values)) ⟨0, zero_le _, rfl, rfl⟩
    (show values.length - 1 < values.length + 1 by omega)
  have hlast : values.length ≤ s.1 := Nat.le_of_not_lt (of_decide_eq_false hend)
  rw [blocksFrom_of_le (show blocks values ≤ j by omega), append_nil] at hout
  rw [hrun]
  show Except.ok s.2 = _
  rw [hout, append_assoc]

/-! ## The round trip -/

theorem readHeader_headerBytes (hw : w ≤ 64) (hlen : values.length < 2 ^ 64) (rest : Bytes) :
    ∃ zz, readHeader (headerBytes values ++ rest) = .ok (⟨128, 4, values.length, zz⟩, rest) ∧
      (zigzagDecode (ofNat 64 zz)).setWidth w = values.headD 0#w := by
  obtain ⟨zz, hrd, hfirst⟩ := rd_zigzagBytes hw (values.headD 0#w) rest
  refine ⟨zz, ?_, hfirst⟩
  have h₁ := rd_uleb128Encode (v := 128) (by decide) (uleb128Encode 4
    ++ (uleb128Encode values.length ++ (zigzagBytes (values.headD 0#w) ++ rest)))
  have h₂ := rd_uleb128Encode (v := 4) (by decide)
  have h₃ := rd_uleb128Encode hlen (zigzagBytes (values.headD 0#w) ++ rest)
  rw [headerBytes, u64_of_lt hlen]
  simp only [append_assoc]
  rw [readHeader, h₁, ok_bind]
  dsimp only
  rw [h₂, ok_bind]
  rw [h₃, ok_bind]
  rw [hrd]
  rfl

theorem readBlocks_spec (rest : Bytes) (hw : w ≤ 64) (hpos : 0 < values.length) :
    ∃ s, repeatWhile (.fault .unfinished) (fun s => s.out.length < values.length)
        (readBlock values.length 4 32) (values.length + 1)
        ⟨blocksFrom values 0 ++ rest, values.headD 0#w, [values.headD 0#w]⟩ = .ok s ∧
      s.out = values ∧ s.cur = rest := by
  have hblocks : blocks values = (values.length - 1 + 127) / 128 := rfl
  have hstart : DeltaReader.At values (min (1 + 128 * 0) values.length)
      ⟨blocksFrom values 0 ++ rest, values.headD 0#w, [values.headD 0#w]⟩ := by
    obtain ⟨v, vs, rfl⟩ := exists_cons_of_length_pos hpos
    exact ⟨one_pos, hpos, rfl, rfl⟩
  obtain ⟨s, hrun, ⟨j, hat, hcur⟩, hend⟩ := repeatWhile_inv (DeltaStop.fault .unfinished)
    (I := fun s : DeltaReader w => ∃ j, s.At values (min (1 + 128 * j) values.length) ∧
      s.cur = blocksFrom values j ++ rest)
    (c := fun s => decide (s.out.length < values.length))
    (fun s => values.length - s.out.length)
    (fun s ⟨j, hat, hcur⟩ hcond => by
      have hlt := of_decide_eq_true hcond
      rw [hat.length_out] at hlt
      have hp : min (1 + 128 * j) values.length = 1 + 128 * j := by omega
      have hout := hat.length_out
      rw [hp] at hat hout
      rw [blocksFrom_of_lt (by omega), append_assoc] at hcur
      obtain ⟨s', hread, hat', hcur'⟩ := readBlock_spec hw (by omega) hat hcur
      have hcount : blockCount values (1 + 128 * j)
          = min 128 (values.length - (1 + 128 * j)) := rfl
      have hout' := hat'.length_out
      have hnext : 1 + 128 * j + blockCount values (1 + 128 * j)
          = min (1 + 128 * (j + 1)) values.length := by omega
      rw [hnext] at hat'
      exact ⟨s', hread, ⟨j + 1, hat', hcur'⟩, by omega⟩)
    ⟨0, hstart, rfl⟩ (show values.length - 1 < values.length + 1 by omega)
  have hall : values.length ≤ s.out.length := Nat.le_of_not_lt (of_decide_eq_false hend)
  rw [hat.length_out] at hall
  refine ⟨s, hrun, ?_, ?_⟩
  · rw [hat.out, take_of_length_le hall]
  · rw [hcur, blocksFrom_of_le (by omega)]
    rfl

/-- **Decoding** gives the values and the length of their encoding. -/
theorem deltaBinaryPacked_deltaBytes {size : ℕ} (hw : w ≤ 64) (hlen : values.length < 2 ^ 64)
    (hsize : values.length ≤ size) (rest : Bytes) :
    deltaBinaryPacked w (deltaBytes values ++ rest) size values.length
      = .ok (values, (deltaBytes values).length) := by
  obtain ⟨zz, hheader, hfirst⟩ := readHeader_headerBytes hw hlen (blocksFrom values 0 ++ rest)
  have hshape : (DeltaHeader.mk 128 4 values.length zz).misshapen = false := by
    simp [DeltaHeader.misshapen]
  rw [deltaBytes, append_assoc, deltaBinaryPacked, if_neg (by omega), hheader, ok_bind]
  dsimp only
  rw [hshape, if_neg Bool.false_ne_true, if_neg (lt_irrefl _)]
  rcases Nat.eq_zero_or_pos values.length with hzero | hpos
  · obtain rfl := eq_nil_of_length_eq_zero hzero
    have hnone : blocksFrom ([] : List (BitVec w)) 0 = [] := blocksFrom_of_le (by simp [blocks])
    rw [length_append, Nat.add_sub_cancel, hnone, append_nil]
    rfl
  · obtain ⟨s, hread, hout, hcur⟩ := readBlocks_spec rest hw hpos
    rw [if_neg (by omega), hfirst, hread, ok_bind, hout, hcur, ← append_assoc,
      length_append, Nat.add_sub_cancel]
    rfl

/-- **The round trip.** Asked for all the values, the decoder gives them
back and says how long their encoding is, whatever bytes follow. -/
theorem deltaBinaryPacked_encode (hbits : w = 32 ∨ w = 64) (values : List (BitVec w))
    (hlen : values.length < 2 ^ 64) (out : Bytes) :
    ∃ bytes, deltaBinaryPackedEncode values out = .ok (out ++ bytes) ∧
      ∀ rest size, values.length ≤ size →
        deltaBinaryPacked w (bytes ++ rest) size values.length = .ok (values, bytes.length) := by
  have hw : w ≤ 64 := by omega
  exact ⟨deltaBytes values, deltaBinaryPackedEncode_eq hw values out, fun rest size hsize =>
    deltaBinaryPacked_deltaBytes hw hlen hsize rest⟩

/-- Three values whose differences wrap, with bytes behind them. -/
theorem deltaBinaryPacked_encode_wraps : ∃ bytes,
    deltaBinaryPackedEncode [0x7fffffff#32, 0x80000000#32, 5#32] [] = .ok ([] ++ bytes) ∧
      ∀ rest size, 3 ≤ size → deltaBinaryPacked 32 (bytes ++ rest) size 3
        = .ok ([0x7fffffff#32, 0x80000000#32, 5#32], bytes.length) :=
  deltaBinaryPacked_encode (.inl rfl) [0x7fffffff#32, 0x80000000#32, 5#32] (by decide) []

end Nanom.Columnar
