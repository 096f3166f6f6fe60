import Nanom.Columnar.Bits

/-!
# Columnar pages — BYTE_STREAM_SPLIT

Values of `width` bytes as `width` streams, the first bytes of all values before
their second ones. Both directions are loops of byte stores, each the list of its
stores here. They are the same transposition, so one undoes the other.
-/

namespace Nanom.Columnar

open List Nat

variable {m n width : ℕ} {input : Bytes} {moves : List (ℕ × ℕ)}

/-- `dst[p.1] = src[p.2]`, for one pair after the other. -/
def moveAll (input : Bytes) (moves : List (ℕ × ℕ)) (out : Buffer UInt8 m) :
    Except Fault (Buffer UInt8 m) :=
  moves.foldlM (fun b p => do
    let x ← access input[p.2]?
    access (b.store p.1 [x])) out

/-- The stores of `byte_stream_split`. -/
def splitMoves (width n : ℕ) : List (ℕ × ℕ) :=
  if width = 4 then (List.range n).flatMap fun i =>
    [(4 * i + 0, i), (4 * i + 1, n + i), (4 * i + 2, 2 * n + i), (4 * i + 3, 3 * n + i)]
  else if width = 8 then (List.range n).flatMap fun i =>
    (List.range 8).map fun b => (8 * i + b, b * n + i)
  else (List.range width).flatMap fun b => (List.range n).map fun i => (width * i + b, b * n + i)

/-- The stores of `byte_stream_split_encode`. -/
def encodeMoves (width n : ℕ) : List (ℕ × ℕ) :=
  if width = 4 then (List.range n).flatMap fun i =>
    [(i, 4 * i), (n + i, 4 * i + 1), (2 * n + i, 4 * i + 2), (3 * n + i, 4 * i + 3)]
  else (List.range width).flatMap fun b => (List.range n).map fun i => (b * n + i, width * i + b)

/-- Either of them, into `out`, or nothing where it returns false. -/
def splitWith (moves : ℕ → ℕ → List (ℕ × ℕ)) (input : Bytes) (width n : ℕ)
    (out : Buffer UInt8 m) : Except Fault (Option (Buffer UInt8 m)) :=
  if width = 0 ∨ (2 ^ 64 - 1) / width < n then return none
  else if input.length < n * width ∨ m < n * width then return none
  else return some (← moveAll input (moves width n) out)

def byteStreamSplit (input : Bytes) (width n : ℕ) (out : Buffer UInt8 m) :=
  splitWith splitMoves input width n out

def byteStreamSplitEncode (input : Bytes) (width n : ℕ) (out : Buffer UInt8 m) :=
  splitWith encodeMoves input width n out

/-! ## The transposition -/

/-- **A byte that is moved is there**, if no two of them go to one place. -/
theorem moveAll_spec (hin : ∀ p ∈ moves, p.1 < m ∧ p.2 < input.length)
    (hone : ∀ p ∈ moves, ∀ q ∈ moves, p.1 = q.1 → p.2 = q.2) (out : Buffer UInt8 m) :
    ∃ b, moveAll input moves out = .ok b ∧ ∀ p ∈ moves, b.elems[p.1]? = input[p.2]? := by
  refine foldlM_inv (I := fun done (b : Buffer UInt8 m) =>
    ∀ p : ℕ × ℕ, p ∈ done → b.elems[p.1]? = input[p.2]?)
    (fun done q rest b hl hdone => ?_) (forall_mem_nil _)
  have hmem : ∀ p ∈ done ++ [q], p ∈ moves := fun p hp => by
    rw [hl, ← singleton_append, ← append_assoc]
    exact mem_append_left rest hp
  have hq := hmem q (mem_append_right done (mem_singleton_self q))
  obtain ⟨hdst, hsrc⟩ := hin q hq
  have hget := getElem?_eq_getElem hsrc
  obtain ⟨b', hstore, helems⟩ := b.exists_store q.1 [input[q.2]] hdst
  refine ⟨b', by rw [hget]; exact congrArg access hstore, fun p hp => ?_⟩
  rw [helems, length_singleton]
  by_cases hpq : p.1 = q.1
  · rw [if_pos (by omega), hpq, Nat.sub_self, hone p (hmem p hp) q hq hpq, hget]
    rfl
  · rw [if_neg (by omega)]
    rcases mem_append.1 hp with hp | hp
    · exact hdone p hp
    · exact absurd (congrArg Prod.fst (mem_singleton.1 hp)) hpq

/-- The stores of a transposition: `k` rows of `w` bytes are filled from `w` rows of
`k`. -/
def Transposes (k w : ℕ) (moves : List (ℕ × ℕ)) : Prop :=
  ∀ p, p ∈ moves ↔ ∃ i < k, ∃ c < w, p = (w * i + c, c * k + i)

theorem mem_grid {k l : ℕ} {g : ℕ → ℕ → ℕ × ℕ} {p : ℕ × ℕ} :
    p ∈ (List.range k).flatMap (fun i => (List.range l).map (g i)) ↔
      ∃ i < k, ∃ c < l, p = g i c := by
  simp [eq_comm]

theorem exists_comm_grid {k l : ℕ} {P : ℕ → ℕ → Prop} :
    (∃ i < k, ∃ c < l, P i c) ↔ ∃ c < l, ∃ i < k, P i c :=
  ⟨fun ⟨i, hi, c, hc, h⟩ => ⟨c, hc, i, hi, h⟩, fun ⟨c, hc, i, hi, h⟩ => ⟨i, hi, c, hc, h⟩⟩

theorem transposes_splitMoves (width n : ℕ) : Transposes n width (splitMoves width n) := by
  intro p
  rw [splitMoves]
  split_ifs with h₄ h₈
  · subst h₄
    rw [← mem_grid]
    simp [range_succ]
  · rw [h₈, mem_grid]
  · rw [mem_grid, exists_comm_grid]

theorem transposes_encodeMoves (width n : ℕ) : Transposes width n (encodeMoves width n) := by
  intro p
  simp only [mul_comm n, mul_comm _ width]
  rw [encodeMoves]
  split_ifs with h₄
  · subst h₄
    rw [exists_comm_grid, ← mem_grid]
    simp [range_succ]
  · rw [mem_grid]

variable {k w : ℕ} {x y z : Bytes}

/-- Rows and columns are exchanged. -/
def Transposed (k w : ℕ) (x y : Bytes) : Prop := ∀ i < k, ∀ c < w, y[w * i + c]? = x[c * k + i]?

theorem Transposes.moveAll (h : Transposes k w moves) (hm : m = k * w) (hin : input.length = m)
    (out : Buffer UInt8 m) :
    ∃ b, moveAll input moves out = .ok b ∧ Transposed k w input b.elems := by
  have hlt : ∀ {l v i c : ℕ}, i < l → c < v → v * i + c < l * v := by
    intro l v i c hi hc
    have hmul := mul_le_mul_left v hi
    rw [mul_succ, mul_comm v l] at hmul
    omega
  have hinside : ∀ p ∈ moves, p.1 < m ∧ p.2 < input.length := by
    intro p hp
    obtain ⟨i, hi, c, hc, rfl⟩ := (h p).1 hp
    rw [hin, hm]
    refine ⟨hlt hi hc, ?_⟩
    rw [mul_comm c, mul_comm k w]
    exact hlt hc hi
  -- a place is in one row and one column
  have hone : ∀ p ∈ moves, ∀ q ∈ moves, p.1 = q.1 → p.2 = q.2 := by
    intro p hp q hq hpq
    obtain ⟨i, hi, c, hc, rfl⟩ := (h p).1 hp
    obtain ⟨j, hj, d, hd, rfl⟩ := (h q).1 hq
    have hdiv := congrArg (· / w) hpq
    have hmod := congrArg (· % w) hpq
    simp only [mul_add_div (zero_lt_of_lt hc), mul_add_mod, div_eq_of_lt hc,
      div_eq_of_lt hd, mod_eq_of_lt hc, mod_eq_of_lt hd, add_zero] at hdiv hmod
    rw [hdiv, hmod]
  obtain ⟨b, hmove, hb⟩ := moveAll_spec hinside hone out
  exact ⟨b, hmove, fun i hi c hc => hb _ ((h _).2 ⟨i, hi, c, hc, rfl⟩)⟩

/-- **Exchanging them twice changes nothing.** -/
theorem Transposed.twice (h : Transposed k w x y) (h' : Transposed w k y z)
    (hx : x.length = k * w) (hz : z.length = k * w) : z = x := by
  refine ext_getElem? fun p => ?_
  by_cases hp : p < k * w
  · have hc : p / k < w := Nat.div_lt_of_lt_mul hp
    have hi := Nat.mod_lt p (Nat.pos_of_mul_pos_right (Nat.zero_lt_of_lt hp))
    have hback := h' _ hc _ hi
    rwa [mul_comm (p % k), h _ hi _ hc, mul_comm _ k, div_add_mod] at hback
  · rw [getElem?_eq_none (by omega), getElem?_eq_none (by omega)]

/-- **Encoder and decoder undo each other**, on every path. -/
theorem byteStreamSplit_inverse (hw : 1 ≤ width) (hn : n * width < 2 ^ 64) (hm : m = n * width)
    (hin : input.length = m) (out out' : Buffer UInt8 m) :
    (∃ e d, byteStreamSplitEncode input width n out = .ok (some e) ∧
      byteStreamSplit e.elems width n out' = .ok (some d) ∧ d.elems = input) ∧
    ∃ d e, byteStreamSplit input width n out = .ok (some d) ∧
      byteStreamSplitEncode d.elems width n out' = .ok (some e) ∧ e.elems = input := by
  have hsplit : ∀ {steps : ℕ → ℕ → List (ℕ × ℕ)} {l : Bytes} {o b : Buffer UInt8 m},
      l.length = m → moveAll l (steps width n) o = .ok b →
      splitWith steps l width n o = .ok (some b) := by
    intro steps l o b hl hmove
    have hfits : n ≤ (2 ^ 64 - 1) / width := (le_div_iff_mul_le hw).2 (by omega)
    rw [splitWith, if_neg (by omega), if_neg (by omega), hmove]
    rfl
  have hm' : m = width * n := hm.trans (mul_comm ..)
  have hdecode := transposes_splitMoves width n
  have hencode := transposes_encodeMoves width n
  constructor
  · obtain ⟨e, he, hxe⟩ := hencode.moveAll hm' hin out
    obtain ⟨d, hd, hed⟩ := hdecode.moveAll hm e.length_elems out'
    exact ⟨e, d, hsplit hin he, hsplit e.length_elems hd,
      hxe.twice hed (hin.trans hm') (d.length_elems.trans hm')⟩
  · obtain ⟨d, hd, hxd⟩ := hdecode.moveAll hm hin out
    obtain ⟨e, he, hde⟩ := hencode.moveAll hm' d.length_elems out'
    exact ⟨d, e, hsplit hin hd, hsplit d.length_elems he,
      hxd.twice hde (hin.trans hm) (e.length_elems.trans hm)⟩

/-- Two values of three bytes. -/
theorem byteStreamSplit_inverse_two :
    (∃ e d : Buffer UInt8 6,
      byteStreamSplitEncode [1, 2, 3, 4, 5, 6] 3 2 (.zeros 6) = .ok (some e) ∧
      byteStreamSplit e.elems 3 2 (.zeros 6) = .ok (some d) ∧ d.elems = [1, 2, 3, 4, 5, 6]) ∧
    ∃ d e : Buffer UInt8 6, byteStreamSplit [1, 2, 3, 4, 5, 6] 3 2 (.zeros 6) = .ok (some d) ∧
      byteStreamSplitEncode d.elems 3 2 (.zeros 6) = .ok (some e) ∧ e.elems = [1, 2, 3, 4, 5, 6] :=
  byteStreamSplit_inverse (n := 2) (le_add_left 1 2) (by decide) rfl rfl (.zeros 6) (.zeros 6)

end Nanom.Columnar
