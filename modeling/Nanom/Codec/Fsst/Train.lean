import Mathlib.Algebra.Group.Int.Defs
import Nanom.Codec.Fsst.Model
import Nanom.Common.ComparisonSort

/-!
# FSST — training

Six rounds over a sample of the values. A round compresses the sample with the
table so far, counts the symbols and the adjacent pairs, and makes the next
table of the symbols with the highest gain; the table of the round that
compressed the sample best wins.

The sample is drawn by a counter-driven generator; `k` bounds the draws of the
model, and training that needs more has no result here. The counters are
arrays, sixteen bits a count; the candidates are a map in the order of its keys.
-/

namespace Nanom.Codec.Fsst

open Loop (Round)

/-- The bytes a sample aims at. -/
def kSampleTarget : ℕ := 1 <<< 14

/-- The symbols a table takes. -/
def kMaxSymbols : ℕ := 255

/-- Construction codes from here on are escaped bytes. -/
def kPseudo : ℕ := 256

def kCodes : ℕ := 512

/-! ## The sample -/

/-- One step of splitmix64: the state, and the number drawn. -/
def splitmix (state : ℕ) : ℕ × ℕ :=
  let state := u64 (state + 0x9E3779B97F4A7C15)
  let z := u64 ((state ^^^ (state >>> 30)) * 0xBF58476D1CE4E5B9)
  let z := u64 ((z ^^^ (z >>> 27)) * 0x94D049BB133111EB)
  (state, z ^^^ (z >>> 31))

/-- A draw of the sample: the generator's state, the bytes taken and the
values drawn. -/
def drawRound (values : List Bytes) :
    ℕ × ℕ × List Bytes → Round (ℕ × ℕ × List Bytes) (List Bytes)
  | (state, taken, sample) =>
    if kSampleTarget ≤ taken then .stop sample
    else
      let (state, z) := splitmix state
      let v := (values[z % values.length]?).getD []
      .next (state, taken + v.length, sample ++ [v])

/-- `make_sample`: every value when they are small, or values drawn. -/
def makeSample (k : ℕ) (values : List Bytes) : Option (List Bytes) :=
  let total := u64 (values.map List.length).sum
  if total ≤ kSampleTarget then some values
  else Loop.run (drawRound values) k (0x9E3779B97F4A7C15 ^^^ total, 0, [])

/-! ## Counting -/

/-- A symbol: its bytes as a word, and their number. -/
structure Symbol where
  value : ℕ
  length : ℕ
  deriving DecidableEq

def symbolOf (e : Encoder) (code : ℕ) : Symbol :=
  if kPseudo ≤ code then ⟨code - kPseudo, 1⟩ else ⟨e.symbols code, e.lengths code⟩

/-- The counters of a round. -/
structure Counts where
  count1 : Array ℕ := .replicate kCodes 0
  count2 : Array ℕ := .replicate (kCodes * kCodes) 0
  touchedRows : List ℕ := []
  rowTouched : Array Bool := .replicate kCodes false
  gain : ℤ := 0

namespace Counts

/-- A count that stops at its width. -/
def bump (c : ℕ) : ℕ := if c ≠ 0xFFFF then c + 1 else c

/-- A code seen. -/
def one (s : Counts) (code : ℕ) : Counts := { s with count1 := s.count1.modify code bump }

/-- A pair of codes seen. -/
def two (s : Counts) (prev cur : ℕ) : Counts :=
  { s with count2 := s.count2.modify (prev * kCodes + cur) bump }

/-- The row of a code is marked as written. -/
def touch (s : Counts) (prev : ℕ) : Counts :=
  if s.rowTouched[prev]?.getD false then s
  else { s with
    rowTouched := s.rowTouched.setIfInBounds prev true
    touchedRows := s.touchedRows ++ [prev] }

/-- What a code saves. -/
def credit (s : Counts) (code length : ℕ) : Counts :=
  { s with gain := s.gain + max 0 ((length : ℤ) - 1 - if kPseudo ≤ code then 1 else 0) }

/-- The counters cleared for a round: only the rows that were written. -/
def clear (s : Counts) : Counts where
  count1 := .replicate kCodes 0
  count2 := s.touchedRows.foldl (fun c row => (List.range kCodes).foldl
    (fun c i => c.setIfInBounds (row * kCodes + i) 0) c) s.count2
  touchedRows := []
  rowTouched := s.touchedRows.foldl (fun c row => c.setIfInBounds row false) s.rowTouched

end Counts

/-- `code_at`: the code of the bytes left, or their first one escaped. -/
def codeAt (table : Encoder) (p : Bytes) : ℕ × ℕ :=
  let (code, length) := find table p
  (if code = kNone then kPseudo + (p.headD 0).toNat else code, length)

theorem find_length_pos (e : Encoder) (p : Bytes) : 0 < (find e p).2 := by
  unfold find
  dsimp only
  split
  · rename_i h
    exact Nat.pos_of_ne_zero h.2.1
  · split
    · exact Nat.two_pos
    · exact Nat.one_pos

/-- The codes of a value behind its first one, `prev` the last. -/
def countRest (table : Encoder) (frac : ℕ) : ℕ → Bytes → Counts → Counts
  | prev, [], s => s.one prev
  | prev, b :: p, s =>
    let s := s.one prev
    let s := if (symbolOf table prev).length ≠ 1 then s.one (kPseudo + b.toNat) else s
    let cur := codeAt table (b :: p)
    let s := s.credit cur.1 cur.2
    let s := if frac < 128 then -- no pairs in the last round
        let s := (s.touch prev).two prev cur.1
        if 1 < cur.2 then s.two prev (kPseudo + b.toNat) else s
      else s
    countRest table frac cur.1 ((b :: p).drop cur.2) s
termination_by _ p => p.length
decreasing_by
  have hpos : 0 < (codeAt table (b :: p)).2 := find_length_pos table (b :: p)
  rw [List.length_drop, List.length_cons]
  omega

/-- The codes of a value. -/
def countValue (table : Encoder) (frac : ℕ) (s : Counts) (v : Bytes) : Counts :=
  if v.isEmpty then s
  else
    let first := codeAt table v
    countRest table frac first.1 (v.drop first.2) (s.credit first.1 first.2)

/-! ## The next table -/

/-- A candidate symbol and its gain, in the order of the symbols: by
value, then by length. -/
def gainFor (sym : Symbol) (gain : ℕ) : List (Symbol × ℕ) → List (Symbol × ℕ)
  | [] => [(sym, u64 gain)]
  | (sym', gain') :: rest =>
    if sym = sym' then (sym', u64 (gain' + gain)) :: rest
    else if sym.value < sym'.value ∨ sym.value = sym'.value ∧ sym.length < sym'.length then
      (sym, u64 gain) :: (sym', gain') :: rest
    else (sym', gain') :: gainFor sym gain rest

def consider (frac : ℕ) (sym : Symbol) (count : ℕ) (candidates : List (Symbol × ℕ)) :
    List (Symbol × ℕ) :=
  if count < 5 * frac / 128 then candidates
  else gainFor sym (count * sym.length) candidates

/-- The symbol of two adjacent ones, cut to eight bytes. -/
def joined (s₁ s₂ : Symbol) : Symbol :=
  let length := min 8 (s₁.length + s₂.length)
  ⟨(s₁.value ||| u64 (s₂.value <<< (8 * s₁.length))) &&& mask length, length⟩

/-- The codes of a table and the escaped bytes. -/
def live (table : Encoder) : List ℕ :=
  List.range table.symbolCount ++ (List.range 256).map (kPseudo + ·)

/-- The candidates a code gives: its symbol, and the pairs it starts. -/
def considerCode (table : Encoder) (frac : ℕ) (s : Counts) (candidates : List (Symbol × ℕ))
    (c₁ : ℕ) : List (Symbol × ℕ) :=
  let n₁ := s.count1[c₁]?.getD 0
  if n₁ = 0 then candidates
  else
    let s₁ := symbolOf table c₁
    -- single bytes count eight times
    let candidates := consider frac s₁ ((if s₁.length = 1 then 8 else 1) * n₁) candidates
    if 128 ≤ frac ∨ s₁.length = 8 ∨ s.rowTouched[c₁]?.getD false = false then candidates
    else
      (live table).foldl (fun candidates c₂ =>
        let n₂ := s.count2[c₁ * kCodes + c₂]?.getD 0
        if n₂ = 0 then candidates
        else consider frac (joined s₁ (symbolOf table c₂)) n₂ candidates) candidates

/-- The order candidates are taken in: by gain, then by value. -/
def rankedBefore (a b : Symbol × ℕ) : Bool :=
  if a.2 ≠ b.2 then b.2 < a.2 else a.1.value < b.1.value

/-- The symbols ranked, as far as the table has room. -/
def fill (table : Encoder) : List (Symbol × ℕ) → Except Stop Encoder
  | [] => .ok table
  | (sym, _) :: rest =>
    if table.symbolCount = kMaxSymbols then .ok table
    else do
      let (table, _) ← add table sym.value sym.length
      fill table rest

/-- The next table. -/
def nextTable (σ : ComparisonSort) (table : Encoder) (frac : ℕ) (s : Counts) :
    Except Stop Encoder :=
  fill (reset table) (σ.sort rankedBefore ((live table).foldl (considerCode table frac s) []))

/-! ## The rounds -/

/-- What the rounds carry: the table, the best one so far with its gain,
and the counters. -/
structure Training where
  table : Encoder
  best : Encoder
  bestGain : ℤ
  counts : Counts

/-- One round. -/
def trainRound (σ : ComparisonSort) (sample : List Bytes) (t : Training) (frac : ℕ) :
    Except Stop Training := do
  let counts := sample.foldl (countValue t.table frac) t.counts.clear
  let next ← nextTable σ t.table frac counts
  if t.bestGain ≤ counts.gain then return ⟨next, t.table, counts.gain, counts⟩
  else return ⟨next, t.best, t.bestGain, counts⟩

/-- The entry of `short_or_byte` for two bytes: the two-byte symbol, else
the one-byte one, else the escape. -/
def shortOrByteEntry (e : Encoder) (w : Fin 65536) : ℕ :=
  let two := e.shortCodes w
  let one := e.byteCodes (low8 w)
  if two ≠ kNone then (2 <<< 8) ||| two
  else if one ≠ kNone then (1 <<< 8) ||| one
  else (1 <<< 8) ||| kEscape

/-- `train` on a sample: no table where no symbol is worth having. -/
def trainOn (σ : ComparisonSort) (sample : List Bytes) : Except Stop (Option Encoder) := do
  let table := reset {}
  let t ← [8, 38, 68, 98, 108, 128].foldlM (trainRound σ sample) ⟨table, table, -2 ^ 63, {}⟩
  if t.best.symbolCount = 0 then return none
  else return some { t.best with shortOrByte := some (shortOrByteEntry t.best) }

/-- `train`, with at most `k` draws for the sample. -/
def train (σ : ComparisonSort) (k : ℕ) (values : List Bytes) : Except Stop (Option Encoder) :=
  match makeSample k values with
  | none => .error .unfinished
  | some sample => trainOn σ sample

end Nanom.Codec.Fsst
