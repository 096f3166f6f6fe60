import Nanom.Layout.Strct

/-!
# Segmented input — the cursor

`nanom/segmented.hpp`: a cursor over a logical buffer whose bytes lie in several
parts. It keeps the index of its part, the bytes of that part from the cursor on,
and the absolute offset; a null cursor stands for the end, and empty parts are
always passed over. `Placed` is the representation invariant: where in the parts a
cursor stands, and that its offset says so.

The walks go on to the next part without asking whether there is one, where the
size they have checked says so. A walk that ran out of parts would read past their
array; it is `none` here.
-/

namespace Nanom.Segmented

open List

open Nom (Input Outcome Error Endian maxIncompleteNeeded)
open Layout (Ty)

variable {a i : ℕ} {b p : Bytes}

/-- Where a cursor stands: inside a part, before `b`, or at the end. -/
inductive Placed (src : List Bytes) : ℕ → Option Bytes → ℕ → Prop
  | inside (pre : List Bytes) (done b : Bytes) (post : List Bytes)
      (hsrc : src = pre ++ (done ++ b) :: post) (hb : b ≠ []) :
      Placed src pre.length (some b) (pre.flatten.length + done.length)
  | exhausted (i : ℕ) : Placed src i none src.flatten.length

theorem Placed.of_some {src : List Bytes} (h : Placed src i (some b) a) :
    ∃ pre done post, b ≠ [] ∧ src = pre ++ (done ++ b) :: post ∧ i = pre.length ∧
      a = pre.flatten.length + done.length := by
  cases h with
  | inside pre done b post hsrc hb => exact ⟨pre, done, post, hb, hsrc, rfl, rfl⟩

theorem Placed.of_none {src : List Bytes} (h : Placed src i none a) : a = src.flatten.length := by
  cases h
  rfl

/-- `seg_input`. The bytes from `cur` to `seg_end` are one field. -/
structure SegInput where
  src : List Bytes
  segI : ℕ
  cur : Option Bytes
  abs : ℕ
  live : Bool
  placed : Placed src segI cur abs

/-! ## Walking through the parts -/

/-- `enter`: the first part from `i` on that is not empty. -/
def enter : ℕ → List Bytes → ℕ × Option Bytes
  | i, [] => (i, none)
  | i, p :: ps => if p.isEmpty then enter (i + 1) ps else (i, some p)

/-- The loop of `advance`, about to enter part `i`: where it ends, and whether
it ran out of parts with bytes still to go. -/
def advanceFrom : ℕ → List Bytes → ℕ → ℕ × Option Bytes × Bool
  | i, [], n => (i, none, decide (0 < n))
  | i, p :: ps, n =>
    if p.isEmpty then advanceFrom (i + 1) ps n
    else if n = 0 then (i, some p, false)
    else if n < p.length then (i, some (p.drop n), false)
    else advanceFrom (i + 1) ps (n - p.length)

/-- The loop of `operator[]` in the parts after the current one. -/
def indexFrom : List Bytes → ℕ → Option UInt8
  | [], _ => none
  | p :: ps, i =>
    if p.isEmpty then indexFrom ps i
    else if i < p.length then p[i]?
    else indexFrom ps (i - p.length)

/-- The loop of `gather` in the parts after the current one. -/
def gatherFrom : List Bytes → ℕ → Option Bytes
  | [], _ => none
  | p :: ps, n =>
    if p.isEmpty then gatherFrom ps n
    else if n ≤ p.length then some (p.take n)
    else (gatherFrom ps (n - p.length)).map (p ++ ·)

/-- The loop of `subrange` in the parts after the current one, with room for so
many descriptors. -/
def subrangeFrom : ℕ → List Bytes → ℕ → Option (List Bytes)
  | _, [], _ => none
  | room, p :: ps, n =>
    if p.isEmpty then subrangeFrom room ps n
    -- over the inline cap
    else if room = 0 then none
    else if n ≤ p.length then some [p.take n]
    else (subrangeFrom (room - 1) ps (n - p.length)).map (p :: ·)

/-! ### Where the walks lead -/

section Walks

variable {src pre l : List Bytes} {n i : ℕ}

theorem isEmpty_false (h : ¬ p.isEmpty) : p ≠ [] := by
  rintro rfl
  exact h rfl

theorem flatten_append_empty (h : p.isEmpty) : (pre ++ [p]).flatten = pre.flatten := by
  rw [isEmpty_iff.1 h]
  simp

theorem enter_placed (hsrc : src = pre ++ l) :
    Placed src (enter pre.length l).1 (enter pre.length l).2 pre.flatten.length := by
  induction l generalizing pre with
  | nil =>
    rw [append_nil] at hsrc
    rw [← hsrc]
    exact .exhausted _
  | cons p ps ih =>
    rw [enter]
    split
    · rename_i hp
      have := @ih (pre ++ [p]) (by simpa using hsrc)
      rwa [flatten_append_empty hp, length_append] at this
    · rename_i hp
      exact .inside pre [] p ps hsrc (isEmpty_false hp)

/-- Where the parts from `i` on are left after `n` bytes, and when they run
out. -/
theorem advanceFrom_placed (hsrc : src = pre ++ l) :
    Placed src (advanceFrom pre.length l n).1 (advanceFrom pre.length l n).2.1
      (if (advanceFrom pre.length l n).2.2 then src.flatten.length
        else pre.flatten.length + n) := by
  induction l generalizing pre n with
  | nil =>
    rcases Nat.eq_zero_or_pos n with rfl | hn
    · simpa [advanceFrom, hsrc] using @Placed.exhausted src pre.length
    · simpa [advanceFrom, hn] using @Placed.exhausted src pre.length
  | cons p ps ih =>
    have hnext : src = (pre ++ [p]) ++ ps := by simpa using hsrc
    rw [advanceFrom]
    split
    · rename_i hp
      have := ih (n := n) hnext
      rwa [flatten_append_empty hp, length_append] at this
    rename_i hp
    split
    · rename_i hn
      rw [hn]
      exact .inside pre [] p ps hsrc (isEmpty_false hp)
    split
    · have hlen : (p.take n).length = n := by rw [length_take]; omega
      have := @Placed.inside src pre (p.take n) (p.drop n) ps (by simpa using hsrc)
        (by simp; omega)
      rwa [hlen] at this
    · have := ih (n := n - p.length) hnext
      rw [length_append, flatten_append, length_append] at this
      rw [show pre.flatten.length + n
        = pre.flatten.length + [p].flatten.length + (n - p.length) by simp; omega]
      exact this

theorem advanceFrom_short : (advanceFrom i l n).2.2 = true ↔ l.flatten.length < n := by
  induction l generalizing i n with
  | nil => simp [advanceFrom]
  | cons p ps ih =>
    rw [advanceFrom, flatten_cons, length_append]
    split
    · rename_i hp
      rw [ih, isEmpty_iff.1 hp, length_nil, zero_add]
    split
    · simp_all
    · split
      · simp; omega
      · rw [ih]; omega

theorem indexFrom_eq : indexFrom l i = l.flatten[i]? := by
  induction l generalizing i with
  | nil => rfl
  | cons p ps ih =>
    rw [indexFrom, flatten_cons]
    split
    · rename_i hp
      rw [ih, isEmpty_iff.1 hp, nil_append]
    · split
      · rename_i hi
        rw [getElem?_append_left hi]
      · rw [ih, getElem?_append_right (by omega)]

theorem gatherFrom_eq (hn : 0 < n) (h : n ≤ l.flatten.length) :
    gatherFrom l n = some (l.flatten.take n) := by
  induction l generalizing n with
  | nil =>
    simp at h
    omega
  | cons p ps ih =>
    rw [flatten_cons, length_append] at h
    rw [gatherFrom, flatten_cons]
    split
    · rename_i hp
      rw [isEmpty_iff.1 hp]
      rw [isEmpty_iff.1 hp, length_nil, zero_add] at h
      exact ih hn h
    · split
      · rename_i hle
        rw [take_append_of_le_length hle]
      · rw [ih (by omega) (by omega), Option.map_some, take_append,
          take_of_length_le (by omega : p.length ≤ n)]

end Walks

namespace SegInput

variable {s : SegInput} {n k : ℕ}

/-! ## The cursor's own operations -/

/-- `from(segments)`. -/
def ofParts (parts : List Bytes) : SegInput where
  src := parts
  segI := (enter 0 parts).1
  cur := (enter 0 parts).2
  abs := 0
  live := false
  placed := @enter_placed parts [] parts rfl

/-- `streaming(seg_input)`. -/
def streaming (s : SegInput) : SegInput := { s with live := true }

/-- The parts after the current one. -/
def after (s : SegInput) : List Bytes := s.src.drop (s.segI + 1)

/-- `segments::size()`. -/
def total (s : SegInput) : ℕ := (s.src.map List.length).sum

/-- `size()`. -/
def size (s : SegInput) : ℕ := s.total - s.abs

/-- `offset()`. -/
def offset (s : SegInput) : ℕ := s.abs

/-- `contiguous()`: what is left of the current part. -/
def contiguous (s : SegInput) : Bytes := s.cur.getD []

/-- `operator[]`. -/
def index (s : SegInput) (i : ℕ) : Option UInt8 :=
  if i < s.contiguous.length then s.contiguous[i]?
  else indexFrom s.after (i - s.contiguous.length)

def safeAt (s : SegInput) (i : ℕ) : Option UInt8 := if s.size ≤ i then none else s.index i

theorem total_eq : s.total = s.src.flatten.length := length_flatten.symm

theorem exists_parts (hb : s.cur = some b) : ∃ pre done, b ≠ [] ∧
    s.src = pre ++ (done ++ b) :: s.after ∧ s.segI = pre.length ∧
      s.abs = pre.flatten.length + done.length := by
  have hplaced := s.placed
  rw [hb] at hplaced
  obtain ⟨pre, done, post, hne, hsrc, hi, ha⟩ := hplaced.of_some
  have hafter : s.after = post := by simp [after, hsrc, hi]
  exact ⟨pre, done, hne, by rw [hafter, hsrc], hi, ha⟩

theorem placed_exhausted (h : s.cur = none) : Placed s.src s.segI s.cur s.total := by
  rw [h, total_eq]
  exact .exhausted _

theorem placed_within (hb : s.cur = some b) (h : n < b.length) :
    Placed s.src s.segI (some (b.drop n)) (s.abs + n) := by
  obtain ⟨pre, done, -, hsrc, hi, ha⟩ := exists_parts hb
  have hlen : (b.take n).length = n := by rw [length_take]; omega
  have hnew := @Placed.inside s.src pre (done ++ b.take n) (b.drop n) s.after
    (by rw [hsrc]; simp) (by simp; omega)
  rw [length_append, hlen] at hnew
  rw [hi, ha, add_assoc]
  exact hnew

theorem placed_beyond (hb : s.cur = some b) (h : ¬ n < b.length) :
    Placed s.src (advanceFrom (s.segI + 1) s.after (n - b.length)).1
      (advanceFrom (s.segI + 1) s.after (n - b.length)).2.1
      (if (advanceFrom (s.segI + 1) s.after (n - b.length)).2.2 then s.total
        else s.abs + n) := by
  obtain ⟨pre, done, -, hsrc, hi, ha⟩ := exists_parts hb
  have hnew := @advanceFrom_placed s.src (pre ++ [done ++ b]) s.after (n - b.length)
    (by rw [hsrc]; simp)
  rw [length_append, flatten_append, flatten_singleton, length_append, length_append] at hnew
  rw [show s.abs + n = pre.flatten.length + (done.length + b.length) + (n - b.length) by omega,
    total_eq, hi]
  exact hnew

/-- `advance`, clamped at the end. -/
def advance (s : SegInput) (n : ℕ) : SegInput :=
  match h : s.cur with
  | none => { s with
      abs := s.total
      placed := placed_exhausted h }
  | some b =>
    if hn : n < b.length then { s with
      cur := some (b.drop n)
      abs := s.abs + n
      placed := placed_within h hn }
    else
      let r := advanceFrom (s.segI + 1) s.after (n - b.length)
      { s with
        segI := r.1
        cur := r.2.1
        abs := if r.2.2 then s.total else s.abs + n
        placed := placed_beyond h hn }

def checkedAdvance (s : SegInput) (n : ℕ) : Option SegInput :=
  if s.size < n then none else some (s.advance n)

/-- `seg_window`: the bytes at `data()`, and whether they are the segment's
own. -/
structure Window where
  zeroCopy : Bool
  data : Bytes

/-- The gathering loop, from the current part on. -/
def gatherLoop (s : SegInput) (n : ℕ) : Option Bytes :=
  if n = 0 then some []
  else if n ≤ s.contiguous.length then some (s.contiguous.take n)
  else (gatherFrom s.after (n - s.contiguous.length)).map (s.contiguous ++ ·)

/-- `gather<N>`. -/
def gather (s : SegInput) (n : ℕ) : Option Window :=
  -- the fast path: the window is inside the current part
  if s.cur.isSome ∧ n ≤ s.contiguous.length then some ⟨true, s.contiguous.take n⟩
  else if s.size < n then none
  else (s.gatherLoop n).map (⟨false, ·⟩)

/-- `gather(dst)`. -/
def gatherInto (s : SegInput) (n : ℕ) : Option Bytes :=
  if s.size < n then none else s.gatherLoop n

/-- `seg_subrange`: its part descriptors and its size. -/
structure Subrange where
  parts : List Bytes
  total : ℕ

/-- `subrange`, with `seg_max_parts` descriptors at most. -/
def subrange (segMaxParts : ℕ) (s : SegInput) (n : ℕ) : Option Subrange :=
  if s.size < n then none
  else
    (if n = 0 then some []
    else if segMaxParts = 0 then none
    else if n ≤ s.contiguous.length then some [s.contiguous.take n]
    else (subrangeFrom (segMaxParts - 1) s.after (n - s.contiguous.length)).map
      (s.contiguous :: ·)).map (⟨·, n⟩)

end SegInput

/-! ## The parsers over segments -/

abbrev SegResult (α : Type) : Type := Outcome SegInput α

def segMakeErr (at_ : SegInput) (expected : String) : Error :=
  { kind := .err, offset := u32 at_.offset, expected := expected }

def segMakeIncomplete (at_ : SegInput) (needed : ℕ) : Error :=
  { kind := if at_.live then .incomplete else .err
    offset := u32 (at_.offset + at_.size)
    expected := "more input"
    needed := min needed maxIncompleteNeeded }

/-- A window of `n` bytes, and what is made of it. -/
def windowed {α : Type} (n : ℕ) (f : Bytes → α) (s : SegInput) : SegResult α :=
  match s.gather n with
  | none => .unexp (segMakeIncomplete s (n - s.size))
  | some w => .done (f w.data) (s.advance n)

def strctSeg (dflt : Endian) (T : Ty) : SegInput → SegResult T.Value :=
  windowed T.wireSize fun w => T.assignField dflt w 0

def segUint (n : ℕ) (order : Endian) : SegInput → SegResult ℕ := windowed n order.toNat

def segU8 : SegInput → SegResult ℕ := segUint 1 .big
def segBe16 : SegInput → SegResult ℕ := segUint 2 .big
def segBe32 : SegInput → SegResult ℕ := segUint 4 .big
def segBe64 : SegInput → SegResult ℕ := segUint 8 .big
def segLe16 : SegInput → SegResult ℕ := segUint 2 .little
def segLe32 : SegInput → SegResult ℕ := segUint 4 .little
def segLe64 : SegInput → SegResult ℕ := segUint 8 .little

def segSkip (n : ℕ) (s : SegInput) : SegResult Unit :=
  if s.size < n then .unexp (segMakeIncomplete s (n - s.size)) else .done () (s.advance n)

/-- `seg_take`, and what it leaves in the caller's storage of `n` bytes. -/
def segTake (n : ℕ) (s : SegInput) : SegResult Bytes :=
  match s.gatherInto n with
  | none => .unexp (segMakeIncomplete s (n - s.size))
  | some dst => .done dst (s.advance n)

/-- `overlay_seg`: the bytes the view points at, which are the segment's. -/
def overlaySeg (T : Ty) (s : SegInput) : SegResult Bytes :=
  if s.size < T.wireSize then .unexp (segMakeIncomplete s (T.wireSize - s.size))
  else if s.contiguous.length < T.wireSize then
    .unexp (segMakeErr s
      "contiguous view (struct straddles a segment boundary; use strct_seg)")
  else .done (s.contiguous.take T.wireSize) (s.advance T.wireSize)

end Nanom.Segmented
