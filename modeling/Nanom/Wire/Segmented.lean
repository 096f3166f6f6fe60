import Nanom.Wire.Headers
/-!
# Segmented input

`nanom/segmented.hpp`: a cursor over a logical buffer whose bytes lie in
several parts. The cursor is what is left of its current part and the
parts after it; it is never left at the end of a part, so it has parts
left exactly while it has bytes left. A read inside the current part is a
view of it and one that straddles a boundary is gathered; `content` says
that neither can be told from a read of the concatenation.
-/

namespace Nanom.Wire

open List

/-- The parts from the first non-empty one on. -/
def skipEmpty (parts : List Bytes) : List Bytes := parts.dropWhile List.isEmpty

theorem flatten_skipEmpty (parts : List Bytes) : (skipEmpty parts).flatten = parts.flatten := by
  induction parts with
  | nil => rfl
  | cons p ps ih =>
    rcases p with - | ⟨x, p⟩
    · exact ih
    · rfl

theorem skipEmpty_head (parts : List Bytes) : ∀ p ∈ (skipEmpty parts).head?, p ≠ [] := by
  induction parts with
  | nil =>
    intro p hp
    cases hp
  | cons p ps ih =>
    rcases p with - | ⟨x, p⟩
    · exact ih
    · rintro q hq rfl
      cases hq

structure SegInput where
  /-- The bytes of all the parts. -/
  total : ℕ
  /-- What is left of the current part, and the parts after it. -/
  rest : List Bytes
  /-- The offset in the logical buffer. -/
  abs : ℕ
  /-- The cursor never stands at the end of a part. -/
  entered : ∀ p ∈ rest.head?, p ≠ []
  accounted : abs + rest.flatten.length = total

namespace SegInput

variable {s : SegInput} {n : ℕ}

/-- `from(segments)`. -/
def ofParts (parts : List Bytes) : SegInput where
  total := (parts.map List.length).sum
  rest := skipEmpty parts
  abs := 0
  entered := skipEmpty_head parts
  accounted := by rw [flatten_skipEmpty, List.length_flatten, zero_add]

/-- The bytes left. -/
def content (s : SegInput) : Bytes := s.rest.flatten

@[simp] theorem content_ofParts (parts : List Bytes) : (ofParts parts).content = parts.flatten :=
  flatten_skipEmpty parts

/-- `size()`. -/
def size (s : SegInput) : ℕ := s.total - s.abs

theorem size_eq (s : SegInput) : s.size = s.content.length := by
  have := s.accounted
  unfold size content
  omega

/-- The bytes a straddling read gathers, part by part. -/
def gatherLoop : List Bytes → ℕ → Bytes
  | [], _ => []
  | p :: ps, n => if n ≤ p.length then p.take n else p ++ gatherLoop ps (n - p.length)

/-- `gather`: inside the current part the window is a view of it. -/
def gather (s : SegInput) (n : ℕ) : Option Bytes :=
  match s.rest with
  | [] => if s.size < n then none else some []
  | p :: ps =>
    if n ≤ p.length then some (p.take n)
    else if s.size < n then none
    else some (gatherLoop (p :: ps) n)

/-- The parts after `n` bytes; a cursor that has reached the end of a part
enters the next. -/
def advanceParts : List Bytes → ℕ → List Bytes
  | [], _ => []
  | p :: ps, n =>
    if n < p.length then p.drop n :: ps
    else if n = p.length then skipEmpty ps
    else advanceParts ps (n - p.length)

theorem flatten_advanceParts (parts : List Bytes) (n : ℕ) :
    (advanceParts parts n).flatten = parts.flatten.drop n := by
  induction parts generalizing n with
  | nil => simp [advanceParts]
  | cons p ps ih =>
    rw [advanceParts, flatten_cons, drop_append]
    split
    · rw [flatten_cons, Nat.sub_eq_zero_of_le (by omega), drop_zero]
    rw [drop_of_length_le (by omega), nil_append]
    split
    · rename_i heq
      rw [flatten_skipEmpty, heq, Nat.sub_self, drop_zero]
    · exact ih _

theorem advanceParts_head (parts : List Bytes) (n : ℕ) :
    ∀ p ∈ (advanceParts parts n).head?, p ≠ [] := by
  induction parts generalizing n with
  | nil =>
    intro p hp
    cases hp
  | cons q ps ih =>
    rw [advanceParts]
    split
    · rintro p hp rfl
      simp only [head?_cons, Option.mem_some_iff] at hp
      have hlen := congrArg List.length hp
      rw [length_drop, length_nil] at hlen
      omega
    · split
      · exact skipEmpty_head ps
      · exact ih _

/-- `advance`, clamped at the end. -/
def advance (s : SegInput) (n : ℕ) : SegInput where
  total := s.total
  rest := advanceParts s.rest n
  abs := if n ≤ s.size then s.abs + n else s.total
  entered := advanceParts_head s.rest n
  accounted := by
    have := s.accounted
    rw [flatten_advanceParts, length_drop]
    unfold size
    split <;> omega

@[simp] theorem content_advance : (s.advance n).content = s.content.drop n :=
  flatten_advanceParts s.rest n

theorem gatherLoop_eq (parts : List Bytes) (n : ℕ) : gatherLoop parts n = parts.flatten.take n := by
  induction parts generalizing n with
  | nil => simp [gatherLoop]
  | cons p ps ih =>
    rw [gatherLoop, flatten_cons, take_append]
    split
    · rename_i hle
      rw [Nat.sub_eq_zero_of_le hle, take_zero, append_nil]
    · rw [ih, take_of_length_le (show p.length ≤ n by omega)]

/-- **A gathered window is a window of the concatenation.** -/
theorem gather_eq : s.gather n =
    if s.content.length < n then none else some (s.content.take n) := by
  have hsize := s.size_eq
  unfold gather content at *
  split
  · rename_i hrest
    rw [hsize, hrest]
    simp
  rename_i p ps hrest
  rw [hsize, hrest, flatten_cons, length_append]
  split
  · rename_i hle
    rw [if_neg (by omega), take_append_of_le_length hle]
  · split
    · rfl
    · rw [gatherLoop_eq, flatten_cons]

end SegInput

/-- `strct_seg<T>()`. -/
def strctSeg (T : Type) [Described T] (s : SegInput) : Option (T × SegInput) :=
  (s.gather (wireSize T)).map fun w => (Described.decode w, s.advance (wireSize T))

/-- **A struct read off segments is the struct read off their bytes.** -/
theorem strctSeg_eq (T : Type) [Described T] (s : SegInput) :
    (strctSeg T s).map (fun r => (r.1, r.2.content)) = strct T s.content := by
  rw [strctSeg, strct, SegInput.gather_eq]
  split
  · rfl
  · simp

end Nanom.Wire
