import Nanom.Common.Run
import Nanom.Segmented.Cursor
import Nanom.Wire.Segmented

/-!
# Segmented input — the contiguous cursor it simulates

A cursor over parts stands for the contiguous cursor over their concatenation, at
the same offset (`Rep`). What a caller asks of the one it is told by the other, and
what is left after a call is represented again. What does show is zero-copy:
`overlay_seg` needs its window in one part, and `subrange` a descriptor for every
part its window meets.
-/

namespace Nanom.Segmented

open List Option

open Nom (Input Outcome Endian makeIncomplete readUint)
open Layout (Ty strct)

namespace SegInput

variable {s : SegInput} {n k : ℕ}

/-! ## What a cursor has left -/

/-- The bytes from the cursor on. -/
def content (s : SegInput) : Bytes :=
  match s.cur with
  | none => []
  | some b => b ++ s.after.flatten

theorem content_of_none (h : s.cur = none) : s.content = [] := by rw [content, h]

theorem content_of_some {b : Bytes} (h : s.cur = some b) : s.content = b ++ s.after.flatten := by
  rw [content, h]

theorem contiguous_of_some {b : Bytes} (h : s.cur = some b) : s.contiguous = b := by
  rw [contiguous, h, getD_some]

/-- **They are the concatenation from the offset on.** -/
theorem content_eq : s.content = s.src.flatten.drop s.abs := by
  rcases hcur : s.cur with - | b
  · have hplaced := s.placed
    rw [hcur] at hplaced
    rw [content_of_none hcur, hplaced.of_none, drop_length]
  · obtain ⟨pre, done, -, hsrc, -, ha⟩ := exists_parts hcur
    rw [content_of_some hcur, hsrc, ha, flatten_append, flatten_cons, append_assoc,
      ← append_assoc pre.flatten, ← length_append, drop_left]

theorem abs_le : s.abs ≤ s.total := by
  rcases hcur : s.cur with - | b
  · have hplaced := s.placed
    rw [hcur] at hplaced
    rw [hplaced.of_none, total_eq]
  obtain ⟨pre, done, -, hsrc, -, ha⟩ := exists_parts hcur
  have hlen := congrArg (fun l => l.flatten.length) hsrc
  simp only [flatten_append, flatten_cons, length_append] at hlen
  rw [total_eq]
  omega

theorem size_eq : s.size = s.content.length := by
  rw [content_eq, length_drop, size, total_eq]

theorem exists_cur (h : 0 < s.size) : ∃ b, s.cur = some b := by
  rcases hcur : s.cur with - | b
  · rw [size_eq, content_of_none hcur] at h
    cases h
  · exact ⟨b, rfl⟩

theorem index_eq (h : k < s.size) : s.index k = s.content[k]? := by
  obtain ⟨b, hb⟩ := exists_cur (s := s) (by omega)
  rw [index, contiguous_of_some hb, content_of_some hb]
  split
  · rename_i hk
    rw [getElem?_append_left hk]
  · rw [indexFrom_eq, getElem?_append_right (by omega)]

theorem gatherLoop_eq (h : n ≤ s.size) : s.gatherLoop n = some (s.content.take n) := by
  rw [gatherLoop]
  split
  · rename_i hn
    rw [hn, take_zero]
  obtain ⟨b, hb⟩ := exists_cur (s := s) (by omega)
  rw [size_eq, content_of_some hb, length_append] at h
  rw [contiguous_of_some hb, content_of_some hb]
  split
  · rename_i hle
    rw [take_append_of_le_length hle]
  · rw [gatherFrom_eq (by omega) (by omega), map_some, take_append,
      take_of_length_le (by omega : b.length ≤ n)]

/-- **A window is a window of the concatenation**, whether it is gathered or
points into a part. -/
theorem gather_eq : (s.gather n).map Window.data
    = if s.size < n then none else some (s.content.take n) := by
  rw [gather]
  split
  · rename_i hfast
    obtain ⟨b, hb⟩ := isSome_iff_exists.1 hfast.1
    have hle := hfast.2
    rw [contiguous_of_some hb] at hle ⊢
    have hsize : ¬ s.size < n := by rw [size_eq, content_of_some hb, length_append]; omega
    rw [if_neg hsize, content_of_some hb, take_append_of_le_length hle]
    rfl
  · split
    · rfl
    · rw [gatherLoop_eq (by omega)]
      rfl

theorem gatherInto_eq : s.gatherInto n
    = if s.size < n then none else some (s.content.take n) := by
  rw [gatherInto]
  split
  · rfl
  · exact gatherLoop_eq (by omega)

@[simp] theorem src_advance : (s.advance n).src = s.src := by
  unfold advance
  split
  · rfl
  · split <;> rfl

@[simp] theorem live_advance : (s.advance n).live = s.live := by
  unfold advance
  split
  · rfl
  · split <;> rfl

/-- What `advance` does: nothing at the end, a move inside the part, or a walk
through the parts after it. -/
theorem advance_cases (s : SegInput) (n : ℕ) :
    (s.cur = none ∧ (s.advance n).cur = none ∧ (s.advance n).abs = s.total) ∨
    ∃ b, s.cur = some b ∧
      (n < b.length ∧ (s.advance n).segI = s.segI ∧ (s.advance n).cur = some (b.drop n) ∧
        (s.advance n).abs = s.abs + n ∨
      b.length ≤ n ∧ (s.advance n).segI = (advanceFrom (s.segI + 1) s.after (n - b.length)).1 ∧
        (s.advance n).cur = (advanceFrom (s.segI + 1) s.after (n - b.length)).2.1 ∧
        (s.advance n).abs = if (advanceFrom (s.segI + 1) s.after (n - b.length)).2.2
          then s.total else s.abs + n) := by
  unfold advance
  split
  · rename_i hcur
    exact Or.inl ⟨hcur, hcur, rfl⟩
  rename_i b hcur
  refine Or.inr ⟨b, hcur, ?_⟩
  split
  · rename_i hlt
    exact Or.inl ⟨hlt, rfl, rfl, rfl⟩
  · exact Or.inr ⟨by omega, rfl, rfl, rfl⟩

theorem abs_advance (h : n ≤ s.size) : (s.advance n).abs = s.abs + n := by
  have hsize := s.size_eq
  rcases s.advance_cases n with
    ⟨hcur, -, ha⟩ | ⟨b, hcur, ⟨-, -, -, ha⟩ | ⟨hge, -, -, ha⟩⟩
  · have habs := s.abs_le
    rw [content_of_none hcur, length_nil] at hsize
    unfold size at h hsize
    omega
  · exact ha
  · -- what is left holds `n` bytes, so the walk does not run out of parts
    rw [content_of_some hcur, length_append] at hsize
    have hshort : ¬ (advanceFrom (s.segI + 1) s.after (n - b.length)).2.2 = true := by
      rw [advanceFrom_short]
      omega
    rw [ha, if_neg hshort]

theorem content_advance (h : n ≤ s.size) : (s.advance n).content = s.content.drop n := by
  rw [content_eq, content_eq, src_advance, abs_advance h, drop_drop]

end SegInput

/-! ## The cursor of the packet walk

`Wire.SegInput`, which the walk is modelled with, forgets the part index and
keeps the parts from the cursor on. It is what this cursor has left. -/

section Walk

open Wire.SegInput (advanceParts)

variable {s : SegInput} {n i : ℕ} {src pre l : List Bytes}

/-- The parts from a cursor on. -/
def left (src : List Bytes) (i : ℕ) : Option Bytes → List Bytes
  | none => []
  | some b => b :: src.drop (i + 1)

theorem advanceParts_zero (l : List Bytes) : advanceParts l 0 = Wire.skipEmpty l := by
  cases l with
  | nil => rfl
  | cons p ps =>
    rcases p with - | ⟨x, p⟩
    · rfl
    · simp [advanceParts, Wire.skipEmpty]

theorem left_advanceFrom (hsrc : src = pre ++ l) :
    left src (advanceFrom pre.length l n).1 (advanceFrom pre.length l n).2.1
      = advanceParts l n := by
  induction l generalizing pre n with
  | nil => rfl
  | cons p ps ih =>
    have hnext : src = (pre ++ [p]) ++ ps := by simpa using hsrc
    have hpre : pre.length + 1 = (pre ++ [p]).length := by rw [length_append]; rfl
    have hps : src.drop (pre.length + 1) = ps := by simp [hsrc]
    rw [advanceFrom, advanceParts]
    by_cases hp : p.isEmpty
    · rw [if_pos hp, List.isEmpty_iff.1 hp, length_nil, if_neg (Nat.not_lt_zero n), hpre, ih hnext]
      split
      · rename_i hn
        rw [hn, advanceParts_zero]
      · rfl
    have hlen := length_pos_of_ne_nil (isEmpty_false hp)
    rw [if_neg hp]
    by_cases hn : n = 0
    · rw [if_pos hn, if_pos (by omega), hn, drop_zero, left, hps]
    rw [if_neg hn]
    by_cases hlt : n < p.length
    · rw [if_pos hlt, if_pos hlt, left, hps]
    rw [if_neg hlt, if_neg hlt, hpre, ih hnext]
    split
    · rename_i heq
      rw [heq, Nat.sub_self, advanceParts_zero]
    · rfl

namespace SegInput

theorem left_head : ∀ p ∈ (left s.src s.segI s.cur).head?, p ≠ [] := by
  rcases hcur : s.cur with - | b
  · intro p hp
    cases hp
  · intro p hp
    obtain ⟨-, -, hne, -⟩ := exists_parts hcur
    rw [left, head?_cons, mem_some_iff] at hp
    exact hp ▸ hne

theorem flatten_left : (left s.src s.segI s.cur).flatten = s.content := by
  rcases hcur : s.cur with - | b
  · rw [content_of_none hcur]
    rfl
  · rw [content_of_some hcur]
    rfl

/-- The cursor as the walk sees it. -/
def toWalk (s : SegInput) : Wire.SegInput where
  total := s.total
  rest := left s.src s.segI s.cur
  abs := s.abs
  entered := left_head
  accounted := by
    have := s.abs_le
    rw [flatten_left, ← size_eq, size]
    omega

/-- **The walk's cursor is this one**: it gathers the same windows. -/
theorem toWalk_gather : s.toWalk.gather n = (s.gather n).map Window.data := by
  have hcontent : s.toWalk.content = s.content := flatten_left
  rw [Wire.SegInput.gather_eq, gather_eq, hcontent, size_eq]

theorem toWalk_advance (h : n ≤ s.size) :
    (s.advance n).toWalk.rest = (s.toWalk.advance n).rest ∧
      (s.advance n).toWalk.abs = (s.toWalk.advance n).abs := by
  refine ⟨?_, (abs_advance h).trans (if_pos h).symm⟩
  change left (s.advance n).src (s.advance n).segI (s.advance n).cur
    = advanceParts (left s.src s.segI s.cur) n
  rw [src_advance]
  rcases s.advance_cases n with
    ⟨hcur, hc, -⟩ | ⟨b, hcur, ⟨hlt, hi, hc, -⟩ | ⟨hge, hi, hc, -⟩⟩
  · rw [hcur, hc]
    rfl
  · rw [hcur, hi, hc, left, left, advanceParts, if_pos hlt]
  obtain ⟨pre, done, -, hsrc, hpre, -⟩ := exists_parts hcur
  have hnext : s.segI + 1 = (pre ++ [done ++ b]).length := by rw [hpre, length_append]; rfl
  rw [hcur, hi, hc, hnext, left_advanceFrom (by rw [hsrc]; simp), left, ← after, advanceParts,
    if_neg (by omega)]
  split
  · rename_i heq
    rw [heq, Nat.sub_self, advanceParts_zero]
  · rfl

end SegInput

end Walk

/-! ## The parts a window meets -/

/-- The parts that hold a byte of the window of `n` bytes at offset `a`. -/
def partsMet : List Bytes → ℕ → ℕ → ℕ
  | [], _, _ => 0
  | p :: ps, a, n =>
    if p.length ≤ a then partsMet ps (a - p.length) n
    else (if n = 0 then 0 else 1) + partsMet ps 0 (n - (p.length - a))

/-- All bytes of the window of `n` bytes at offset `a` are there, in one
part. -/
def InOnePart (parts : List Bytes) (a n : ℕ) : Prop :=
  a + n ≤ parts.flatten.length ∧ (n = 0 ∨ ∃ pre p post, parts = pre ++ p :: post ∧
    pre.flatten.length ≤ a ∧ a + n ≤ pre.flatten.length + p.length)

theorem partsMet_append (pre l : List Bytes) (a n : ℕ) :
    partsMet (pre ++ l) (pre.flatten.length + a) n = partsMet l a n := by
  induction pre with
  | nil => simp
  | cons p pre ih =>
    rw [cons_append, partsMet, flatten_cons, length_append, if_pos (by omega), ← ih]
    congr 1
    omega

@[simp] theorem partsMet_zero (l : List Bytes) (a : ℕ) : partsMet l a 0 = 0 := by
  induction l generalizing a with
  | nil => rfl
  | cons p ps ih =>
    rw [partsMet]
    split
    · exact ih _
    · simpa using ih 0

theorem partsMet_cons {p : Bytes} {ps : List Bytes} {n : ℕ} (hp : p ≠ []) (hn : 0 < n) :
    partsMet (p :: ps) 0 n = 1 + partsMet ps 0 (n - p.length) := by
  have hlen := length_pos_of_ne_nil hp
  rw [partsMet, if_neg (by omega), if_neg (by omega), Nat.sub_zero]

/-- **What the loop of `subrange` finds**: the window's bytes, part by part,
if there is a descriptor for each. -/
theorem subrangeFrom_eq {l : List Bytes} {n room : ℕ} (hn : 0 < n) (h : n ≤ l.flatten.length) :
    (partsMet l 0 n ≤ room →
      ∃ ps, subrangeFrom room l n = some ps ∧ ps.flatten = l.flatten.take n) ∧
    (room < partsMet l 0 n → subrangeFrom room l n = none) := by
  induction l generalizing n room with
  | nil =>
    simp at h
    omega
  | cons p ps ih =>
    rw [flatten_cons, length_append] at h
    rw [subrangeFrom, flatten_cons]
    split
    · rename_i hp
      rw [List.isEmpty_iff.1 hp] at h ⊢
      exact ih hn (by simpa using h)
    rename_i hp
    rw [partsMet_cons (isEmpty_false hp) hn]
    split
    · exact ⟨fun hle => by omega, fun _ => rfl⟩
    split
    · rename_i hle
      rw [Nat.sub_eq_zero_of_le hle, partsMet_zero]
      refine ⟨fun _ => ⟨[p.take n], rfl, ?_⟩, fun hlt => by omega⟩
      rw [flatten_singleton, take_append_of_le_length hle]
    · obtain ⟨hfound, hnone⟩ := @ih (n - p.length) (room - 1) (by omega) (by omega)
      refine ⟨fun hle => ?_, fun hlt => ?_⟩
      · obtain ⟨qs, hqs, hflat⟩ := hfound (by omega)
        refine ⟨p :: qs, by rw [hqs, map_some], ?_⟩
        rw [flatten_cons, hflat, take_append, take_of_length_le (by omega : p.length ≤ n)]
      · rw [hnone (by omega), map_none]

namespace SegInput

variable {s : SegInput} {n : ℕ}

theorem partsMet_eq {b : Bytes} (hb : s.cur = some b) :
    partsMet s.src s.abs n = partsMet (b :: s.after) 0 n := by
  obtain ⟨pre, done, hne, hsrc, -, ha⟩ := exists_parts hb
  have hpos := length_pos_of_ne_nil hne
  rw [ha, hsrc, partsMet_append, partsMet, partsMet, length_append,
    if_neg (show ¬ done.length + b.length ≤ done.length by omega),
    if_neg (show ¬ b.length ≤ 0 by omega), Nat.add_sub_cancel_left, Nat.sub_zero]

theorem subrange_of_some {b : Bytes} {cap : ℕ} (hb : s.cur = some b) (hn : 0 < n) (h : n ≤ s.size) :
    s.subrange cap n = (subrangeFrom cap (b :: s.after) n).map (⟨·, n⟩) := by
  obtain ⟨-, -, hne, -⟩ := exists_parts hb
  have hb' : ¬ b.isEmpty = true := fun h => hne (List.isEmpty_iff.1 h)
  rw [subrange, if_neg (by omega), if_neg (by omega), contiguous_of_some hb, subrangeFrom,
    if_neg hb']

/-- **When a subrange is found, and what it holds.** -/
theorem subrange_eq (cap : ℕ) (h : n ≤ s.size) :
    (partsMet s.src s.abs n ≤ cap → ∃ sub, s.subrange cap n = some sub ∧
      sub.parts.flatten = s.content.take n ∧ sub.total = n) ∧
    (cap < partsMet s.src s.abs n → s.subrange cap n = none) := by
  rcases Nat.eq_zero_or_pos n with rfl | hn
  · rw [partsMet_zero]
    refine ⟨fun _ => ⟨⟨[], 0⟩, ?_, by simp, rfl⟩, fun hlt => by omega⟩
    rw [subrange, if_neg (by omega), if_pos rfl, map_some]
  obtain ⟨b, hb⟩ := exists_cur (s := s) (by omega)
  have hlen : n ≤ (b :: s.after).flatten.length := by rw [size_eq, content_of_some hb] at h; exact h
  obtain ⟨hfound, hnone⟩ := @subrangeFrom_eq _ n cap hn hlen
  rw [partsMet_eq hb, subrange_of_some hb hn h, content_of_some hb]
  refine ⟨fun hle => ?_, fun hlt => by rw [hnone hlt, map_none]⟩
  obtain ⟨ps, hps, hflat⟩ := hfound hle
  exact ⟨⟨ps, n⟩, by rw [hps, map_some], hflat, rfl⟩

/-- **The window that is left of the part**: a view is there exactly if the
window lies in one part. -/
theorem inOnePart_iff : InOnePart s.src s.abs n ↔ n ≤ s.size ∧ n ≤ s.contiguous.length := by
  have hsize : s.abs + n ≤ s.src.flatten.length ↔ n ≤ s.size := by
    have habs := s.abs_le
    rw [total_eq] at habs
    rw [size, total_eq]
    omega
  rw [InOnePart, hsize]
  refine and_congr_right fun hle => ?_
  rcases Nat.eq_zero_or_pos n with rfl | hn
  · simp
  obtain ⟨b, hb⟩ := exists_cur (s := s) (by omega)
  obtain ⟨pre, done, hne, hsrc, -, ha⟩ := exists_parts hb
  have hpos := length_pos_of_ne_nil hne
  rw [contiguous_of_some hb]
  constructor
  · rintro (hzero | ⟨pre', p, post, hsrc', hlow, hhigh⟩)
    · omega
    rw [hsrc] at hsrc'
    -- the part that holds the window holds its first byte, which is the cursor's
    rcases append_eq_append_iff.1 hsrc' with ⟨mid, hpre, hmid⟩ | ⟨mid, hpre, hmid⟩
    · rcases cons_eq_append_iff.1 hmid with ⟨rfl, hp⟩ | ⟨mid', rfl, -⟩
      · obtain ⟨rfl, -⟩ := cons.inj hp
        rw [hpre, append_nil, length_append] at hhigh
        omega
      · rw [hpre, flatten_append, flatten_cons, length_append, length_append, length_append] at hlow
        omega
    · rcases cons_eq_append_iff.1 hmid with ⟨rfl, hp⟩ | ⟨mid', rfl, -⟩
      · obtain ⟨hp, -⟩ := cons.inj hp
        rw [append_nil] at hpre
        rw [← hpre, ← hp, length_append] at hhigh
        omega
      · rw [hpre, flatten_append, flatten_cons, length_append, length_append] at ha
        omega
  · intro hfit
    refine Or.inr ⟨pre, done ++ b, s.after, hsrc, by omega, ?_⟩
    rw [length_append]
    omega

end SegInput

/-! ## The contiguous cursor -/

/-- The cursor over parts stands for the contiguous one. -/
structure Rep (s : SegInput) (i : Input) : Prop where
  bytes : s.content = i.bytes
  offset : s.abs = i.offset
  live : s.live = i.live

/-- Two parsers came to the same: a value with what is left alike, or an error
of the same kind at the same offset, and all else it says. -/
inductive Alike {α : Type} : SegResult α → Nom.Result α → Prop
  | done (v : α) {s : SegInput} {i : Input} (h : Rep s i) : Alike (.done v s) (.done v i)
  | unexp (e : Nom.Error) : Alike (.unexp e) (.unexp e)

namespace Rep

variable {s : SegInput} {i : Input} {n : ℕ} {α : Type}

theorem size_eq (h : Rep s i) : s.size = i.size := by
  rw [SegInput.size_eq, h.bytes]
  rfl

theorem ofParts (parts : List Bytes) : Rep (.ofParts parts) (.ofBytes parts.flatten) :=
  ⟨by rw [SegInput.content_eq]; rfl, rfl, rfl⟩

section

variable (h : Rep s i)
include h

theorem streaming : Rep s.streaming i.streaming := ⟨h.bytes, h.offset, rfl⟩

/-- **Advancing keeps the cursors alike.** -/
theorem advance (hn : n ≤ i.size) : Rep (s.advance n) (i.advance n) := by
  have hn' : n ≤ s.size := h.size_eq ▸ hn
  refine ⟨?_, ?_, ?_⟩
  · rw [SegInput.content_advance hn', h.bytes]
    rfl
  · rw [SegInput.abs_advance hn', h.offset]
    rfl
  · rw [SegInput.live_advance, h.live]
    rfl

theorem incomplete_eq (needed : ℕ) : segMakeIncomplete s needed = makeIncomplete i needed := by
  rw [segMakeIncomplete, makeIncomplete, SegInput.offset, h.live, h.offset, h.size_eq]

theorem gather_eq : (s.gather n).map SegInput.Window.data
    = if i.size < n then none else some (i.takeSpan n).data := by
  rw [SegInput.gather_eq, h.size_eq, h.bytes]
  rfl

/-- **A parser of so many bytes** comes to the same over parts. -/
theorem windowed (f : Bytes → α) :
    Alike (windowed n f s) (Nom.exactly n (fun sp => .ok (f sp.data)) i) := by
  have hgather := h.gather_eq (n := n)
  rw [Segmented.windowed, Nom.exactly]
  by_cases hn : i.size < n
  · rw [if_pos hn, map_eq_none_iff] at hgather
    rw [hgather, if_pos hn, ← h.incomplete_eq, h.size_eq]
    exact .unexp _
  · rw [if_neg hn, map_eq_some_iff] at hgather
    obtain ⟨w, hw, hdata⟩ := hgather
    rw [hw, if_neg hn, ← hdata]
    exact .done _ (h.advance (by omega))

theorem skip : Alike (segSkip n s) ((Nom.take n i).andThen fun _ rest => .done () rest) := by
  rw [segSkip, h.size_eq, Nom.take, Nom.exactly]
  split
  · rw [h.incomplete_eq]
    exact .unexp _
  · exact .done () (h.advance (by omega))

theorem take : Alike (segTake n s) ((Nom.take n i).andThen fun sp rest => .done sp.data rest) := by
  rw [segTake, SegInput.gatherInto_eq, h.size_eq, Nom.take, Nom.exactly]
  by_cases hn : i.size < n
  · rw [if_pos hn, if_pos hn]
    rw [h.incomplete_eq]
    exact .unexp _
  · rw [if_neg hn, if_neg hn, h.bytes]
    exact .done _ (h.advance (by omega))

end

end Rep

/-! ## Any sequence of calls -/

/-- A call that moves a cursor on. -/
inductive Call
  | advance (n : ℕ)
  | checkedAdvance (n : ℕ)
  | uint (n : ℕ) (order : Endian)
  | skip (n : ℕ)
  | take (n : ℕ)
  | strct (dflt : Endian) (T : Ty)

/-- What a parser leaves; a caller that gets an error has the cursor it had. -/
def leaves {ι α : Type} (i : ι) : Outcome ι α → ι
  | .done _ rest => rest
  | .unexp _ => i
  | .never => i

def segStep (s : SegInput) : Call → SegInput
  | .advance n => s.advance n
  | .checkedAdvance n => (s.checkedAdvance n).getD s
  | .uint n order => leaves s (segUint n order s)
  | .skip n => leaves s (segSkip n s)
  | .take n => leaves s (segTake n s)
  | .strct dflt T => leaves s (strctSeg dflt T s)

def inputStep (i : Input) : Call → Input
  | .advance n => i.advance n
  | .checkedAdvance n => (i.checkedAdvance n).getD i
  | .uint n order => leaves i (readUint n order i)
  | .skip n => leaves i (Nom.take n i)
  | .take n => leaves i (Nom.take n i)
  | .strct dflt T => leaves i (strct dflt T i)

/-- `advance` is for `n <= size()`. -/
def Within (i : Input) : Call → Prop
  | .advance n => n ≤ i.size
  | _ => True

theorem Alike.leaves {α : Type} {s : SegInput} {i : Input} {r : SegResult α} {r' : Nom.Result α}
    (h : Alike r r') (hrep : Rep s i) : Rep (leaves s r) (leaves i r') := by
  cases h with
  | done v hrest => exact hrest
  | unexp e => exact hrep

theorem leaves_andThen_done {α β : Type} (i : Input) (r : Nom.Result α) (f : α → β) :
    leaves i (r.andThen fun v rest => .done (f v) rest) = leaves i r := by
  cases r <;> rfl

/-- **One call keeps the cursors alike.** -/
theorem Rep.step {s : SegInput} {i : Input} (h : Rep s i) (c : Call) (hc : Within i c) :
    Rep (segStep s c) (inputStep i c) := by
  cases c with
  | advance n => exact h.advance hc
  | checkedAdvance n =>
    rw [segStep, inputStep, SegInput.checkedAdvance, Input.checkedAdvance, h.size_eq]
    split
    · exact h
    · exact h.advance (by omega)
  | uint n order => exact (h.windowed order.toNat).leaves h
  | skip n =>
    rw [inputStep, ← leaves_andThen_done]
    exact h.skip.leaves h
  | take n =>
    rw [inputStep, ← leaves_andThen_done]
    exact h.take.leaves h
  | strct dflt T => exact (h.windowed _).leaves h

theorem src_leaves_windowed {α : Type} {s : SegInput} (n : ℕ) (f : Bytes → α) :
    (leaves s (windowed n f s)).src = s.src := by
  rw [windowed]
  split
  · rfl
  · exact SegInput.src_advance

@[simp] theorem src_segStep {s : SegInput} (c : Call) : (segStep s c).src = s.src := by
  cases c with
  | advance n => exact SegInput.src_advance
  | checkedAdvance n =>
    rw [segStep, SegInput.checkedAdvance]
    split
    · rfl
    · exact SegInput.src_advance
  | uint n order => exact src_leaves_windowed n _
  | skip n =>
    rw [segStep, segSkip]
    split
    · rfl
    · exact SegInput.src_advance
  | take n =>
    rw [segStep, segTake]
    split
    · rfl
    · exact SegInput.src_advance
  | strct dflt T => exact src_leaves_windowed T.wireSize _

/-- **Any sequence of calls keeps the cursors alike.** -/
theorem rep_run {s : SegInput} {i : Input} (h : Rep s i) {calls : List Call}
    (hcalls : Run.Along inputStep Within i calls) :
    Rep (Run.after segStep s calls) (Run.after inputStep i calls) ∧
      (Run.after segStep s calls).src = s.src := by
  induction calls generalizing s i with
  | nil => exact ⟨h, rfl⟩
  | cons c calls ih =>
    obtain ⟨hrep, hsrc⟩ := ih (h.step c hcalls.1) hcalls.2
    exact ⟨hrep, hsrc.trans (src_segStep c)⟩

/-- Everything a caller is told by a cursor over parts, against the contiguous
cursor: what agrees, and where a view or a subrange can be had. -/
structure Agree (segMaxParts : ℕ) (parts : List Bytes) (s : SegInput) (i : Input) : Prop where
  size : s.size = i.size
  offset : s.offset = i.offset
  index : ∀ k < i.size, (s.index k).isSome ∧ s.index k = i.index k
  safeAt : ∀ k, s.safeAt k = i.safeAt k
  checkedAdvance : ∀ n, Option.Rel Rep (s.checkedAdvance n) (i.checkedAdvance n)
  advance : ∀ n ≤ i.size, Rep (s.advance n) (i.advance n)
  gather : ∀ n, (s.gather n).map SegInput.Window.data
    = if i.size < n then none else some (i.takeSpan n).data
  gatherInto : ∀ n, s.gatherInto n = if i.size < n then none else some (i.takeSpan n).data
  uint : ∀ n order, Alike (segUint n order s) (readUint n order i)
  skip : ∀ n, Alike (segSkip n s) ((Nom.take n i).andThen fun _ rest => .done () rest)
  take : ∀ n, Alike (segTake n s) ((Nom.take n i).andThen fun sp rest => .done sp.data rest)
  strct : ∀ dflt T, Alike (strctSeg dflt T s) (strct dflt T i)
  overlay : ∀ T, (∃ v rest, overlaySeg T s = .done v rest) ↔ InOnePart parts i.offset T.wireSize
  overlay_bytes : ∀ T v rest, overlaySeg T s = .done v rest →
    v = (i.takeSpan T.wireSize).data ∧ Rep rest (i.advance T.wireSize)
  subrange : ∀ n ≤ i.size, partsMet parts i.offset n ≤ segMaxParts →
    ∃ sub, s.subrange segMaxParts n = some sub ∧ sub.parts.flatten = (i.takeSpan n).data ∧
      sub.total = n

theorem Rep.index_eq {s : SegInput} {i : Input} (h : Rep s i) {k : ℕ} (hk : k < i.size) :
    s.index k = i.index k := by
  rw [SegInput.index_eq (h.size_eq ▸ hk), h.bytes]
  rfl

theorem overlaySeg_eq_done {T : Ty} {s : SegInput} {v : Bytes} {rest : SegInput} :
    overlaySeg T s = .done v rest ↔ InOnePart s.src s.abs T.wireSize ∧
      v = s.contiguous.take T.wireSize ∧ rest = s.advance T.wireSize := by
  rw [SegInput.inOnePart_iff, overlaySeg]
  split
  · simp; omega
  split
  · simp; omega
  simp only [Outcome.done.injEq]
  constructor
  · rintro ⟨rfl, rfl⟩
    exact ⟨⟨by omega, by omega⟩, rfl, rfl⟩
  · rintro ⟨-, rfl, rfl⟩
    exact ⟨rfl, rfl⟩

theorem take_contiguous {s : SegInput} {n : ℕ} (h : InOnePart s.src s.abs n) :
    s.contiguous.take n = s.content.take n := by
  obtain ⟨hsize, hfit⟩ := SegInput.inOnePart_iff.1 h
  rcases Nat.eq_zero_or_pos n with rfl | hn
  · rw [take_zero, take_zero]
  · obtain ⟨b, hb⟩ := SegInput.exists_cur (s := s) (by omega)
    rw [SegInput.contiguous_of_some hb] at hfit ⊢
    rw [SegInput.content_of_some hb, take_append_of_le_length hfit]

theorem Rep.agree {s : SegInput} {i : Input} (h : Rep s i) (segMaxParts : ℕ) :
    Agree segMaxParts s.src s i where
  size := h.size_eq
  offset := h.offset
  index k hk := by
    rw [h.index_eq hk]
    exact ⟨by rw [Input.index, isSome_getElem?]; exact hk, rfl⟩
  safeAt k := by
    rw [SegInput.safeAt, Input.safeAt, h.size_eq]
    split
    · rfl
    · exact h.index_eq (by omega)
  checkedAdvance n := by
    rw [SegInput.checkedAdvance, Input.checkedAdvance, h.size_eq]
    split
    · exact .none
    · exact .some (h.advance (by omega))
  advance n hn := h.advance hn
  gather n := h.gather_eq
  gatherInto n := by
    rw [SegInput.gatherInto_eq, h.size_eq, h.bytes]
    rfl
  uint n order := h.windowed order.toNat
  skip n := h.skip
  take n := h.take
  strct dflt T := h.windowed _
  overlay T := by
    simp only [overlaySeg_eq_done, h.offset]
    constructor
    · rintro ⟨v, rest, hin, -, -⟩
      exact hin
    · exact fun hin => ⟨_, _, hin, rfl, rfl⟩
  overlay_bytes T v rest hdone := by
    obtain ⟨hin, rfl, rfl⟩ := overlaySeg_eq_done.1 hdone
    refine ⟨by rw [take_contiguous hin, h.bytes]; rfl, h.advance ?_⟩
    exact h.size_eq ▸ (SegInput.inOnePart_iff.1 hin).1
  subrange n hn hmet := by
    rw [← h.offset] at hmet
    obtain ⟨sub, hsub, hparts, htotal⟩ := (SegInput.subrange_eq segMaxParts (h.size_eq ▸ hn)).1 hmet
    exact ⟨sub, hsub, by rw [hparts, h.bytes]; rfl, htotal⟩

/-- **Segmented input simulates contiguous input.** For any parts, empty ones
anywhere, complete or a stream's, and any sequence of calls, the cursor over the
parts and the one over their concatenation agree on all they tell. -/
theorem segmented_simulates (segMaxParts : ℕ) (parts : List Bytes) (s : SegInput) (i : Input)
    (hstart : s = .ofParts parts ∧ i = .ofBytes parts.flatten ∨
      s = (SegInput.ofParts parts).streaming ∧ i = (Input.ofBytes parts.flatten).streaming)
    (calls : List Call) (hcalls : Run.Along inputStep Within i calls) :
    Agree segMaxParts parts (Run.after segStep s calls) (Run.after inputStep i calls) := by
  have hrep : Rep s i ∧ s.src = parts := by
    rcases hstart with ⟨rfl, rfl⟩ | ⟨rfl, rfl⟩
    · exact ⟨Rep.ofParts parts, rfl⟩
    · exact ⟨(Rep.ofParts parts).streaming, rfl⟩
  obtain ⟨hrun, hsrc⟩ := rep_run hrep.1 hcalls
  rw [← hrep.2, ← hsrc]
  exact hrun.agree segMaxParts

/-- A number that straddles an empty part, and then one byte more. -/
theorem segmented_simulates_straddling :
    Agree 64 [[1], [], [2, 3, 4]]
      (Run.after segStep (.ofParts [[1], [], [2, 3, 4]]) [.uint 2 .big, .advance 1])
      (Run.after inputStep (.ofBytes [1, 2, 3, 4]) [.uint 2 .big, .advance 1]) :=
  segmented_simulates 64 [[1], [], [2, 3, 4]] _ _ (Or.inl ⟨rfl, rfl⟩) [.uint 2 .big, .advance 1]
    ⟨trivial, by unfold Within; decide, trivial⟩

end Nanom.Segmented
