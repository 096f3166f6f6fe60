import Mathlib.Data.List.TakeDrop
import Nanom.Common.Bytes

/-!
# Output windows

What a dictionary-free decompressor does to its output, twice.

`put`, `putAll` and `copyBytes` are the plain account: the output is the list of
what has been produced, it grows by one element at a time up to a capacity, and
a back-reference repeats the element `offset` back.

`Buffer` is the memory account: `n` elements that are all there from the start
and are overwritten in blocks, in any order and past the point that counts as
produced. A store outside the buffer, or a block copy between ranges that
overlap, has no result.

`Repeats` and `Loads` say what a buffer holds after a number of stores, and
`Repeats.copyBytes_eq` and `Loads.putAll_eq` go back to the plain account.
-/

namespace Nanom

open List

variable {c i k m : ℕ}
variable {α : Type*} {n : ℕ}

/-! ## The plain account -/

/-- One element more, where there is room. -/
def put (n : ℕ) (h : List α) (a : α) : Option (List α) :=
  if h.length < n then some (h ++ [a]) else none

/-- Elements more, one at a time. -/
def putAll (n : ℕ) (l h : List α) : Option (List α) := l.foldlM (put n) h

/-- A back-reference, one element at a time. -/
def copyBytes (n offset : ℕ) : ℕ → List α → Option (List α)
  | 0, h => some h
  | k + 1, h => do
      let a ← h[h.length - offset]?
      copyBytes n offset k (← put n h a)

theorem putAll_of_le {l h : List α} (hle : h.length + l.length ≤ n) :
    putAll n l h = some (h ++ l) := by
  induction l generalizing h with
  | nil => rw [append_nil]; rfl
  | cons a l ih =>
    rw [length_cons] at hle
    have hput : put n h a = some (h ++ [a]) := if_pos (by omega)
    have htail : putAll n l (h ++ [a]) = some (h ++ [a] ++ l) :=
      ih (by rw [length_append, length_singleton]; omega)
    rw [append_assoc] at htail
    rw [putAll, foldlM_cons, hput]
    exact htail

theorem putAll_of_lt {l h : List α} (hh : h.length ≤ n) (hlt : n < h.length + l.length) :
    putAll n l h = none := by
  induction l generalizing h with
  | nil => rw [length_nil] at hlt; omega
  | cons a l ih =>
    rw [length_cons] at hlt
    rw [putAll, foldlM_cons, put]
    split
    · have hlen : (h ++ [a]).length = h.length + 1 := by simp
      exact ih (by omega) (by omega)
    · rfl

theorem copyBytes_of_lt {offset : ℕ} {h : List α} (hh : h.length ≤ n)
    (hlt : n < h.length + k) : copyBytes n offset k h = none := by
  induction k generalizing h with
  | zero => omega
  | succ k ih =>
    rw [copyBytes]
    cases h[h.length - offset]? with
    | none => rfl
    | some a =>
      change (put n h a >>= copyBytes n offset k) = none
      rw [put]
      split
      · have hlen : (h ++ [a]).length = h.length + 1 := by simp
        exact ih (by omega) (by omega)
      · rfl

/-! ## The memory account -/

/-- A buffer of `n` elements. -/
@[ext] structure Buffer (α : Type*) (n : ℕ) where
  elems : List α
  length_elems : elems.length = n
  deriving DecidableEq

namespace Buffer

/-- A buffer of zeros. -/
def zeros (n : ℕ) : Buffer UInt8 n := ⟨List.replicate n 0, length_replicate⟩

/-- The buffer with `l` in place of what it holds from `dst` on. -/
def overwrite (b : Buffer α n) (dst : ℕ) (l : List α) (h : dst + l.length ≤ n) : Buffer α n where
  elems := b.elems.take dst ++ (l ++ b.elems.drop (dst + l.length))
  length_elems := by
    simp only [length_append, length_take, length_drop, b.length_elems]
    omega

theorem getElem?_overwrite {b : Buffer α n} {dst : ℕ} {l : List α} {h : dst + l.length ≤ n} :
    (b.overwrite dst l h).elems[i]?
      = if dst ≤ i ∧ i < dst + l.length then l[i - dst]? else b.elems[i]? := by
  have hlen : (b.elems.take dst).length = dst := by rw [length_take, b.length_elems]; omega
  rw [overwrite, getElem?_append, hlen]
  split
  · rw [if_neg (by omega), getElem?_take_of_lt (by omega)]
  rw [getElem?_append]
  split
  · rw [if_pos (by omega)]
  · rw [if_neg (by omega), getElem?_drop]
    congr 1
    omega

/-- A store of `l` at `dst`. -/
def store (dst : ℕ) (l : List α) (b : Buffer α n) : Option (Buffer α n) :=
  if h : dst + l.length ≤ n then some (b.overwrite dst l h) else none

/-- `memcpy(dst, dst - lag, c)` inside the buffer. -/
def memcpy (dst lag c : ℕ) (b : Buffer α n) : Option (Buffer α n) :=
  if lag ≤ dst ∧ c ≤ lag ∧ dst + c ≤ n then b.store dst (subspan b.elems (dst - lag) c) else none

/-- `*dst = *(dst - lag)`. -/
def assign (dst lag : ℕ) (b : Buffer α n) : Option (Buffer α n) :=
  if lag ≤ dst ∧ dst < n then b.store dst (subspan b.elems (dst - lag) 1) else none

/-- `memcpy(dst, in + src, c)` from another range of memory. -/
def load (l : List α) (dst src c : ℕ) (b : Buffer α n) : Option (Buffer α n) :=
  if src + c ≤ l.length ∧ dst + c ≤ n then b.store dst (subspan l src c) else none

theorem exists_store (b : Buffer α n) (dst : ℕ) (l : List α) (h : dst + l.length ≤ n) :
    ∃ b', b.store dst l = some b' ∧ ∀ i, b'.elems[i]?
      = if dst ≤ i ∧ i < dst + l.length then l[i - dst]? else b.elems[i]? :=
  ⟨b.overwrite dst l h, dif_pos h, fun _ => getElem?_overwrite⟩

/-- The first elements of the buffer, with one more. -/
theorem take_succ_eq {b : Buffer α n} {a : α} (h : b.elems[i]? = some a) :
    b.elems.take (i + 1) = b.elems.take i ++ [a] := by
  rw [take_add_one, h]
  rfl

/-- A store right behind what counts as produced, of which the first `k`
elements are to count too. -/
theorem take_store {b : Buffer α n} {dst : ℕ} {l : List α} (hroom : dst + l.length ≤ n)
    (hk : k ≤ l.length) :
    ∃ b', b.store dst l = some b' ∧ b'.elems.take (dst + k) = b.elems.take dst ++ l.take k := by
  refine ⟨b.overwrite dst l hroom, dif_pos hroom, ?_⟩
  have hlen : (b.elems.take dst).length = dst := by rw [List.length_take, b.length_elems]; omega
  rw [overwrite, take_append, hlen, take_take, Nat.min_eq_right (by omega),
    Nat.add_sub_cancel_left, take_append, Nat.sub_eq_zero_of_le hk, take_zero,
    append_nil]

theorem length_take {b : Buffer α n} (h : i ≤ n) : (b.elems.take i).length = i := by
  rw [List.length_take, b.length_elems]
  omega

end Buffer

/-! ## Back-references -/

/-- `b'` is `b` up to `dst`, and from there on each of `len` elements is
the one `offset` back. -/
structure Repeats (b b' : Buffer α n) (dst offset len : ℕ) : Prop where
  kept : ∀ i < dst, b'.elems[i]? = b.elems[i]?
  back : ∀ i, dst ≤ i → i < dst + len → b'.elems[i]? = b'.elems[i - offset]?

namespace Repeats

variable {b₀ b b' : Buffer α n} {dst offset len : ℕ}

theorem refl (b : Buffer α n) (dst offset : ℕ) : Repeats b b dst offset 0 :=
  ⟨fun _ _ => rfl, fun i hi hi' => by omega⟩

theorem mono (h : Repeats b b' dst offset len) (hk : k ≤ len) : Repeats b b' dst offset k :=
  ⟨h.kept, fun i hi hi' => h.back i hi (by omega)⟩

section

variable (h : Repeats b₀ b dst offset len)
include h

/-- A multiple of the offset back is as good as the offset, as long as
every element on the way is one the repetition has come to. -/
theorem back_mul (hi : i < dst + len + offset)
    (hm : dst + (m + 1) * offset ≤ i + offset) (hle : (m + 1) * offset ≤ i) :
    b.elems[i - (m + 1) * offset]? = b.elems[i - offset]? := by
  induction m with
  | zero => rw [zero_add, one_mul]
  | succ m ih =>
    have hmul : (m + 1 + 1) * offset = (m + 1) * offset + offset := Nat.succ_mul _ _
    have hpos : offset ≤ (m + 1) * offset := Nat.le_mul_of_pos_left _ (Nat.succ_pos m)
    have hstep : b.elems[i - (m + 1) * offset]? = b.elems[i - (m + 1) * offset - offset]? :=
      h.back _ (by omega) (by omega)
    rw [← ih (by omega) (by omega), hstep, hmul, Nat.sub_sub]

/-- **A chunk of a back-reference.** `c` elements from a multiple of the
offset back continue a repetition, if the chunk does not reach into what
it writes and does not start before what is repeated. -/
theorem chunk (hoff : offset ≤ dst)
    (hc : c ≤ (m + 1) * offset) (hm : (m + 1) * offset ≤ len + offset) (hroom : dst + len + c ≤ n) :
    ∃ b', b.store (dst + len) (subspan b.elems (dst + len - (m + 1) * offset) c) = some b' ∧
      Repeats b₀ b' dst offset (len + c) := by
  have hlen : (subspan b.elems (dst + len - (m + 1) * offset) c).length = c :=
    length_subspan (by rw [b.length_elems]; omega)
  obtain ⟨b', hb', hget⟩ := b.exists_store (dst + len)
    (subspan b.elems (dst + len - (m + 1) * offset) c) (by omega)
  rw [hlen] at hget
  -- below the chunk nothing changes; in it stands what was a multiple of the offset back
  have hbelow : ∀ i < dst + len, b'.elems[i]? = b.elems[i]? := fun i hi => by
    rw [hget, if_neg (by omega)]
  have hin : ∀ i, dst + len ≤ i → i < dst + len + c →
      b'.elems[i]? = b.elems[i - (m + 1) * offset]? := fun i hi hi' => by
    rw [hget, if_pos ⟨hi, hi'⟩, getElem?_subspan, if_pos (by omega)]
    congr 1
    omega
  refine ⟨b', hb', fun i hi => ?_, fun i hi hi' => ?_⟩
  · rw [hbelow i (by omega), h.kept i hi]
  · rcases Nat.lt_or_ge i (dst + len) with hlt | hge
    · rw [hbelow i hlt, hbelow _ (by omega), h.back i hi hlt]
    · rw [hin i hge (by omega)]
      rcases Nat.lt_or_ge (i - offset) (dst + len) with hlt | hge'
      · rw [hbelow _ hlt]
        exact h.back_mul (by omega) (by omega) (by omega)
      · -- the element `offset` back is itself in the chunk
        have hback : b.elems[i - (m + 1) * offset]?
            = b.elems[i - (m + 1) * offset - offset]? := h.back _ (by omega) (by omega)
        rw [hin _ hge' (by omega), hback, Nat.sub_right_comm]

/-- A `memcpy` from a multiple of the offset back is a chunk. -/
theorem memcpy (hoff : offset ≤ dst)
    (hc : c ≤ (m + 1) * offset) (hm : (m + 1) * offset ≤ len + offset) (hroom : dst + len + c ≤ n) :
    ∃ b', b.memcpy (dst + len) ((m + 1) * offset) c = some b' ∧
      Repeats b₀ b' dst offset (len + c) := by
  rw [Buffer.memcpy, if_pos ⟨by omega, hc, hroom⟩]
  exact h.chunk hoff hc hm hroom

/-- The assignment of one element is a chunk. -/
theorem assign (hpos : 0 < offset) (hoff : offset ≤ dst) (hroom : dst + len < n) :
    ∃ b', b.assign (dst + len) offset = some b' ∧ Repeats b₀ b' dst offset (len + 1) := by
  have hchunk := h.chunk (m := 0) (c := 1) hoff (by omega) (by omega) (by omega)
  rw [Nat.one_mul] at hchunk
  rw [Buffer.assign, if_pos ⟨by omega, hroom⟩]
  exact hchunk

end

/-- **What a repetition comes to**: the back-reference, one element at a
time. -/
theorem copyBytes_eq (h : Repeats b b' dst offset len) (hpos : 0 < offset) (hoff : offset ≤ dst)
    (hroom : dst + len ≤ n) :
    copyBytes n offset len (b.elems.take dst) = some (b'.elems.take (dst + len)) := by
  have htake : b.elems.take dst = b'.elems.take dst := ext_getElem? fun i => by
    rw [getElem?_take, getElem?_take]
    split
    · rw [h.kept i ‹_›]
    · rfl
  rw [htake]
  clear htake
  have hback := h.back
  clear h
  -- by induction on the length: the first element goes to the plain output
  induction len generalizing dst with
  | zero => rfl
  | succ len ih =>
    have hlt : dst < b'.elems.length := by rw [b'.length_elems]; omega
    have hget : b'.elems[dst]? = some b'.elems[dst] := getElem?_eq_getElem hlt
    have hsrc : (b'.elems.take dst)[dst - offset]? = some b'.elems[dst] := by
      rw [getElem?_take_of_lt (by omega), ← hback dst (Nat.le_refl dst) (by omega), hget]
    have hput : put n (b'.elems.take dst) b'.elems[dst] = some (b'.elems.take (dst + 1)) := by
      rw [put, Buffer.length_take (by omega), if_pos (by omega), Buffer.take_succ_eq hget]
    rw [copyBytes, Buffer.length_take (by omega), hsrc]
    change (put n (b'.elems.take dst) b'.elems[dst] >>= copyBytes n offset len) = _
    rw [hput, ← Nat.add_assoc, Nat.add_right_comm]
    exact ih (by omega) (by omega) fun i hi hi' => hback i (by omega) (by omega)

end Repeats

/-! ## Literals -/

/-- `b'` is `b` up to `dst`, and from there on it holds the first `len`
elements of `l`. -/
structure Loads (b b' : Buffer α n) (dst : ℕ) (l : List α) (len : ℕ) : Prop where
  kept : ∀ i < dst, b'.elems[i]? = b.elems[i]?
  loaded : ∀ i < len, b'.elems[dst + i]? = l[i]?

namespace Loads

variable {b₀ b b' : Buffer α n} {dst len : ℕ} {l : List α}

theorem refl (b : Buffer α n) (dst : ℕ) (l : List α) : Loads b b dst l 0 :=
  ⟨fun _ _ => rfl, fun i hi => by omega⟩

theorem mono (h : Loads b b' dst l len) (hk : k ≤ len) : Loads b b' dst l k :=
  ⟨h.kept, fun i hi => h.loaded i (by omega)⟩

/-- The next elements of `l`, from a memory that has them at `src`. -/
theorem load {s : List α} {src : ℕ} (h : Loads b₀ b dst (s.drop src) len)
    (hsrc : src + len + c ≤ s.length) (hroom : dst + len + c ≤ n) :
    ∃ b', b.load s (dst + len) (src + len) c = some b' ∧
      Loads b₀ b' dst (s.drop src) (len + c) := by
  have hlen : (subspan s (src + len) c).length = c := length_subspan hsrc
  obtain ⟨b', hb', hget⟩ := b.exists_store (dst + len) (subspan s (src + len) c) (by omega)
  refine ⟨b', ?_, fun i hi => ?_, fun i hi => ?_⟩
  · rw [Buffer.load, if_pos ⟨hsrc, hroom⟩, hb']
  · rw [hget, if_neg (by omega), h.kept i hi]
  · rw [hget]
    split
    · rw [getElem?_subspan, if_pos (by omega), getElem?_drop]
      congr 1
      omega
    · exact h.loaded i (by omega)

/-- **What loads come to**: the elements, one at a time. -/
theorem putAll_eq (h : Loads b b' dst l len) (hl : len ≤ l.length) (hroom : dst + len ≤ n) :
    putAll n (l.take len) (b.elems.take dst) = some (b'.elems.take (dst + len)) := by
  rw [putAll_of_le (by rw [Buffer.length_take (by omega), length_take]; omega)]
  congr 1
  refine ext_getElem? fun i => ?_
  rw [getElem?_append, Buffer.length_take (by omega), getElem?_take, getElem?_take, getElem?_take]
  split
  · rw [if_pos (by omega), h.kept i ‹_›]
  split
  · rw [if_pos (by omega), ← h.loaded _ ‹_›]
    congr 1
    omega
  · rw [if_neg (by omega)]

end Loads

end Nanom
