import Nanom.Common.Bytes

/-!
# Inputs, errors and results

An input is what is left of a buffer: the bytes, how far they are from its start,
and whether more may follow. A parser gives a value and the rest of its input, or
an error; `never` stands for a call that does not come back.

`Input.After` says that one input is what is left of another: it starts at or
behind its first byte, and ends where it ends.
-/

namespace Nanom.Nom

/-- `bytes`: a piece of the buffer, and how far from its start that is. -/
structure Span where
  data : Bytes
  offset : ℕ
deriving DecidableEq

/-- `input`: the bytes from `first` to `last`, the distance from `base` to
`first`, and whether the buffer is the front of a stream. -/
structure Input where
  bytes : Bytes
  offset : ℕ
  live : Bool
deriving DecidableEq

namespace Input

def size (i : Input) : ℕ := i.bytes.length

/-- `input::advance`, which is for `n <= size()`. -/
def advance (i : Input) (n : ℕ) : Input := ⟨i.bytes.drop n, i.offset + n, i.live⟩

/-- `input::operator[]`, which is for `k < size()`: there is nothing to read
elsewhere. -/
def index (i : Input) (k : ℕ) : Option UInt8 := i.bytes[k]?

def safeAt (i : Input) (k : ℕ) : Option UInt8 := if i.size ≤ k then none else i.index k

def checkedAdvance (i : Input) (n : ℕ) : Option Input :=
  if i.size < n then none else some (i.advance n)

/-- `input::with_range`: the cursor over another piece of the buffer. -/
def withRange (i : Input) (s : Span) : Input := ⟨s.data, s.offset, i.live⟩

/-- `input::take_span`, which is for `n <= size()`. -/
def takeSpan (i : Input) (n : ℕ) : Span := ⟨i.bytes.take n, i.offset⟩

/-- `from`: an input that is all of its buffer. -/
def ofBytes (b : Bytes) : Input := ⟨b, 0, false⟩

/-- `streaming`: the same bytes, as the front of a stream. -/
def streaming (i : Input) : Input := { i with live := true }

/-- The input after more of the stream has come in. -/
def extend (i : Input) (c : Bytes) : Input := { i with bytes := i.bytes ++ c }

section Lemmas

variable (i : Input) (n : ℕ) (c : Bytes)

@[simp] theorem size_advance : (i.advance n).size = i.size - n := List.length_drop

@[simp] theorem offset_advance : (i.advance n).offset = i.offset + n := rfl

@[simp] theorem bytes_advance : (i.advance n).bytes = i.bytes.drop n := rfl

@[simp] theorem advance_advance (m : ℕ) : (i.advance n).advance m = i.advance (n + m) := by
  simp [advance, add_assoc]

@[simp] theorem size_extend : (i.extend c).size = i.size + c.length := List.length_append

@[simp] theorem bytes_extend : (i.extend c).bytes = i.bytes ++ c := rfl

@[simp] theorem offset_extend : (i.extend c).offset = i.offset := rfl

variable {i n}

theorem advance_extend (h : n ≤ i.size) : (i.extend c).advance n = (i.advance n).extend c := by
  simp only [advance, extend, List.drop_append_of_le_length h]

theorem takeSpan_extend (h : n ≤ i.size) : (i.extend c).takeSpan n = i.takeSpan n := by
  simp only [takeSpan, extend, List.take_append_of_le_length h]

end Lemmas

/-! ## What is left of an input -/

/-- **What is left of an input**: its bytes from some point on. -/
def After (i rest : Input) : Prop := ∃ n ≤ i.size, rest = i.advance n

namespace After

variable {i j k : Input}

theorem advance {n : ℕ} (h : n ≤ i.size) : i.After (i.advance n) := ⟨n, h, rfl⟩

theorem refl (i : Input) : i.After i := ⟨0, Nat.zero_le _, rfl⟩

section

variable (h : i.After j)
include h

theorem trans (h' : j.After k) : i.After k := by
  obtain ⟨n, hn, rfl⟩ := h
  obtain ⟨m, hm, rfl⟩ := h'
  rw [size_advance] at hm
  exact ⟨n + m, by omega, advance_advance i n m⟩

theorem live_eq : j.live = i.live := by
  obtain ⟨n, -, rfl⟩ := h
  rfl

/-- Both end at the same place. -/
theorem last_eq : j.offset + j.size = i.offset + i.size := by
  obtain ⟨n, hn, rfl⟩ := h
  rw [offset_advance, size_advance]
  omega

theorem offset_le : i.offset ≤ j.offset := by
  obtain ⟨n, -, rfl⟩ := h
  exact Nat.le_add_right _ _

theorem size_le : j.size ≤ i.size := by
  have hlast := h.last_eq
  have hfirst := h.offset_le
  omega

/-- Another first byte is one further on. -/
theorem size_lt (hne : j.offset ≠ i.offset) : j.size < i.size := by
  have hlast := h.last_eq
  have hfirst := h.offset_le
  omega

theorem suffix : j.bytes <:+ i.bytes := by
  obtain ⟨n, -, rfl⟩ := h
  exact List.drop_suffix n i.bytes

/-- The rest is left by the first bytes. -/
theorem eq_advance : j.offset - i.offset ≤ i.size ∧ j = i.advance (j.offset - i.offset) := by
  obtain ⟨n, hn, rfl⟩ := h
  rw [offset_advance, Nat.add_sub_cancel_left]
  exact ⟨hn, rfl⟩

end

end After

end Input

/-! ## Errors -/

inductive Errk
  | err
  | fail
  | incomplete
deriving DecidableEq

structure Frame where
  label : String
  offset : ℕ

def maxContext : ℕ := 4

def maxIncompleteNeeded : ℕ := 64 * 1024

/-- `error`: `ctx` has the `nctx` frames that are in use. -/
structure Error where
  kind : Errk := .err
  offset : ℕ := 0
  expected : String := ""
  needed : ℕ := 0
  ctx : List Frame := []

def Error.pushContext (e : Error) (label : String) (off : ℕ) : Error :=
  if e.ctx.length < maxContext then { e with ctx := e.ctx ++ [⟨label, u32 off⟩] } else e

@[simp] theorem Error.kind_pushContext (e : Error) (label : String) (off : ℕ) :
    (e.pushContext label off).kind = e.kind := by
  rw [pushContext]
  split <;> rfl

def makeErr (at_ : Input) (expected : String) : Error :=
  { kind := .err, offset := u32 at_.offset, expected := expected }

/-- `make_incomplete`: an error of its own kind on a stream only. -/
def makeIncomplete (at_ : Input) (needed : ℕ) : Error :=
  { kind := if at_.live then .incomplete else .err
    offset := u32 (at_.offset + at_.size)
    expected := "more input"
    needed := min needed maxIncompleteNeeded }

theorem kind_makeIncomplete {i : Input} (h : i.live = true) (needed : ℕ) :
    (makeIncomplete i needed).kind = .incomplete := if_pos h

/-! ## Results -/

/-- What a call on a cursor of type `ι` comes to: a value and the rest, an
error, or nothing, where it does not come back. -/
inductive Outcome (ι α : Type)
  | done (value : α) (rest : ι)
  | unexp (e : Error)
  | never

abbrev Result (α : Type) : Type := Outcome Input α

abbrev Parser (α : Type) : Type := Input → Result α

namespace Outcome

variable {ι κ α β : Type}

/-- `if (!r) return unexp(r.error());`, and on from the value. -/
def andThen (r : Outcome ι α) (f : α → ι → Outcome κ β) : Outcome κ β :=
  match r with
  | .done v rest => f v rest
  | .unexp e => .unexp e
  | .never => .never

/-- The error changed, the value kept. -/
def mapError (r : Outcome ι α) (f : Error → Error) : Outcome ι α :=
  match r with
  | .done v rest => .done v rest
  | .unexp e => .unexp (f e)
  | .never => .never

@[simp] theorem andThen_done (v : α) (rest : ι) (f : α → ι → Outcome κ β) :
    (done v rest).andThen f = f v rest := rfl

@[simp] theorem andThen_unexp (e : Error) (f : α → ι → Outcome κ β) :
    (unexp e : Outcome ι α).andThen f = unexp e := rfl

end Outcome

end Nanom.Nom
