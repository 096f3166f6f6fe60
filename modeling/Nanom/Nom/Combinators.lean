import Nanom.Nom.Primitives

/-!
# The combinators without loops

Sequences, alternatives and modifiers. The functions that a combinator is
given are pure. A tuple of parsers and the tuple of their values have one
shape, `Tuple`, and a `permutation` fills a tuple of empty slots.
-/

namespace Nanom.Nom

variable {α β γ : Type}

/-! ## Sequences -/

/-- One thing for each type of a list: parsers, values, or slots for them. -/
def Tuple (F : Type → Type) : List Type → Type
  | [] => Unit
  | α :: αs => F α × Tuple F αs

/-- `detail::seq_step`, and `seq` for a list that is not empty. -/
def seq : (αs : List Type) → Tuple Parser αs → Parser (Tuple id αs)
  | [], _ => fun i => .done () i
  | _ :: αs, (p, ps) => fun i =>
    (p i).andThen fun v rest => (seq αs ps rest).andThen fun vs rest => .done (v, vs) rest

def pair (a : Parser α) (b : Parser β) : Parser (α × β) := fun i =>
  (a i).andThen fun x rest => (b rest).andThen fun y rest => .done (x, y) rest

def separatedPair (a : Parser α) (sep : Parser γ) (b : Parser β) : Parser (α × β) := fun i =>
  (a i).andThen fun x rest => (sep rest).andThen fun _ rest =>
    (b rest).andThen fun y rest => .done (x, y) rest

def preceded (skip : Parser α) (keep : Parser β) : Parser β := fun i =>
  (skip i).andThen fun _ rest => keep rest

def terminated (keep : Parser α) (skip : Parser β) : Parser α := fun i =>
  (keep i).andThen fun x rest => (skip rest).andThen fun _ rest => .done x rest

def delimited (op : Parser α) (body : Parser β) (close : Parser γ) : Parser β := fun i =>
  (op i).andThen fun _ rest => (body rest).andThen fun x rest =>
    (close rest).andThen fun _ rest => .done x rest

/-! ## Alternatives -/

/-- `detail::better`: the error that got further, the first of two that got
equally far. -/
def better (a b : Error) : Error := if a.offset < b.offset then b else a

theorem kind_better {a b : Error} {k : Errk} (ha : a.kind = k) (hb : b.kind = k) :
    (better a b).kind = k := by
  rw [better]
  split
  · exact hb
  · exact ha

/-- The text of an error that has none. -/
def Error.orExpected (e : Error) (expected : String) : Error :=
  if e.expected = "" then { e with expected := expected } else e

@[simp] theorem Error.kind_orExpected (e : Error) (expected : String) :
    (e.orExpected expected).kind = e.kind := by
  rw [orExpected]
  split <;> rfl

/-- `detail::alt_step`: the parsers give the common type already. -/
def altStep (i : Input) : Option Error → Parser α → List (Parser α) → Result α
  | best, p, ps =>
    match p i with
    | .done v rest => .done v rest
    | .never => .never
    | .unexp e =>
      -- a failure or an incomplete input ends the search
      if e.kind ≠ .err then .unexp e
      else
        let e := match best with
          | some b => better b e
          | none => e
        match ps with
        | [] => .unexp (e.orExpected "one of the alternatives")
        | q :: qs => altStep i (some e) q qs

def alt (p : Parser α) (ps : List (Parser α)) : Parser α := fun i => altStep i none p ps

/-- What a round of `permutation` comes to: a slot filled, no parser that
succeeds, or an error that ends it. `deepest` is the best error so far. -/
inductive Attempt (σ : Type)
  | progressed (slots : σ) (rest : Input) (deepest : Error)
  | stayed (deepest : Error)
  | abort (e : Error)
  | never

def Attempt.map {σ τ : Type} (f : σ → τ) : Attempt σ → Attempt τ
  | .progressed slots rest deepest => .progressed (f slots) rest deepest
  | .stayed deepest => .stayed deepest
  | .abort e => .abort e
  | .never => .never

/-- `try_one` for one parser after the other, up to the first that fills its
slot. -/
def tryOne (cur : Input) :
    (αs : List Type) → Tuple Parser αs → Tuple Option αs → Error → Attempt (Tuple Option αs)
  | [], _, _, deepest => .stayed deepest
  | _ :: αs, (_, ps), (some v, slots), deepest =>
    (tryOne cur αs ps slots deepest).map fun slots => (some v, slots)
  | _ :: αs, (p, ps), (none, slots), deepest =>
    match p cur with
    | .done v rest => .progressed (some v, slots) rest deepest
    | .never => .never
    | .unexp e =>
      if e.kind ≠ .err then .abort e
      else (tryOne cur αs ps slots (better deepest e)).map fun slots => (none, slots)

/-- Slots that are all empty. -/
def emptySlots : (αs : List Type) → Tuple Option αs
  | [] => ()
  | _ :: αs => (none, emptySlots αs)

/-- The values of slots that are all filled. -/
def filled : (αs : List Type) → Tuple Option αs → Option (Tuple id αs)
  | [], _ => some ()
  | _ :: αs, (slot, slots) => slot.bind fun v => (filled αs slots).map fun vs => (v, vs)

/-- The rounds of `permutation`. After the last one every slot is filled. -/
def permutationRounds (αs : List Type) (ps : Tuple Parser αs) :
    ℕ → Tuple Option αs → Input → Error → Result (Tuple id αs)
  | 0, slots, cur, _ =>
    match filled αs slots with
    | some vs => .done vs cur
    | none => .never
  | k + 1, slots, cur, deepest =>
    match tryOne cur αs ps slots deepest with
    | .progressed slots rest deepest => permutationRounds αs ps k slots rest deepest
    | .stayed deepest =>
      .unexp (if deepest.expected = "" then
        { deepest with offset := u32 cur.offset, expected := "permutation alternative" }
      else deepest)
    | .abort e => .unexp e
    | .never => .never

def permutation (αs : List Type) (ps : Tuple Parser αs) : Parser (Tuple id αs) := fun i =>
  permutationRounds αs ps αs.length (emptySlots αs) i {}

/-! ## Modifiers -/

/-- `map`, and `into` for a conversion. -/
def map (p : Parser α) (f : α → β) : Parser β := fun i =>
  (p i).andThen fun v rest => .done (f v) rest

/-- `map_opt`, of which `map_res` is another name. -/
def mapOpt (p : Parser α) (f : α → Option β) : Parser β := fun i =>
  (p i).andThen fun v rest =>
    match f v with
    | some w => .done w rest
    | none => .unexp (makeErr i "map_opt: conversion")

/-- `map_parser`: the value of `p` is bytes or text, which `span` gives. -/
def mapParser (span : α → Span) (p : Parser α) (q : Parser β) : Parser β := fun i =>
  (p i).andThen fun v rest =>
    (q (i.withRange (span v))).andThen fun w _ => .done w rest

def flatMap (p : Parser α) (f : α → Parser β) : Parser β := fun i =>
  (p i).andThen fun v rest => f v rest

/-- `opt`: nothing is made of any error that is not a failure. -/
def opt (p : Parser α) : Parser (Option α) := fun i =>
  match p i with
  | .done v rest => .done (some v) rest
  | .never => .never
  | .unexp e => if e.kind = .fail then .unexp e else .done none i

def cond (b : Bool) (p : Parser α) : Parser (Option α) := fun i =>
  if b then (p i).andThen fun v rest => .done (some v) rest else .done none i

def peek (p : Parser α) : Parser α := fun i => (p i).andThen fun v _ => .done v i

/-- `not_`: any error that is not a failure will do. -/
def not_ (p : Parser α) : Parser Unit := fun i =>
  match p i with
  | .done _ _ => .unexp (makeErr i "not: inner parser must fail")
  | .never => .never
  | .unexp e => if e.kind = .fail then .unexp e else .done () i

def recognize (p : Parser α) : Parser Span := fun i =>
  (p i).andThen fun _ rest => .done (i.takeSpan (rest.offset - i.offset)) rest

def consumed (p : Parser α) : Parser (Span × α) := fun i =>
  (p i).andThen fun v rest => .done (i.takeSpan (rest.offset - i.offset), v) rest

def value (v : β) (p : Parser α) : Parser β := fun i =>
  (p i).andThen fun _ rest => .done v rest

def verify (p : Parser α) (pred : α → Bool) : Parser α := fun i =>
  (p i).andThen fun v rest =>
    if pred v then .done v rest else .unexp (makeErr i "verify: predicate")

def success (v : α) : Parser α := fun i => .done v i

def fail (why : String) : Parser Unit := fun i => .unexp (makeErr i why)

def cut (p : Parser α) : Parser α := fun i =>
  (p i).mapError fun e => if e.kind = .err then { e with kind := .fail } else e

def complete (p : Parser α) : Parser α := fun i =>
  (p i).mapError fun e => if e.kind = .incomplete then { e with kind := .err } else e

def allConsuming (p : Parser α) : Parser α := fun i =>
  (p i).andThen fun v rest =>
    if rest.bytes.isEmpty then .done v rest
    else .unexp (makeErr rest "all_consuming: trailing bytes")

def context (label : String) (p : Parser α) : Parser α := fun i =>
  (p i).mapError fun e => e.pushContext label i.offset

/-! ## Lengths -/

/-- `length_data`: `size` is the conversion of the length to `std::size_t`. -/
def lengthData (size : α → ℕ) (np : Parser α) : Parser Span := fun i =>
  (np i).andThen fun n rest => take (size n) rest

/-- `length_value`: what does not fit its length is an error like any other. -/
def lengthValue (size : α → ℕ) (np : Parser α) (p : Parser β) : Parser β := fun i =>
  (lengthData size np i).andThen fun s rest =>
    ((p (i.withRange s)).mapError fun e =>
      if e.kind = .incomplete then
        { e with kind := .err, expected := "value fitting its length prefix" }
      else e).andThen fun v _ => .done v rest

end Nanom.Nom
