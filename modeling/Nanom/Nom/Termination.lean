import Nanom.Nom.Forward
import Nanom.Nom.Repetition

/-!
# Loops come to an end

A round of a loop takes a byte or is the last one, so a loop over a parser that
moves forward comes to its end within its input, and calls the parser at most
twice more than there are bytes. With that all of the library moves forward:
`Built` are the parsers that are put together from its primitives and
combinators.
-/

namespace Nanom.Nom

variable {i : Input}
variable {α β γ : Type}

open Input (After)

/-! ## Loops -/

section Loops

variable {p : Parser α} {end_ : Parser γ} {sep : Parser γ}
variable {s : Listing α}

/-- What a repetition from a state on comes to: it ends inside the input, with
a call for each byte and one more. A limit ends it without that one. -/
structure Repetition (s : Repeating β) (r : Result (Repeated β) × ℕ) : Prop where
  leaves : r.1.Leaves s.cur.After
  calls_le : r.2 ≤ s.calls + s.cur.size + 1
  full_le : ∀ {t cur}, r.1 = .done t cur → t.full = true → r.2 ≤ s.calls + s.cur.size

theorem repetition_ends (hp : Forward p) (limit : Option ℕ) (stuck : String) (f : β → α → β)
    (s : Repeating β) : Repetition s (repetition p limit stuck f s) := by
  suffices H : ∃ r, Loop.run (repetitionRound p limit stuck f) (s.cur.size + 1) s = some r ∧
      Repetition s r by
    obtain ⟨r, hrun, hr⟩ := H
    rwa [repetition, hrun]
  -- a round that goes on has taken a byte and made a call
  refine Loop.run_inv (I := fun t => s.cur.After t.cur ∧
    t.calls + t.cur.size ≤ s.calls + s.cur.size) (fun t => t.cur.size) ?_
    ⟨After.refl _, le_refl _⟩ (Nat.lt_succ_self _)
  rintro t ⟨hafter, hcalls⟩
  have hstop : ∀ e : Error, Repetition s (.unexp e, t.calls + 1) := fun e =>
    ⟨trivial, by dsimp only; omega, fun h => by cases h⟩
  by_cases hlimit : limit = some t.got
  · refine .inr ⟨(.done ⟨t.acc, t.got, true⟩ t.cur, t.calls), ?_, hafter, ?_, ?_⟩
    · rw [repetitionRound, if_pos hlimit]
    · omega
    · dsimp only
      omega
  have hcur := hp t.cur
  cases hcall : p t.cur with
  | never => exact absurd hcall hcur.ne_never
  | unexp e =>
    by_cases hkind : e.kind = .err
    · refine .inr ⟨(.done ⟨t.acc, t.got, false⟩ t.cur, t.calls + 1), ?_, hafter, ?_, ?_⟩
      · rw [repetitionRound, if_neg hlimit, hcall]
        simp only [hkind, ne_eq, not_true_eq_false, if_false]
      · omega
      · intro u cur hu hfull
        cases hu
        cases hfull
    · refine .inr ⟨_, ?_, hstop e⟩
      rw [repetitionRound, if_neg hlimit, hcall]
      simp only [hkind, ne_eq, not_false_eq_true, if_true]
  | done v rest =>
    have hrest : t.cur.After rest := hcur.of_done hcall
    by_cases hsame : rest.offset = t.cur.offset
    · refine .inr ⟨_, ?_, hstop (makeErr t.cur stuck)⟩
      rw [repetitionRound, if_neg hlimit, hcall]
      simp only [hsame, if_true]
    have hlt := hrest.size_lt hsame
    refine .inl ⟨⟨f t.acc v, t.got + 1, rest, t.calls + 1⟩, ?_, ⟨hafter.trans hrest, ?_⟩, hlt⟩
    · rw [repetitionRound, if_neg hlimit, hcall]
      simp only [hsame, if_false]
    · dsimp only
      omega

/-- A loop over one parser: it ends inside the input, and calls the parser no
more than so often. -/
def Ends (i : Input) (r : Result β × ℕ) : Prop := r.1.Leaves i.After ∧ r.2 ≤ i.size + 2

theorem Repetition.only {s : Repeating β} {r : Result (Repeated β) × ℕ} (h : Repetition s r)
    (hi : i.After s.cur) (hcalls : s.calls ≤ 1) : Ends i (Repeated.only r) := by
  have hsize := hi.size_le
  have hle := h.calls_le
  refine ⟨h.leaves.andThen fun _ _ hrest => hi.trans hrest, ?_⟩
  rw [Repeated.only]
  omega

theorem Repetition.atLeast {s : Repeating β} {r : Result (Repeated β) × ℕ}
    (h : Repetition s r) (m : ℕ) (few : String) (hcalls : s.calls = 0) :
    Ends s.cur (Repeated.atLeast m few r) := by
  have hle := h.calls_le
  refine ⟨h.leaves.andThen fun _ _ hrest => ?_, ?_⟩
  · split
    · exact trivial
    · exact hrest
  · rw [Repeated.atLeast]
    omega

theorem ends_withFirst {next : α → Input → Result β × ℕ} (hp : Forward p)
    (hnext : ∀ v rest, i.After rest → Ends i (next v rest)) : Ends i (withFirst p i next) := by
  have hi := hp i
  rw [withFirst]
  split
  · exact hnext _ _ (hi.of_done ‹_›)
  · exact ⟨trivial, by dsimp only; omega⟩
  · exact absurd ‹_› hi.ne_never

theorem ends_many0 (hp : Forward p) (i : Input) : Ends i (many0Calls p i) :=
  (repetition_ends hp _ _ _ _).only (After.refl i) (Nat.zero_le _)

theorem ends_checkedMany0 (hp : Forward p) (maxRep : ℕ) (i : Input) :
    Ends i (checkedMany0Calls p maxRep i) := by
  have hrep := repetition_ends hp (some maxRep)
    "checked_many0: inner parser must consume input" push ⟨[], 0, i, 0⟩
  rw [checkedMany0Calls]
  generalize repetition p (some maxRep) _ push ⟨[], 0, i, 0⟩ = r at hrep
  obtain ⟨r, calls⟩ := r
  have hcalls : calls ≤ 0 + i.size + 1 := hrep.calls_le
  cases r with
  | never => exact hrep.leaves.elim
  | unexp e => exact ⟨trivial, by dsimp only; omega⟩
  | done t cur =>
    have hafter : i.After cur := hrep.leaves
    dsimp only
    split
    · -- the probe is one more call, which the limit has left room for
      have hcur := hp cur
      split
      · exact ⟨trivial, by dsimp only; omega⟩
      · exact absurd ‹_› hcur.ne_never
      · refine ⟨?_, by dsimp only; omega⟩
        split
        · exact trivial
        · exact hafter
    · exact ⟨hafter, by dsimp only; omega⟩

theorem ends_many1 (hp : Forward p) (i : Input) : Ends i (many1Calls p i) :=
  ends_withFirst hp fun v rest hrest => by
    have hmore := (repetition_ends hp none "many0: inner parser must consume input" push
      ⟨[], 0, rest, 1⟩).only hrest (le_refl 1)
    exact ⟨hmore.1.thenDone, hmore.2⟩

theorem ends_manyMN (m n : ℕ) (hp : Forward p) (i : Input) : Ends i (manyMNCalls m n p i) :=
  (repetition_ends hp _ _ _ _).atLeast m _ rfl

section

variable (hp : Forward p) (init : β) (f : β → α → β) (i : Input)
include hp

theorem ends_foldMany0 : Ends i (foldMany0Calls p init f i) :=
  (repetition_ends hp _ _ _ _).only (After.refl i) (Nat.zero_le _)

theorem ends_foldMany1 : Ends i (foldMany1Calls p init f i) :=
  ends_withFirst hp fun _ _ hrest => (repetition_ends hp _ _ _ _).only hrest (le_refl 1)

end

theorem ends_foldManyMN (m n : ℕ) (hp : Forward p) (init : β) (f : β → α → β) (i : Input) :
    Ends i (foldManyMNCalls m n p init f i) := (repetition_ends hp _ _ _ _).atLeast m _ rfl

/-- A loop over two parsers, likewise. -/
def EndsBoth (i : Input) (r : Result β × Calls) : Prop :=
  r.1.Leaves i.After ∧ r.2.item ≤ i.size + 2 ∧ r.2.other ≤ i.size + 2

/-- What holds of a loop over two parsers on its way. -/
def OnWay (i : Input) (s : Listing α) : Prop :=
  i.After s.cur ∧ s.calls.item + s.cur.size ≤ i.size + 1 ∧ s.calls.other + s.cur.size ≤ i.size

theorem OnWay.next {rest : Input} (h : OnWay i s) (hrest : s.cur.After rest)
    (hne : rest.offset ≠ s.cur.offset) (out : List α) :
    OnWay i ⟨out, rest, ⟨s.calls.item + 1, s.calls.other + 1⟩⟩ ∧ rest.size < s.cur.size := by
  have hlt := hrest.size_lt hne
  obtain ⟨hafter, hitem, hother⟩ := h
  exact ⟨⟨hafter.trans hrest, by dsimp only; omega, by dsimp only; omega⟩, hlt⟩

theorem OnWay.stop {r : Result β} (h : OnWay i s) (hr : r.Leaves i.After) :
    EndsBoth i (r, ⟨s.calls.item, s.calls.other + 1⟩) ∧
      EndsBoth i (r, ⟨s.calls.item + 1, s.calls.other + 1⟩) := by
  obtain ⟨-, hitem, hother⟩ := h
  exact ⟨⟨hr, by dsimp only; omega, by dsimp only; omega⟩,
    ⟨hr, by dsimp only; omega, by dsimp only; omega⟩⟩

theorem manyTillRound_ends (hp : Forward p) (hend : Forward end_) (hs : OnWay i s) :
    (∃ s', manyTillRound p end_ s = .next s' ∧ OnWay i s' ∧ s'.cur.size < s.cur.size) ∨
      ∃ r, manyTillRound p end_ s = .stop r ∧ EndsBoth i r := by
  have hafter := hs.1
  have herr : ∀ e : Error, (.unexp e : Result (List α × γ)).Leaves i.After := fun _ => trivial
  have hcur := hend s.cur
  have hitem := hp s.cur
  rw [manyTillRound]
  split
  · exact .inr ⟨_, rfl, (hs.stop (.done (hafter.trans (hcur.of_done ‹_›)))).1⟩
  · exact absurd ‹_› hcur.ne_never
  split
  · exact .inr ⟨_, rfl, (hs.stop (herr _)).1⟩
  split
  · exact absurd ‹_› hitem.ne_never
  · exact .inr ⟨_, rfl, (hs.stop (herr _)).2⟩
  · split
    · exact .inr ⟨_, rfl, (hs.stop (herr _)).2⟩
    · exact .inl ⟨_, rfl, hs.next (hitem.of_done ‹_›) ‹_› _⟩

theorem ends_manyTill (hp : Forward p) (hend : Forward end_) (i : Input) :
    EndsBoth i (manyTillCalls p end_ i) := by
  obtain ⟨r, hrun, hr⟩ := Loop.run_inv (fun s : Listing α => s.cur.size)
    (fun s hs => manyTillRound_ends hp hend hs)
    (s := ⟨[], i, ⟨0, 0⟩⟩) (I := OnWay i)
    ⟨After.refl i, by dsimp only; omega, by dsimp only; omega⟩ (Nat.lt_succ_self _)
  rwa [manyTillCalls, hrun]

section

variable (hsep : Forward sep) (hp : Forward p)
include hsep hp

theorem separatedRound_ends (hs : OnWay i s) :
    (∃ s', separatedRound sep p s = .next s' ∧ OnWay i s' ∧ s'.cur.size < s.cur.size) ∨
      ∃ r, separatedRound sep p s = .stop r ∧ EndsBoth i r := by
  have hafter := hs.1
  have herr : ∀ e : Error, (.unexp e : Result (List α)).Leaves i.After := fun _ => trivial
  have hcur := hsep s.cur
  rw [separatedRound]
  split
  · exact absurd ‹_› hcur.ne_never
  · split
    · exact .inr ⟨_, rfl, (hs.stop (herr _)).1⟩
    · exact .inr ⟨_, rfl, (hs.stop (.done hafter)).1⟩
  rename_i behind hsepcall
  have hbehind := hcur.of_done hsepcall
  have hitem := hp behind
  split
  · exact absurd ‹_› hitem.ne_never
  · split
    · exact .inr ⟨_, rfl, (hs.stop (herr _)).2⟩
    · exact .inr ⟨_, rfl, (hs.stop (.done hafter)).2⟩
  · split
    · exact .inr ⟨_, rfl, (hs.stop (herr _)).2⟩
    · exact .inl ⟨_, rfl, hs.next (hbehind.trans (hitem.of_done ‹_›)) ‹_› _⟩

theorem ends_separatedRest (hs : OnWay i s) : EndsBoth i (separatedRest sep p s) := by
  obtain ⟨r, hrun, hr⟩ := Loop.run_inv (fun s : Listing α => s.cur.size)
    (fun s hs => separatedRound_ends hsep hp hs) hs (Nat.lt_succ_self _)
  rwa [separatedRest, hrun]

theorem ends_separatedList0 (i : Input) : EndsBoth i (separatedList0Calls sep p i) := by
  have hi := hp i
  rw [separatedList0Calls]
  split
  · exact absurd ‹_› hi.ne_never
  · refine ⟨?_, by dsimp only; omega, by dsimp only; omega⟩
    split
    · exact trivial
    · exact After.refl i
  · have hrest := hi.of_done ‹_›
    have hsize := hrest.size_le
    exact ends_separatedRest hsep hp
      ⟨hrest, by dsimp only; omega, by dsimp only; omega⟩

theorem ends_separatedList1 (i : Input) : EndsBoth i (separatedList1Calls sep p i) := by
  obtain ⟨hleaves, hcalls⟩ := ends_separatedList0 hsep hp i
  refine ⟨hleaves.andThen fun vs rest hrest => ?_, hcalls⟩
  split
  · exact trivial
  · exact hrest

end

theorem forward_countFrom (hp : Forward p) (n : ℕ) (out : List α) :
    Forward (countFrom p n out) := by
  induction n generalizing out with
  | zero => exact fun cur => After.refl cur
  | succ n ih => exact fun cur => (hp cur).thenForward fun v => ih (out ++ [v])

end Loops

/-! ## The library -/

mutual

/-- **The parsers that are built** from primitives and combinators, out of
parsers that move forward. -/
inductive Built : {α : Type} → Parser α → Prop
  | tag (pattern : Bytes) : Built (tag pattern)
  | tagNoCase (pattern : Bytes) : Built (tagNoCase pattern)
  | take (n : ℕ) : Built (take n)
  | chr (c : UInt8) : Built (chr c)
  | satisfy (pred : UInt8 → Bool) : Built (satisfy pred)
  | oneOf (set : Bytes) : Built (oneOf set)
  | noneOf (set : Bytes) : Built (noneOf set)
  | anychar : Built anychar
  | readUint (n : ℕ) (order : Endian) : Built (readUint n order)
  | readInt (n : ℕ) (order : Endian) : Built (readInt n order)
  | readFloat (n : ℕ) (order : Endian) : Built (readFloat n order)
  | leArrayOf (w n : ℕ) : Built (leArrayOf w n)
  | takePred (pred : UInt8 → Bool) (min : ℕ) (max : Option ℕ) (what : String) :
      Built (takePred pred min max what)
  | lineEnding (literal : ℕ) : Built (lineEnding literal)
  | takeUntil (needle : Bytes) : Built (takeUntil needle)
  | eof : Built eof
  | rest : Built rest
  | restLen : Built restLen
  | uleb128 (bits : ℕ) : Built (uleb128 bits)
  | sleb128 (bits : ℕ) : Built (sleb128 bits)
  | zigzagVarint (bits : ℕ) : Built (zigzagVarint bits)
  | dec (signed : Bool) (bits : ℕ) : Built (dec signed bits)
  | hex (bits : ℕ) : Built (hex bits)
  | double_ {F : Type} (lib : FromChars F) : Built (double_ lib)
  | float_ {F G : Type} (lib : FromChars F) (narrow : F → G) : Built (float_ lib narrow)
  | seq {αs : List Type} {ps : Tuple Parser αs} : (∀ k, Built (ps.get αs k)) → Built (seq αs ps)
  | pair : Built p → Built q → Built (pair p q)
  | separatedPair : Built p → Built s → Built q → Built (separatedPair p s q)
  | preceded : Built p → Built q → Built (preceded p q)
  | terminated : Built p → Built q → Built (terminated p q)
  | delimited : Built o → Built p → Built c → Built (delimited o p c)
  | alt {α : Type} {p : Parser α} {ps : List (Parser α)} :
      Built p → (∀ q ∈ ps, Built q) → Built (alt p ps)
  | permutation {αs : List Type} {ps : Tuple Parser αs} :
      (∀ k, Built (ps.get αs k)) → Built (permutation αs ps)
  | many0 : Built p → Built (many0 p)
  | checkedMany0 (maxRep : ℕ) : Built p → Built (checkedMany0 p maxRep)
  | many1 : Built p → Built (many1 p)
  | manyMN (m n : ℕ) : Built p → Built (manyMN m n p)
  | manyTill : Built p → Built e → Built (manyTill p e)
  | foldMany0 {α β : Type} {p : Parser α} (init : β) (f : β → α → β) :
      Built p → Built (foldMany0 p init f)
  | foldMany1 {α β : Type} {p : Parser α} (init : β) (f : β → α → β) :
      Built p → Built (foldMany1 p init f)
  | foldManyMN {α β : Type} {p : Parser α} (m n : ℕ) (init : β) (f : β → α → β) :
      Built p → Built (foldManyMN m n p init f)
  | separatedList0 : Built s → Built p → Built (separatedList0 s p)
  | separatedList1 : Built s → Built p → Built (separatedList1 s p)
  | count (n : ℕ) : Built p → Built (count p n)
  | lengthData {α : Type} {p : Parser α} (size : α → ℕ) : Built p → Built (lengthData size p)
  | lengthValue {α β : Type} {n : Parser α} {p : Parser β} (size : α → ℕ) :
      Built n → Built p → Built (lengthValue size n p)
  | lengthCount {α β : Type} {n : Parser α} {p : Parser β} (size : α → ℕ) :
      Built n → Built p → Built (lengthCount size n p)
  | map {α β : Type} {p : Parser α} (f : α → β) : Built p → Built (map p f)
  | mapOpt {α β : Type} {p : Parser α} (f : α → Option β) : Built p → Built (mapOpt p f)
  | mapParser {α β : Type} {p : Parser α} {q : Parser β} (span : α → Span) :
      Built p → Built q → Built (mapParser span p q)
  | flatMap {α β : Type} {p : Parser α} {f : α → Parser β} :
      Built p → (∀ v, Built (f v)) → Built (flatMap p f)
  | opt : Built p → Built (opt p)
  | cond (b : Bool) : Built p → Built (cond b p)
  | peek : Built p → Built (peek p)
  | not_ : Built p → Built (not_ p)
  | recognize : Built p → Built (recognize p)
  | consumed : Built p → Built (consumed p)
  | value {α β : Type} {p : Parser α} (v : β) : Built p → Built (value v p)
  | verify {α : Type} {p : Parser α} (pred : α → Bool) : Built p → Built (verify p pred)
  | success {α : Type} (v : α) : Built (success v)
  | fail (why : String) : Built (fail why)
  | cut : Built p → Built (cut p)
  | complete : Built p → Built (complete p)
  | allConsuming : Built p → Built (allConsuming p)
  | context (label : String) : Built p → Built (context label p)
  | bits : BitBuilt bp → Built (bits bp)
  | leaf : Forward p → Built p

/-- The bit parsers, likewise. -/
inductive BitBuilt : {α : Type} → BitParser α → Prop
  | leaf : BitForward bp → BitBuilt bp
  | takeBits {α : Type} (conv : ℕ → α) (n : ℕ) (ord : BitOrder) :
      BitBuilt (takeBits conv n ord)
  | tagBits (pattern n : ℕ) (ord : BitOrder) : BitBuilt (tagBits pattern n ord)
  | boolBit (ord : BitOrder) : BitBuilt (boolBit ord)
  | bseq {αs : List Type} {ps : Tuple BitParser αs} :
      (∀ k, BitBuilt (ps.get αs k)) → BitBuilt (bseq αs ps)
  | bytes_ : Built p → BitBuilt (bytes_ p)

end

mutual

/-- Every parser of the library moves forward. -/
theorem Built.forward {α : Type} {p : Parser α} : Built p → Forward p
  | .leaf hp => hp
  | .tag _ | .tagNoCase _ | .take _ | .readUint _ _ | .readInt _ _ | .readFloat _ _ => .exactly _ _
  | .chr _ | .satisfy _ | .oneOf _ | .noneOf _ | .anychar => .oneChar _ _
  | .leArrayOf w n => .leArrayOf w n
  | .takePred pred min max what => .takePred pred min max what
  | .lineEnding literal => .lineEnding literal
  | .takeUntil needle => .takeUntil needle
  | .eof => .eof
  | .rest => fun _ => After.advance (le_refl _)
  | .restLen | .success _ => After.refl
  | .fail _ => fun _ => trivial
  | .uleb128 bits => .uleb128 bits
  | .sleb128 bits => .sleb128 bits
  | .zigzagVarint bits => .zigzagVarint bits
  | .dec _ _ | .hex _ => .textNumber fromChars_used
  | .double_ lib => .textNumber lib.used_le
  | .float_ lib _ => .map (.textNumber lib.used_le) _
  | .seq hps => .seq fun k => (hps k).forward
  | .pair hp hq | .terminated hp hq => hp.forward.flatMap fun _ => hq.forward.map _
  | .separatedPair hp hs hq | .delimited hp hs hq =>
    hp.forward.flatMap fun _ => hs.forward.flatMap fun _ => hq.forward.map _
  | .preceded hp hq => hp.forward.preceded hq.forward
  | .alt hp hps => hp.forward.alt fun q hq => (hps q hq).forward
  | .permutation hps => .permutation fun k => (hps k).forward
  | .many0 hp => fun i => (ends_many0 hp.forward i).1
  | .checkedMany0 maxRep hp => fun i => (ends_checkedMany0 hp.forward maxRep i).1
  | .many1 hp => fun i => (ends_many1 hp.forward i).1
  | .manyMN m n hp => fun i => (ends_manyMN m n hp.forward i).1
  | .manyTill hp he => fun i => (ends_manyTill hp.forward he.forward i).1
  | .foldMany0 init f hp => fun i => (ends_foldMany0 hp.forward init f i).1
  | .foldMany1 init f hp => fun i => (ends_foldMany1 hp.forward init f i).1
  | .foldManyMN m n init f hp => fun i => (ends_foldManyMN m n hp.forward init f i).1
  | .separatedList0 hs hp => fun i => (ends_separatedList0 hs.forward hp.forward i).1
  | .separatedList1 hs hp => fun i => (ends_separatedList1 hs.forward hp.forward i).1
  | .count n hp => forward_countFrom hp.forward n []
  | .lengthData _ hp => hp.forward.flatMap fun _ => .exactly _ _
  | .lengthValue size hn hp => hn.forward.lengthValue size hp.forward
  | .lengthCount _ hn hp => hn.forward.flatMap fun _ => forward_countFrom hp.forward _ []
  | .map _ hp | .recognize hp | .consumed hp | .value _ hp => fun i => (hp.forward i).thenDone
  | .mapOpt _ hp | .verify _ hp | .allConsuming hp => fun i =>
    (hp.forward i).andThen fun _ _ hrest => by
      split
      · exact hrest
      · exact trivial
  | .mapParser span hp hq => hp.forward.mapParser span hq.forward
  | .flatMap hp hf => hp.forward.flatMap fun v => (hf v).forward
  | .opt hp => hp.forward.opt
  | .cond b hp => hp.forward.cond b
  | .peek hp => hp.forward.peek
  | .not_ hp => hp.forward.not_
  | .cut hp | .complete hp | .context _ hp => fun i => (hp.forward i).mapError
  | .bits hbp => .bits hbp.forward

theorem BitBuilt.forward {α : Type} {bp : BitParser α} : BitBuilt bp → BitForward bp
  | .leaf hbp => hbp
  | .takeBits _ n ord => fun bi hbi => (BitForward.readBits n ord bi hbi).andThen fun _ _ => id
  | .boolBit ord => fun bi hbi => (BitForward.readBits 1 ord bi hbi).andThen fun _ _ => id
  | .tagBits pattern n ord => .tagBits pattern n ord
  | .bseq hps => .bseq fun k => (hps k).forward
  | .bytes_ hp => .bytes_ hp.forward

end

/-- **Parsers only move forward inside their input, and loops come to an end.**
What a parser of the library leaves is the end of its input. A loop over
parsers that move forward calls each of them at most twice more than there are
bytes, also one that takes nothing. -/
theorem built_forward_loops_end :
    (∀ {α : Type} {p : Parser α}, Built p → ∀ i, p i ≠ .never ∧ ∀ {v rest}, p i = .done v rest →
        rest.bytes <:+ i.bytes ∧ rest.offset + rest.size = i.offset + i.size ∧
          i.offset ≤ rest.offset ∧ rest.offset ≤ i.offset + i.size) ∧
    ∀ {α γ : Type} {p : Parser α} {q : Parser γ}, Forward p → Forward q → ∀ i,
      Ends i (many0Calls p i) ∧ (∀ maxRep, Ends i (checkedMany0Calls p maxRep i)) ∧
      Ends i (many1Calls p i) ∧ (∀ m n, Ends i (manyMNCalls m n p i)) ∧
      EndsBoth i (manyTillCalls p q i) ∧
      (∀ {β : Type} (init : β) (f : β → α → β), Ends i (foldMany0Calls p init f i) ∧
        Ends i (foldMany1Calls p init f i) ∧ ∀ m n, Ends i (foldManyMNCalls m n p init f i)) ∧
      EndsBoth i (separatedList0Calls q p i) ∧ EndsBoth i (separatedList1Calls q p i) := by
  constructor
  · intro α p hp i
    have hi := hp.forward i
    refine ⟨hi.ne_never, fun {v rest} hrun => ?_⟩
    have hrest := hi.of_done hrun
    have hlast := hrest.last_eq
    exact ⟨hrest.suffix, hlast, hrest.offset_le, by omega⟩
  · intro α γ p q hp hq i
    exact ⟨ends_many0 hp i, fun maxRep => ends_checkedMany0 hp maxRep i, ends_many1 hp i,
      fun m n => ends_manyMN m n hp i, ends_manyTill hp hq i,
      fun init f => ⟨ends_foldMany0 hp init f i, ends_foldMany1 hp init f i,
        fun m n => ends_foldManyMN m n hp init f i⟩,
      ends_separatedList0 hq hp i, ends_separatedList1 hq hp i⟩

/-- The inner parser takes nothing. -/
theorem built_forward_loops_end_success :
    many0 (success ()) (.ofBytes [1, 2]) ≠ .never ∧
      Ends (.ofBytes [1, 2]) (many0Calls (success ()) (.ofBytes [1, 2])) :=
  ⟨(built_forward_loops_end.1 (.many0 (.success ())) _).1,
    (built_forward_loops_end.2 (Forward.success ()) (Forward.success ()) _).1⟩

end Nanom.Nom
