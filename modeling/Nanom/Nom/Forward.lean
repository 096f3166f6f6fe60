import Nanom.Nom.Bits

/-!
# Parsers move forward inside their input

`Forward` says of a parser that it comes back, and that what it leaves is left
of its input. All primitives are such parsers, and the combinators make such
parsers of such parsers, also those that run a parser on a piece of the input
or go back to its start.
-/

namespace Nanom.Nom

open List

variable {α β γ ι κ : Type}
variable {base k n v : ℕ} {b : Bytes}

/-! ## What a call leaves -/

/-- A call comes back, and the rest of a success is as `P` says. -/
def Outcome.Leaves (P : ι → Prop) : Outcome ι α → Prop
  | .done _ rest => P rest
  | .unexp _ => True
  | .never => False

namespace Outcome.Leaves

variable {P : ι → Prop} {Q : κ → Prop} {r : Outcome ι α}

theorem done {v : α} {rest : ι} (h : P rest) : (Outcome.done v rest).Leaves P := h

section

variable (h : r.Leaves P)
include h

theorem ne_never : r ≠ .never := by
  rintro rfl
  exact h

theorem of_done {v : α} {rest : ι} (hr : r = .done v rest) : P rest := by
  subst hr
  exact h

theorem mono {P' : ι → Prop} (hP : ∀ rest, P rest → P' rest) : r.Leaves P' := by
  cases r with
  | done v rest => exact hP rest h
  | unexp e => exact trivial
  | never => exact h

theorem andThen {f : α → ι → Outcome κ β}
    (hf : ∀ v rest, P rest → (f v rest).Leaves Q) : (r.andThen f).Leaves Q := by
  cases r with
  | done v rest => exact hf v rest h
  | unexp e => exact trivial
  | never => exact h

theorem mapError {f : Error → Error} : (r.mapError f).Leaves P := by
  cases r with
  | done v rest => exact h
  | unexp e => exact trivial
  | never => exact h

end

end Outcome.Leaves

/-- **A parser that moves forward inside its input**: it comes back, and
leaves what is left of its input. -/
def Forward (p : Parser α) : Prop := ∀ i, (p i).Leaves i.After

namespace Outcome.Leaves

variable {i : Input} {r : Result α}

/-- A parser behind another one. -/
theorem thenForward {f : α → Parser β} (h : r.Leaves i.After) (hf : ∀ v, Forward (f v)) :
    (r.andThen f).Leaves i.After :=
  h.andThen fun v rest hrest => (hf v rest).mono fun _ hlast => hrest.trans hlast

theorem thenDone {f : α → Input → β} (h : r.Leaves i.After) :
    (r.andThen fun v rest => .done (f v rest) rest).Leaves i.After :=
  h.andThen fun _ _ hrest => hrest

end Outcome.Leaves

open Input (After)
open Input.After (advance refl)

/-! ## Primitives -/

section Primitives

theorem Forward.exactly (n : ℕ) (f : Span → Except String α) : Forward (exactly n f) := by
  intro i
  rw [Nom.exactly]
  split
  · exact trivial
  · split
    · exact advance (by omega)
    · exact trivial

theorem Forward.oneChar (expected : String) (ok : UInt8 → Bool) :
    Forward (oneChar expected ok) := .exactly _ _

theorem leading_le (pred : UInt8 → Bool) (max : Option ℕ) (i : Input) :
    leading pred max i ≤ i.size :=
  le_trans (takeWhile_sublist _).length_le (length_take_le' _ i.bytes)

theorem Forward.takePred (pred : UInt8 → Bool) (min : ℕ) (max : Option ℕ) (what : String) :
    Forward (takePred pred min max what) := by
  intro i
  simp only [Nom.takePred]
  split
  · split <;> exact trivial
  · exact advance (leading_le pred max i)

theorem Forward.leArrayOf (w n : ℕ) : Forward (leArrayOf w n) := by
  intro i
  rw [Nom.leArrayOf]
  split
  · rename_i hfits
    refine advance ?_
    rcases hfits with rfl | hle
    · rw [mul_zero]
      exact Nat.zero_le _
    · exact le_trans (Nat.mul_le_mul_right w hle) (Nat.div_mul_le_self i.size w)
  · exact trivial

theorem Forward.lineEnding (literal : ℕ) : Forward (lineEnding literal) := by
  rintro ⟨b, off, live⟩
  rcases b with _ | ⟨b, _ | ⟨b', t⟩⟩
  · exact trivial
  · simp only [Nom.lineEnding]
    split
    · exact advance (by simp [Input.size])
    · split <;> exact trivial
  simp only [Nom.lineEnding]
  split
  · exact advance (by simp [Input.size])
  split
  · split
    · exact advance (by simp [Input.size])
    · exact trivial
  · exact trivial

/-- The needle lies in the haystack. -/
theorem search_add_le {needle hay : Bytes} (h : search needle hay = some n) :
    n + needle.length ≤ hay.length := by
  induction hay generalizing n with
  | nil =>
    rw [search] at h
    split at h
    · rename_i hempty
      cases h
      rw [List.isEmpty_iff.1 hempty]
      exact le_refl _
    · cases h
  | cons x hay ih =>
    rw [search] at h
    split at h
    · rename_i hfront
      cases h
      rw [zero_add]
      have hpre := isPrefixOf_iff_prefix.1 hfront
      exact hpre.length_le
    · obtain ⟨m, hm, rfl⟩ := Option.map_eq_some_iff.1 h
      have hle := ih hm
      rw [length_cons]
      omega

theorem Forward.takeUntil (needle : Bytes) : Forward (takeUntil needle) := by
  intro i
  rw [Nom.takeUntil]
  split
  · exact trivial
  · rename_i n hn
    split
    · exact trivial
    · exact advance ((Nat.le_add_right n _).trans (search_add_le hn))

theorem Forward.eof : Forward eof := by
  intro i
  rw [Nom.eof]
  split
  · exact refl i
  · exact trivial

theorem Forward.varint {read : Bytes → Except Wire.VarintError (α × ℕ)}
    (hread : ∀ {b v n}, read b = .ok (v, n) → n ≤ b.length) : Forward (varint read) := by
  intro i
  rw [Nom.varint]
  split
  · exact advance (hread ‹_›)
  · exact trivial
  · exact trivial

theorem readUleb128From_used {bits : ℕ} {w : ℕ}
    (h : Wire.readUleb128From bits k v b = .ok (w, n)) : n ≤ k + b.length := by
  induction b generalizing k v with
  | nil => cases h
  | cons x b ih =>
    rw [length_cons]
    simp only [Wire.readUleb128From] at h
    split at h
    · split at h
      · cases h
      · cases h
        omega
    · split at h
      · cases h
        omega
      · have hrest := ih h
        omega

theorem Forward.uleb128 (bits : ℕ) : Forward (uleb128 bits) :=
  Forward.varint fun h => by
    have hused := readUleb128From_used h
    rw [length_take] at hused
    omega

theorem readSleb128From_used {bits : ℕ} {w : ℤ}
    (h : readSleb128From bits k v b = .ok (w, n)) : n ≤ k + b.length := by
  induction b generalizing k v with
  | nil => cases h
  | cons x b ih =>
    rw [length_cons]
    simp only [readSleb128From] at h
    split at h
    · split at h
      · split at h
        · cases h
        · cases h
          omega
      · split at h
        · cases h
          omega
        · cases h
          omega
    · split at h
      · cases h
      · have hrest := ih h
        omega

theorem Forward.sleb128 (bits : ℕ) : Forward (sleb128 bits) :=
  Forward.varint fun h => by
    have hused := readSleb128From_used h
    rw [length_take] at hused
    omega

theorem Forward.zigzagVarint (bits : ℕ) : Forward (zigzagVarint bits) := by
  intro i
  refine (Forward.uleb128 _ i).andThen fun u rest hrest => ?_
  dsimp only
  split
  · exact trivial
  · exact hrest

theorem Forward.textNumber {parse : Bytes → Option (α × ℕ)} {expected : String}
    (hparse : ∀ {b v n}, parse b = some (v, n) → n ≤ b.length) :
    Forward (textNumber parse expected) := by
  intro i
  rw [Nom.textNumber]
  split
  · exact trivial
  · rename_i v n hn
    split
    · exact trivial
    · exact advance (hparse hn)

theorem fromChars_eq_some {signed : Bool} {bits : ℕ} {z : ℤ} :
    fromChars signed bits base b = some (z, n) ↔
      numeral signed base b ≠ [] ∧ inRange signed bits (numeralValue signed base b) ∧
        z = numeralValue signed base b ∧
        n = (isNegative signed b).toNat + (numeral signed base b).length := by
  rw [fromChars]
  by_cases hempty : numeral signed base b = []
  · simp [hempty]
  · rw [if_neg (by simp [hempty])]
    by_cases hrange : inRange signed bits (numeralValue signed base b)
    · simp [hempty, eq_comm]
    · simp [hrange]

theorem fromChars_used {signed : Bool} {bits : ℕ} {z : ℤ}
    (h : fromChars signed bits base b = some (z, n)) : n ≤ b.length := by
  obtain ⟨hne, -, -, rfl⟩ := fromChars_eq_some.1 h
  have hle : (numeral signed base b).length ≤ b.length - (isNegative signed b).toNat := by
    rw [← length_drop]
    exact (takeWhile_sublist _).length_le
  have hpos := length_pos_of_ne_nil hne
  omega

end Primitives

/-! ## Combinators -/

section Combinators

variable {p : Parser α} {q : Parser β} {s : Parser γ}

theorem Forward.success (v : α) : Forward (success v) := fun i => refl i

/-- The entry of a tuple at a place. -/
def Tuple.get {F : Type → Type} : (αs : List Type) → Tuple F αs → (k : Fin αs.length) →
    F (αs.get k)
  | _ :: _, (x, _), ⟨0, _⟩ => x
  | _ :: αs, (_, xs), ⟨k + 1, h⟩ => get αs xs ⟨k, Nat.lt_of_succ_lt_succ h⟩

theorem Forward.seq {αs : List Type} {ps : Tuple Parser αs}
    (hps : ∀ k, Forward (ps.get αs k)) : Forward (seq αs ps) := by
  induction αs with
  | nil => exact fun i => refl i
  | cons α αs ih =>
    obtain ⟨p, ps⟩ := ps
    intro i
    have htail : Forward (Nom.seq αs ps) := ih fun k => hps k.succ
    exact (hps ⟨0, Nat.succ_pos _⟩ i).thenForward fun v rest => (htail rest).thenDone

section

variable (hp : Forward p)
include hp

theorem leaves_altStep {i : Input} {best : Option Error} {ps : List (Parser α)}
    (hps : ∀ q ∈ ps, Forward q) : (altStep i best p ps).Leaves i.After := by
  induction ps generalizing best p with
  | nil =>
    have hi := hp i
    rw [altStep]
    split
    · exact hi.of_done ‹_›
    · exact hi.ne_never ‹_›
    · split <;> exact trivial
  | cons q ps ih =>
    have hi := hp i
    rw [altStep]
    split
    · exact hi.of_done ‹_›
    · exact hi.ne_never ‹_›
    · split
      · exact trivial
      · exact ih (hps q mem_cons_self) (forall_mem_cons.1 hps).2

theorem Forward.alt {ps : List (Parser α)} (hps : ∀ q ∈ ps, Forward q) :
    Forward (alt p ps) := fun _ => leaves_altStep hp hps

end

section Permutation

variable {αs : List Type} {ps : Tuple Parser αs} {slots : Tuple Option αs}

/-- How many slots are empty. -/
def emptyCount : (αs : List Type) → Tuple Option αs → ℕ
  | [], _ => 0
  | _ :: αs, (slot, slots) => (if slot.isNone then 1 else 0) + emptyCount αs slots

theorem emptyCount_emptySlots (αs : List Type) : emptyCount αs (emptySlots αs) = αs.length := by
  induction αs with
  | nil => rfl
  | cons α αs ih =>
    simp only [emptySlots, emptyCount, Option.isNone_none, if_true, length_cons]
    omega

theorem filled_of_emptyCount (h : emptyCount αs slots = 0) : ∃ vs, filled αs slots = some vs := by
  induction αs with
  | nil => exact ⟨(), rfl⟩
  | cons α αs ih =>
    obtain ⟨slot, slots⟩ := slots
    rw [emptyCount] at h
    cases slot with
    | none =>
      rw [Option.isNone_none, if_pos rfl] at h
      omega
    | some v =>
      have hrest : emptyCount αs slots = 0 := by omega
      obtain ⟨vs, hvs⟩ := ih hrest
      exact ⟨(v, vs), by rw [filled, hvs]; rfl⟩

/-- A round that comes back: where it fills a slot, that is one more, and the
cursor has moved forward. -/
def Attempt.Fills (cur : Input) (empty : ℕ) (αs : List Type) : Attempt (Tuple Option αs) → Prop
  | .progressed slots rest _ => cur.After rest ∧ emptyCount αs slots + 1 = empty
  | .stayed _ => True
  | .abort _ => True
  | .never => False

section

variable (hps : ∀ k, Forward (ps.get αs k))
include hps

theorem fills_tryOne {cur : Input} {deepest : Error} :
    (tryOne cur αs ps slots deepest).Fills cur (emptyCount αs slots) αs := by
  induction αs generalizing deepest with
  | nil => exact trivial
  | cons α αs ih =>
    obtain ⟨p, ps⟩ := ps
    obtain ⟨slot, slots⟩ := slots
    have htail : ∀ d, (tryOne cur αs ps slots d).Fills cur (emptyCount αs slots) αs :=
      fun d => ih fun k => hps k.succ
    cases slot with
    | some v =>
      simp only [tryOne]
      specialize htail deepest
      revert htail
      cases tryOne cur αs ps slots deepest with
      | progressed slots' rest d =>
        rintro ⟨hrest, hcount⟩
        refine ⟨hrest, ?_⟩
        simp only [emptyCount]
        omega
      | stayed | abort | never => exact id
    | none =>
      have hp : (p cur).Leaves cur.After := hps ⟨0, Nat.succ_pos _⟩ cur
      simp only [tryOne]
      split
      · refine ⟨hp.of_done ‹_›, ?_⟩
        simp [emptyCount, add_comm]
      · exact hp.ne_never ‹_›
      rename_i e _
      split
      · exact trivial
      specialize htail (better deepest e)
      revert htail
      cases tryOne cur αs ps slots (better deepest e) with
      | progressed slots' rest d =>
        rintro ⟨hrest, hcount⟩
        refine ⟨hrest, ?_⟩
        simp only [emptyCount]
        omega
      | stayed | abort | never => exact id

theorem leaves_permutationRounds {cur : Input} {deepest : Error} (hn : emptyCount αs slots = n) :
    (permutationRounds αs ps n slots cur deepest).Leaves cur.After := by
  -- as many rounds as empty slots: the last one leaves none empty
  induction n generalizing slots cur deepest with
  | zero =>
    obtain ⟨vs, hvs⟩ := filled_of_emptyCount hn
    rw [permutationRounds, hvs]
    exact refl cur
  | succ n ih =>
    have hround : (tryOne cur αs ps slots deepest).Fills cur (emptyCount αs slots) αs :=
      fills_tryOne hps
    rw [permutationRounds]
    revert hround
    cases tryOne cur αs ps slots deepest with
    | progressed slots' rest d =>
      rintro ⟨hrest, hcount⟩
      exact (ih (by omega)).mono fun _ hlast => hrest.trans hlast
    | stayed | abort => exact fun _ => trivial
    | never => exact id

theorem Forward.permutation : Forward (permutation αs ps) := fun _ =>
  leaves_permutationRounds hps (emptyCount_emptySlots αs)

end

end Permutation

theorem Forward.map (hp : Forward p) (f : α → β) : Forward (map p f) := fun i =>
  (hp i).thenDone

/-- The inner parser has an input of its own: it only has to come back. -/
theorem Forward.mapParser (span : α → Span) (hp : Forward p) (hq : Forward q) :
    Forward (mapParser span p q) := fun i =>
  (hp i).andThen fun _ _ hrest => (hq _).andThen fun _ _ _ => hrest

theorem Forward.flatMap {f : α → Parser β} (hp : Forward p) (hf : ∀ v, Forward (f v)) :
    Forward (flatMap p f) := fun i => (hp i).thenForward hf

theorem Forward.preceded (hp : Forward p) (hq : Forward q) : Forward (preceded p q) :=
  hp.flatMap fun _ => hq

theorem Forward.opt (hp : Forward p) : Forward (opt p) := by
  intro i
  have hi := hp i
  rw [Nom.opt]
  split
  · exact hi.of_done ‹_›
  · exact hi.ne_never ‹_›
  · split
    · exact trivial
    · exact refl i

theorem Forward.cond (b : Bool) (hp : Forward p) : Forward (cond b p) := by
  intro i
  rw [Nom.cond]
  split
  · exact (hp i).thenDone
  · exact refl i

theorem Forward.peek (hp : Forward p) : Forward (peek p) := fun i =>
  (hp i).andThen fun _ _ _ => refl i

theorem Forward.not_ (hp : Forward p) : Forward (not_ p) := by
  intro i
  have hi := hp i
  rw [Nom.not_]
  split
  · exact trivial
  · exact hi.ne_never ‹_›
  · split
    · exact trivial
    · exact refl i

theorem Forward.lengthValue (size : α → ℕ) (hp : Forward p) (hq : Forward q) :
    Forward (lengthValue size p q) := fun i =>
  Outcome.Leaves.andThen (hp.flatMap (fun _ => .exactly _ _) i) fun _ _ hrest =>
    (hq _).mapError.andThen fun _ _ _ => hrest

end Combinators

/-! ## Bits -/

section Bits

/-- A bit cursor inside its input: the byte it has begun is there. -/
def BitInput.Valid (bi : BitInput) : Prop := bi.bit < 8 ∧ (bi.bit ≠ 0 → 0 < bi.input.size)

theorem BitInput.valid_zero (i : Input) : (⟨i, 0⟩ : BitInput).Valid :=
  ⟨Nat.succ_pos 7, fun h => absurd rfl h⟩

/-- A bit parser that moves forward. -/
def BitForward (bp : BitParser α) : Prop :=
  ∀ bi, bi.Valid → (bp bi).Leaves fun rest => rest.Valid ∧ bi.input.After rest.input

theorem BitInput.step_valid {bi : BitInput} {use : ℕ} (hsize : 0 < bi.input.size)
    (hle : use ≤ 8 - bi.bit) (hbit : bi.bit < 8) :
    (bi.step use).Valid ∧ bi.input.After (bi.step use).input ∧
      (bi.step use).bitsLeft = bi.bitsLeft - use := by
  rw [step]
  split
  · refine ⟨valid_zero _, advance hsize, ?_⟩
    simp only [bitsLeft, Input.size_advance]
    omega
  · refine ⟨⟨by dsimp only; omega, fun _ => hsize⟩, refl _, ?_⟩
    simp only [bitsLeft]
    omega

theorem leaves_readBitsFrom {ord : BitOrder} {got out : ℕ} {bi : BitInput} (hbi : bi.Valid)
    (hk : n - got ≤ k) (hleft : n - got ≤ bi.bitsLeft) :
    (readBitsFrom ord n k got out bi).Leaves fun rest =>
      rest.Valid ∧ bi.input.After rest.input := by
  induction k generalizing got out bi with
  | zero =>
    simp only [readBitsFrom, if_neg (by omega : ¬ got < n)]
    exact ⟨hbi, refl _⟩
  | succ k ih =>
    simp only [readBitsFrom]
    split
    · obtain ⟨hbit, hbyte⟩ := hbi
      have hsize : 0 < bi.input.size := by rw [BitInput.bitsLeft] at hleft; omega
      have huse : min (8 - bi.bit) (n - got) ≤ 8 - bi.bit := min_le_left ..
      obtain ⟨hvalid, hafter, hbits⟩ := BitInput.step_valid hsize huse hbit
      exact (ih hvalid (by omega) (by omega)).mono fun _ hrest =>
        ⟨hrest.1, hafter.trans hrest.2⟩
    · exact ⟨hbi, refl _⟩

theorem BitForward.readBits (n : ℕ) (ord : BitOrder) : BitForward (readBits n ord) := by
  intro bi hbi
  rw [Nom.readBits]
  split
  · exact trivial
  · exact leaves_readBitsFrom hbi (by omega) (by omega)

theorem BitForward.tagBits (pattern n : ℕ) (ord : BitOrder) :
    BitForward (tagBits pattern n ord) := by
  intro bi hbi
  refine (BitForward.readBits n ord bi hbi).andThen fun v rest hrest => ?_
  split
  · exact hrest
  · exact trivial

theorem BitForward.bseq {αs : List Type} {ps : Tuple BitParser αs}
    (hps : ∀ k, BitForward (ps.get αs k)) : BitForward (bseq αs ps) := by
  induction αs with
  | nil => exact fun bi hbi => ⟨hbi, refl _⟩
  | cons α αs ih =>
    obtain ⟨p, ps⟩ := ps
    intro bi hbi
    refine (hps ⟨0, Nat.succ_pos _⟩ bi hbi).andThen fun v rest hrest => ?_
    have htail : BitForward (Nom.bseq αs ps) := ih fun k => hps k.succ
    refine (htail rest hrest.1).andThen fun vs last hlast => ?_
    exact ⟨hlast.1, hrest.2.trans hlast.2⟩

theorem BitForward.bytes_ {p : Parser α} (hp : Forward p) : BitForward (bytes_ p) := by
  intro bi hbi
  rw [Nom.bytes_]
  split
  · exact trivial
  · exact (hp bi.input).andThen fun _ _ hrest => ⟨BitInput.valid_zero _, hrest⟩

theorem Forward.bits {bp : BitParser α} (hbp : BitForward bp) : Forward (bits bp) := by
  intro i
  refine (hbp ⟨i, 0⟩ (BitInput.valid_zero i)).andThen fun v rest hrest => ?_
  obtain ⟨⟨-, hbyte⟩, hafter⟩ := hrest
  change i.After (if rest.bit ≠ 0 then rest.input.advance 1 else rest.input)
  split
  · exact hafter.trans (advance (hbyte ‹_›))
  · exact hafter

end Bits

end Nanom.Nom
