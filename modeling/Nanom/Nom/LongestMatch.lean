import Mathlib.Data.List.TakeWhile
import Nanom.Nom.Undecided

/-!
# The longest match on a stream

The parsers that take bytes of a kind, and those of numbers in text, stop where the
input ends. On a live input this can be in the middle of what they look for: their
results stay when the bytes in front show where the run of bytes ends.
`stable_iff_settled` has these parsers together with `opt`, `not_` and the
separated lists.
-/

namespace Nanom.Nom

open List Bool Option Nat

variable {α γ : Type}

/-! ## Bytes of a kind -/

section Kinds

variable {pred : UInt8 → Bool} {what : String} {i : Input} {m : ℕ}

theorem leading_none (pred : UInt8 → Bool) (i : Input) :
    leading pred none i = (i.bytes.takeWhile pred).length := by
  rw [leading, getD_none, Input.size, take_length]

/-- The run of bytes ends inside the input. -/
theorem leading_extend (h : ∃ x ∈ i.bytes, pred x = false) (c : Bytes) :
    leading pred none i < i.size ∧ leading pred none (i.extend c) = leading pred none i := by
  rw [leading_none, leading_none, Input.bytes_extend, Input.size]
  generalize i.bytes = b at h
  induction b with
  | nil =>
    obtain ⟨x, hx, -⟩ := h
    cases hx
  | cons y b ih =>
    rw [cons_append, takeWhile_cons, takeWhile_cons]
    cases hy : pred y with
    | false => exact ⟨succ_pos _, rfl⟩
    | true =>
      have htail : ∃ x ∈ b, pred x = false := by
        obtain ⟨x, hx, hpred⟩ := h
        obtain rfl | hx := mem_cons.1 hx
        · cases hpred.symm.trans hy
        · exact ⟨x, hx, hpred⟩
      obtain ⟨hlt, heq⟩ := ih htail
      exact ⟨succ_lt_succ hlt, congrArg succ heq⟩

theorem leading_all (h : ∀ x ∈ i.bytes, pred x = true) : leading pred none i = i.size := by
  rw [leading_none, takeWhile_eq_self_iff.2 h]
  rfl

theorem stableAt_takePred (h : ∃ x ∈ i.bytes, pred x = false) :
    StableAt (takePred pred m none what) i := by
  intro _ c
  obtain ⟨hlt, heq⟩ := leading_extend h c
  have hlt' : leading pred none i < (i.extend c).size := by rw [Input.size_extend]; omega
  simp only [takePred, heq]
  split
  · rw [if_neg hlt.ne, if_neg hlt'.ne]
    rfl
  · rw [Input.takeSpan_extend c hlt.le]
    rfl

/-- A run of bytes up to the end of the input gets longer. -/
theorem not_stableAt_takePred (hall : ∀ x ∈ i.bytes, pred x = true) (hm : m ≤ i.size) {y : UInt8}
    (hy : pred y = true) : ¬ StableAt (takePred pred m none what) i := by
  intro hstable
  have hlead := leading_all hall
  have hrun : takePred pred m none what i = .done (i.takeSpan i.size) (i.advance i.size) := by
    simp only [takePred, hlead, if_neg (not_lt.2 hm)]
  have hall' : ∀ x ∈ (i.extend [y]).bytes, pred x = true := by
    intro x hx
    obtain hx | hx := mem_append.1 hx
    · exact hall x hx
    · rwa [mem_singleton.1 hx]
  have hsize : (i.extend [y]).size = i.size + 1 := Input.size_extend i [y]
  have hrun' : takePred pred m none what (i.extend [y])
      = .done ((i.extend [y]).takeSpan (i.size + 1)) ((i.extend [y]).advance (i.size + 1)) := by
    have hlead' : leading pred none (i.extend [y]) = i.size + 1 := (leading_all hall').trans hsize
    simp only [takePred, hlead', if_neg (not_lt.2 (le_succ_of_le hm))]
  have hsame := hstable (not_waits_of_done hrun) [y]
  rw [hrun, hrun'] at hsame
  simp only [observe, some.injEq, Except.ok.injEq, Prod.mk.injEq, Input.offset_advance] at hsame
  omega

/-- `take_while` and `take_till`. -/
theorem stableAt_takePred_zero_iff :
    StableAt (takePred pred 0 none what) i ↔
      (∃ x ∈ i.bytes, pred x = false) ∨ ∀ x, pred x = false := by
  constructor
  · intro hstable
    by_contra h
    push Not at h
    obtain ⟨hall, y, hy⟩ := h
    have htrue : ∀ x ∈ i.bytes, pred x = true := fun x hx =>
      eq_true_of_not_eq_false (hall x hx)
    exact not_stableAt_takePred htrue (zero_le _) (eq_true_of_not_eq_false hy) hstable
  · rintro (h | h)
    · exact stableAt_takePred h
    · intro _ c
      have hlead : ∀ j : Input, leading pred none j = 0 := by
        intro j
        rw [leading_none]
        cases j.bytes with
        | nil => rfl
        | cons x b => rw [takeWhile_cons, h x]; rfl
      simp only [takePred, hlead]
      rfl

/-- Those that want one byte of the kind. -/
theorem stableAt_takePred_one_iff (hi : i.live = true) :
    StableAt (takePred pred 1 none what) i ↔ i.bytes = [] ∨ ∃ x ∈ i.bytes, pred x = false := by
  constructor
  · intro hstable
    by_contra h
    push Not at h
    obtain ⟨hne, hall⟩ := h
    have htrue : ∀ x ∈ i.bytes, pred x = true := fun x hx =>
      eq_true_of_not_eq_false (hall x hx)
    obtain ⟨y, hy⟩ := exists_mem_of_ne_nil _ hne
    exact not_stableAt_takePred htrue (length_pos_of_ne_nil hne) (htrue y hy) hstable
  · rintro (h | h)
    · intro hw
      have hsize : i.size = 0 := by rw [Input.size, h]; rfl
      have hlead : leading pred none i = 0 := by rw [leading_none, h]; rfl
      refine absurd ⟨makeIncomplete i 1, ?_, kind_makeIncomplete hi 1⟩ hw
      simp only [takePred, hlead, hsize, if_pos Nat.one_pos, if_true]
    · exact stableAt_takePred h

end Kinds

/-! ## Numbers in text -/

section Numbers

variable {signed : Bool} {bits base : ℕ} {b c : Bytes} {i : Input} {what : String}

/-- What is behind the sign of a number. -/
def unsignedText (signed : Bool) (b : Bytes) : Bytes := b.drop (isNegative signed b).toNat

theorem isNegative_append (hb : b ≠ []) (c : Bytes) :
    isNegative signed (b ++ c) = isNegative signed b := by
  rw [isNegative, isNegative, head?_append_of_ne_nil b hb]

theorem isNegative_le (signed : Bool) (b : Bytes) : (isNegative signed b).toNat ≤ b.length := by
  cases b with
  | nil => cases signed <;> exact le_refl 0
  | cons x b => exact (toNat_le _).trans (succ_le_succ (zero_le _))

theorem unsignedText_append (h : isNegative signed (b ++ c) = isNegative signed b) :
    unsignedText signed (b ++ c) = unsignedText signed b ++ c := by
  rw [unsignedText, unsignedText, h, drop_append_of_le_length (isNegative_le signed b)]

@[simp] theorem digitsOf_nil : digitsOf base [] = [] := rfl

/-- A byte behind the digits keeps more of them away. -/
theorem digitsOf_append {t : Bytes} (h : ∃ x ∈ t, digitValue base x = none) (c : Bytes) :
    digitsOf base (t ++ c) = digitsOf base t := by
  rw [digitsOf, takeWhile_append]
  refine if_neg fun hlen => ?_
  obtain ⟨x, hx, hnone⟩ := h
  have hall : t.takeWhile (fun d => (digitValue base d).isSome) = t :=
    ( takeWhile_prefix _).eq_of_length hlen
  have hsome := takeWhile_eq_self_iff.1 hall x hx
  rw [hnone] at hsome
  cases hsome

theorem digitsOf_append_all {t : Bytes} (h : ∀ x ∈ t, digitValue base x ≠ none) (c : Bytes) :
    digitsOf base (t ++ c) = t ++ digitsOf base c := by
  rw [digitsOf, digitsOf, takeWhile_append_of_pos]
  exact fun x hx => isSome_iff_ne_none.2 (h x hx)

theorem digitsOf_all {t : Bytes} (h : ∀ x ∈ t, digitValue base x ≠ none) : digitsOf base t = t := by
  have happ := digitsOf_append_all h []
  rwa [append_nil, digitsOf_nil, append_nil] at happ

section

variable (signed : Bool) (bits base : ℕ) (what : String) (i : Input)

theorem observe_textNumber :
    observe i (textNumber (fromChars signed bits base) what i)
      = match fromChars signed bits base i.bytes with
        | none => some (.error .err)
        | some r => some (.ok r) := by
  rw [textNumber]
  cases hread : fromChars signed bits base i.bytes with
  | none => rfl
  | some r =>
    have hpos : r.2 ≠ 0 := by
      obtain ⟨hne, -, -, hcount⟩ := fromChars_eq_some.1 hread
      have hlen := length_pos_of_ne_nil hne
      omega
    dsimp only
    rw [if_neg hpos, observe, Input.offset_advance, Nat.add_sub_cancel_left]

theorem not_waits_textNumber : ¬ Waits (textNumber (fromChars signed bits base) what i) := by
  intro hw
  have hsee := (observe_textNumber signed bits base what i).symm.trans (hw.observe_eq i)
  cases hread : fromChars signed bits base i.bytes with
  | none | some r =>
    rw [hread] at hsee
    cases hsee

end

/-- More digits do not bring a number back into its range. -/
theorem not_inRange_mono {neg : Bool} (hneg : neg = true → signed = true) {x y : ℕ} (hxy : x ≤ y)
    (h : ¬ inRange signed bits (if neg then -(x : ℤ) else x)) :
    ¬ inRange signed bits (if neg then -(y : ℤ) else y) := by
  cases neg with
  | true =>
    rw [hneg rfl] at h ⊢
    simp only [inRange, if_true] at h ⊢
    omega
  | false =>
    cases signed with
    | true =>
      simp only [inRange, if_true, false_eq_true, if_false] at h ⊢
      omega
    | false =>
      simp only [inRange, false_eq_true, if_false] at h ⊢
      omega

theorem inRange_zero (signed : Bool) (bits : ℕ) : inRange signed bits 0 := by
  have hpos : (0 : ℤ) < 2 ^ (bits - 1) := Int.pow_pos (by decide)
  have hpos' : (0 : ℤ) < 2 ^ bits := Int.pow_pos (by decide)
  cases signed with
  | true =>
    simp only [inRange, if_true]
    omega
  | false =>
    simp only [inRange, false_eq_true, if_false]
    omega

theorem digitsValue_append_le (hbase : 0 < base) (ds es : Bytes) :
    digitsValue base ds ≤ digitsValue base (ds ++ es) := by
  have hfold : ∀ n, n ≤ es.foldl (fun n b => n * base + (digitValue base b).getD 0) n := by
    induction es with
    | nil => exact fun n => le_refl n
    | cons e es ih =>
      exact fun n => ((Nat.le_mul_of_pos_right n hbase).trans (Nat.le_add_right _ _)).trans (ih _)
  rw [digitsValue, digitsValue, foldl_append]
  exact hfold _

/-- A number that goes up to the end of the input can get another digit. -/
theorem not_stableAt_textNumber (hbase : 0 < base)
    (hall : ∀ x ∈ unsignedText signed i.bytes, digitValue base x ≠ none)
    (hrange : inRange signed bits (numeralValue signed base i.bytes)) :
    ¬ StableAt (textNumber (fromChars signed bits base) what) i := by
  intro hstable
  have hzero : digitValue base 48 = some 0 := if_pos (decide_eq_true hbase)
  have hneg : isNegative signed (i.bytes ++ [48]) = isNegative signed i.bytes := by
    cases i.bytes with
    | nil => cases signed <;> rfl
    | cons x b => exact isNegative_append (cons_ne_nil _ _) _
  have hnum : numeral signed base i.bytes = unsignedText signed i.bytes := digitsOf_all hall
  have hnum' : numeral signed base (i.bytes ++ [48]) = unsignedText signed i.bytes ++ [48] := by
    have hdigit : digitsOf base [48] = [48] := by rw [digitsOf, takeWhile_cons, hzero]; rfl
    have htext : numeral signed base (i.bytes ++ [48])
        = digitsOf base (unsignedText signed (i.bytes ++ [48])) := rfl
    rw [htext, unsignedText_append hneg, digitsOf_append_all hall, hdigit]
  have hsame := hstable (not_waits_textNumber _ _ _ _ _) [48]
  rw [observe_textNumber, observe_textNumber, Input.bytes_extend] at hsame
  by_cases hempty : unsignedText signed i.bytes = []
  · -- no digit yet: the next one makes it a number
    have hread : fromChars signed bits base i.bytes = none := by
      rw [fromChars, if_pos (by rw [hnum, hempty]; rfl)]
    have hvalue : numeralValue signed base (i.bytes ++ [48]) = 0 := by
      rw [numeralValue, hnum', hempty, nil_append, digitsValue, foldl_cons, hzero]
      simp
    have hread' : fromChars signed bits base (i.bytes ++ [48])
        = some (0, (isNegative signed i.bytes).toNat + 1) := by
      refine fromChars_eq_some.2 ⟨?_, ?_, hvalue.symm, ?_⟩
      · rw [hnum']
        exact append_ne_nil_of_right_ne_nil _ (cons_ne_nil _ _)
      · rw [hvalue]
        exact inRange_zero signed bits
      · rw [hneg, hnum', hempty]
        rfl
    rw [hread, hread'] at hsame
    cases hsame
  · have hread : fromChars signed bits base i.bytes = some (numeralValue signed base i.bytes,
        (isNegative signed i.bytes).toNat + (numeral signed base i.bytes).length) :=
      fromChars_eq_some.2 ⟨by rwa [hnum], hrange, rfl, rfl⟩
    rw [hread] at hsame
    cases hread' : fromChars signed bits base (i.bytes ++ [48]) with
    | none =>
      rw [hread'] at hsame
      cases hsame
    | some r =>
      obtain ⟨-, -, -, hcount⟩ := fromChars_eq_some.1 hread'
      rw [hread'] at hsame
      simp only [some.injEq, Except.ok.injEq] at hsame
      rw [hsame, hneg, hnum, hnum', length_append, length_singleton] at hcount
      omega

theorem fromChars_of_not_inRange (h : ¬ inRange signed bits (numeralValue signed base b)) :
    fromChars signed bits base b = none := by
  rw [fromChars, if_neg h]
  exact ite_self none

/-- What `from_chars` makes of a text that is settled. -/
theorem fromChars_append (hbase : 0 < base)
    (h : (∃ x ∈ unsignedText signed b, digitValue base x = none) ∨
      ¬ inRange signed bits (numeralValue signed base b)) (c : Bytes) :
    fromChars signed bits base (b ++ c) = fromChars signed bits base b := by
  have hb : b ≠ [] := by
    rintro rfl
    obtain ⟨x, hx, -⟩ | hrange := h
    · rw [unsignedText, drop_nil] at hx
      cases hx
    refine hrange ?_
    have hvalue : numeralValue signed base [] = 0 := by
      cases signed <;> rfl
    rw [hvalue]
    exact inRange_zero signed bits
  have hneg : isNegative signed (b ++ c) = isNegative signed b := isNegative_append hb c
  have hnum : numeral signed base (b ++ c) = digitsOf base (unsignedText signed b ++ c) := by
    rw [← unsignedText_append hneg]
    rfl
  by_cases hend : ∃ x ∈ unsignedText signed b, digitValue base x = none
  · -- the same digits
    rw [digitsOf_append hend] at hnum
    rw [fromChars, numeralValue, hneg, hnum]
    rfl
  -- more digits of a number that is too large
  have hrange := h.resolve_left hend
  push Not at hend
  rw [digitsOf_append_all hend] at hnum
  have hnum₀ : numeral signed base b = unsignedText signed b := digitsOf_all hend
  rw [fromChars_of_not_inRange hrange]
  refine fromChars_of_not_inRange ?_
  rw [numeralValue, hnum₀] at hrange
  rw [numeralValue, hneg, hnum]
  refine not_inRange_mono (fun h => ?_) (digitsValue_append_le hbase _ _) hrange
  rw [isNegative, and_eq_true] at h
  exact h.1

/-- `dec` and `hex`: a number is settled by a byte behind it, or when it is too large
already. -/
theorem stableAt_textNumber_iff (hbase : 0 < base) :
    StableAt (textNumber (fromChars signed bits base) what) i ↔
      (∃ x ∈ unsignedText signed i.bytes, digitValue base x = none) ∨
        ¬ inRange signed bits (numeralValue signed base i.bytes) := by
  constructor
  · intro hstable
    by_contra h
    push Not at h
    exact not_stableAt_textNumber hbase h.1 h.2 hstable
  · intro h _ c
    rw [observe_textNumber, observe_textNumber, Input.bytes_extend, fromChars_append hbase h]

end Numbers

/-! ## All of them -/

/-- `opt` gives up on a tag of which the stream has only the first byte. -/
theorem opt_tag_cut_off :
    observe ⟨[97], 0, true⟩ (opt (tag [97, 98]) ⟨[97], 0, true⟩) = some (.ok (none, 0)) ∧
      observe ⟨[97, 98], 0, true⟩ (opt (tag [97, 98]) ⟨[97, 98], 0, true⟩)
        = some (.ok (some ⟨[97, 98], 0⟩, 2)) := ⟨rfl, rfl⟩

/-- **When the results on a live input stay as they are**, for each of the
combinators that decide on the absence of a match or on a longest match. -/
theorem stable_iff_settled {p : Parser α} {sep : Parser γ} (hp : Forward p) (hsep : Forward sep)
    (hps : ∀ i, i.live = true → StableAt p i) (hseps : ∀ i, i.live = true → StableAt sep i)
    {i : Input} (hi : i.live = true) :
    (StableAt (opt p) i ↔ ¬ Undecided p i) ∧
    (StableAt (not_ p) i ↔ ¬ Undecided p i) ∧
    (StableAt (separatedList0 sep p) i ↔ ¬ Undecided p i ∧
      ∀ cur, Boundary sep p i cur → ¬ Undecided (preceded sep p) cur) ∧
    (StableAt (separatedList1 sep p) i ↔ ¬ UndecidedFirst sep p i ∧
      ∀ cur, Boundary sep p i cur → ¬ Undecided (preceded sep p) cur) ∧
    (∀ pred, StableAt (takeWhile pred) i ↔ (∃ x ∈ i.bytes, pred x = false) ∨ ∀ x, pred x = false) ∧
    (∀ pred, StableAt (takeTill pred) i ↔ (∃ x ∈ i.bytes, pred x = true) ∨ ∀ x, pred x = true) ∧
    (∀ pred, StableAt (takeWhile1 pred) i ↔ i.bytes = [] ∨ ∃ x ∈ i.bytes, pred x = false) ∧
    (∀ set, StableAt (isA set) i ↔ i.bytes = [] ∨ ∃ x ∈ i.bytes, set.contains x = false) ∧
    (∀ set, StableAt (isNot set) i ↔ i.bytes = [] ∨ ∃ x ∈ i.bytes, set.contains x = true) ∧
    (StableAt digit1 i ↔ i.bytes = [] ∨ ∃ x ∈ i.bytes, isDigit x = false) ∧
    (∀ signed bits, StableAt (dec signed bits) i ↔
      (∃ x ∈ unsignedText signed i.bytes, digitValue 10 x = none) ∨
        ¬ inRange signed bits (numeralValue signed 10 i.bytes)) ∧
    ∀ bits, StableAt (hex bits) i ↔ (∃ x ∈ i.bytes, digitValue 16 x = none) ∨
        ¬ inRange false bits (numeralValue false 16 i.bytes) := by
  have hsp := steady_of_stable hp hps
  have hssep := steady_of_stable hsep hseps
  refine ⟨stableAt_opt_iff hp hsp hi, stableAt_not_iff hp hsp hi,
    stableAt_separatedList0_iff hsep hp hssep hsp hi,
    stableAt_separatedList1_iff hsep hp hssep hsp hi, fun pred => stableAt_takePred_zero_iff,
    fun pred => ?_, fun pred => stableAt_takePred_one_iff hi,
    fun set => stableAt_takePred_one_iff hi, fun set => ?_, stableAt_takePred_one_iff hi,
    fun signed bits => stableAt_textNumber_iff (by decide),
    fun bits => stableAt_textNumber_iff (by decide)⟩
  · rw [takeTill, stableAt_takePred_zero_iff]
    simp only [not_eq_false']
  · rw [isNot, stableAt_takePred_one_iff hi]
    simp only [not_eq_false']

theorem stable_iff_settled_tag :
    StableAt (opt (tag [97, 98])) ⟨[97], 0, true⟩ ↔ ¬ Undecided (tag [97, 98]) ⟨[97], 0, true⟩ := by
  have hstable : ∀ pattern i, i.live = true → StableAt (tag pattern) i := fun pattern i hi hw c =>
    (Steady.exactly _ _ i c hi).observe_eq hw (i.extend c) |>.trans (observe_extend i c _)
  exact (stable_iff_settled (Forward.exactly _ _) (Forward.exactly _ _) (hstable [97, 98])
    (hstable [44]) rfl).1

end Nanom.Nom
