import Nanom.Codec.Copy

/-!
# Snappy

`snappy_decompress` gives what the plain decoder gives
(`snappyDecompress_refines`). An element goes one of three ways, each a step of
the plain decoder: the exact path with all its checks, the branch-free step of
two eight-byte moves, and the wild copy. The table of the fast path and the
switch of the exact path say the same about a copy tag.
-/

namespace Nanom.Codec

open Snappy (decode element round step)

open Nat

open Loop (Round)

variable {ip offset : ℕ}
variable {n : ℕ} {input : Bytes} {tag : ℕ} {c : Cursor n}

/-! ## Tags -/

/-- The length of a copy. -/
def copyLen (tag : ℕ) : ℕ := if tag % 4 = 1 then tag / 4 % 8 + 4 else tag / 4 + 1

/-- The part of a copy's offset that is in the tag. -/
def copyHigh (tag : ℕ) : ℕ := if tag % 4 = 1 then tag / 32 * 256 else 0

/-- The bytes of a copy's offset behind the tag. -/
def copyExtra (tag : ℕ) : ℕ := if tag % 4 = 1 then 1 else if tag % 4 = 2 then 2 else 4

theorem and_three (tag : ℕ) : tag &&& 3 = tag % 4 := and_two_pow_sub_one_eq_mod tag 2

theorem shiftRight_two (tag : ℕ) : tag >>> 2 = tag / 4 := shiftRight_eq_div_pow tag 2

theorem snappyEntry_literal : ∀ tag < 256, tag % 4 = 0 →
    snappyEntry tag &&& 0xff = (if tag / 4 < 60 then tag / 4 + 1 else 0) ∧
      snappyEntry tag >>> 11 = 0 := by
  decide +kernel

theorem snappyEntry_copy : ∀ tag < 256, tag % 4 ≠ 0 →
    snappyEntry tag &&& 0xff = copyLen tag ∧ snappyEntry tag >>> 11 = copyExtra tag ∧
      snappyEntry tag &&& 0x700 = copyHigh tag := by
  decide +kernel

theorem copyLen_le (htag : tag < 256) : copyLen tag ≤ 64 := by
  rw [copyLen]
  split <;> omega

theorem element_copy (hcopy : tag % 4 ≠ 0) (rest : Bytes) :
    element tag rest
      = (takeLe (copyExtra tag) rest).map fun p =>
          (.copy (copyHigh tag + p.1) (copyLen tag), p.2) := by
  have hcases : tag % 4 = 1 ∨ tag % 4 = 2 ∨ tag % 4 = 3 := by omega
  rcases hcases with h | h | h <;> simp [element, copyLen, copyHigh, copyExtra, h]

/-! ## The exact path -/

/-- The exact path reads the arguments of a copy as the plain decoder
does. -/
theorem snappyCopyArgs_refines (hcopy : tag % 4 ≠ 0) (hip : ip ≤ input.length) :
    Refines Stop.Reported (fun a p => a = (copyLen tag, copyHigh tag + p.1, ip + copyExtra tag) ∧
        ip + copyExtra tag ≤ input.length ∧ p.2 = input.drop (ip + copyExtra tag))
      (snappyCopyArgs input tag ip) (takeLe (copyExtra tag) (input.drop ip)) := by
  have hcases : tag % 4 = 1 ∨ tag % 4 = 2 ∨ tag % 4 = 3 := by omega
  rcases hcases with h | h | h
  · simp only [snappyCopyArgs, and_three, h, copyLen, copyHigh, copyExtra, if_pos]
    refine takeLe_refines _ hip fun hlen => ⟨_, ?_, rfl, hlen, rfl⟩
    have hlow : input[ip].toNat < 2 ^ 8 := input[ip].toNat_lt
    have hoff : (tag >>> 5) <<< 8 ||| input[ip].toNat
        = tag / 32 * 256 + leNat (subspan input ip 1) := by
      rw [leNat_subspan_one hlen, shiftLeft_eq, mul_comm,
        ← two_pow_add_eq_or_of_lt hlow, mul_comm, shiftRight_eq_div_pow]
    have hand : (tag >>> 2) &&& 7 = tag / 4 % 8 := by
      rw [shiftRight_two]
      exact and_two_pow_sub_one_eq_mod _ 3
    rw [u8_eq hlen, hand, ← hoff]
    rfl
  · have hone : tag % 4 ≠ 1 := by omega
    rw [copyLen, copyHigh, copyExtra, if_neg hone, if_neg hone, if_pos h]
    simp only [snappyCopyArgs, and_three, h]
    refine takeLe_refines _ hip fun hlen => ⟨_, ?_, rfl, hlen, rfl⟩
    rw [orBytes_eq hlen, shiftRight_two, zero_add]
    rfl
  · have hone : tag % 4 ≠ 1 := by omega
    have htwo : tag % 4 ≠ 2 := by omega
    rw [copyLen, copyHigh, copyExtra, if_neg hone, if_neg hone]
    simp only [snappyCopyArgs, and_three, h]
    refine takeLe_refines _ hip fun hlen => ⟨_, ?_, rfl, hlen, rfl⟩
    rw [orBytes_eq hlen, shiftRight_two, zero_add]
    rfl

theorem snappyCopy_refines (htag : tag < 256) (hcopy : tag % 4 ≠ 0) (hip : c.ip ≤ input.length)
    (hop : c.op ≤ n) :
    Refines Stop.Reported (fun c' t => Sim input c' t ∧ c.ip ≤ c'.ip) (snappyCopy input tag c)
      (step n tag (input.drop c.ip) (c.buf.elems.take c.op)) := by
  rw [step, element_copy hcopy, snappyCopy]
  have hargs := snappyCopyArgs_refines hcopy hip
  generalize snappyCopyArgs input tag c.ip = r at hargs
  generalize takeLe (copyExtra tag) (input.drop c.ip) = q at hargs
  cases hargs with
  | error he => exact .error he
  | @ok a p hap =>
    obtain ⟨rfl, hlen, hrest⟩ := hap
    change Refines Stop.Reported _ (if copyHigh tag + p.1 = 0 ∨ c.op < copyHigh tag + p.1 then _
        else _)
      (Plain.copy n (copyHigh tag + p.1) (copyLen tag) ⟨p.2, c.buf.elems.take c.op⟩)
    rw [Plain.copy, Buffer.length_take hop]
    split
    · rw [if_neg (by omega)]
      exact reported_fail _ _
    rw [if_pos (by omega)]
    have hle := copyLen_le htag
    refine (copyBack_refines _ c.buf (by omega) (by omega) hop (by omega)).bind ?_
    rintro b out ⟨hroom, rfl⟩
    exact .ok ⟨⟨hlen, hroom, hrest, rfl⟩, le_add_right _ _⟩

/-- The exact path reads the length of a literal as the plain decoder
does. -/
theorem snappyLiteralLength_refines (hlit : tag % 4 = 0) (hip : ip ≤ input.length) :
    Refines Stop.Reported (fun a p => p.1 = Snappy.Element.literal a.1 ∧ ip ≤ a.2 ∧
        a.2 ≤ input.length ∧ p.2 = input.drop a.2)
      (snappyLiteralLength input tag ip) (element tag (input.drop ip)) := by
  simp only [snappyLiteralLength, element, hlit, shiftRight_two]
  by_cases hlong : tag / 4 < 60
  · rw [if_neg (by omega), if_pos hlong]
    exact .ok ⟨rfl, le_rfl, hip, rfl⟩
  rw [if_pos (by omega), if_neg hlong]
  refine Refines.map_right (S := fun a p => a.1 = p.1 + 1 ∧ ip ≤ a.2 ∧ a.2 ≤ input.length ∧
    p.2 = input.drop a.2) (takeLe_refines _ hip fun hlen => ?_) ?_
  · rw [orBytes_eq hlen]
    exact ⟨_, rfl, rfl, le_add_right _ _, hlen, rfl⟩
  · rintro a p ⟨hlen, hrest⟩
    exact ⟨by rw [hlen], hrest⟩

theorem snappyLiteral_refines (hlit : tag % 4 = 0) (hip : c.ip ≤ input.length) (hop : c.op ≤ n) :
    Refines Stop.Reported (fun c' t => Sim input c' t ∧ c.ip ≤ c'.ip) (snappyLiteral input tag c)
      (step n tag (input.drop c.ip) (c.buf.elems.take c.op)) := by
  refine (snappyLiteralLength_refines hlit hip).bind ?_
  rintro ⟨len, ip⟩ ⟨e, rest⟩ ⟨he, hle, hlen, hrest⟩
  subst he hrest
  refine (literal_refines _ _ hlen hop fun hsrc hroom => ?_).mono fun c' t ⟨hsim, hip'⟩ => ?_
  · obtain ⟨b', hb', hloads⟩ := load_loads c.buf hsrc hroom
    exact ⟨b', by rw [hb']; rfl, hloads⟩
  · exact ⟨hsim, by omega⟩

/-- **The exact path is a step of the plain decoder.** -/
theorem snappyExact_refines (htag : tag < 256) (hip : c.ip < input.length) (hop : c.op ≤ n) :
    Refines Stop.Reported (fun c' t => Sim input c' t ∧ c.ip < c'.ip) (snappyExact input tag c)
      (step n tag (input.drop (c.ip + 1)) (c.buf.elems.take c.op)) := by
  rw [snappyExact, and_three]
  split
  · exact (snappyLiteral_refines (c := { c with ip := c.ip + 1 }) ‹_› hip hop).mono
      fun _ _ ⟨hsim, hle⟩ => ⟨hsim, hle⟩
  · exact (snappyCopy_refines (c := { c with ip := c.ip + 1 }) htag ‹_› hip hop).mono
      fun _ _ ⟨hsim, hle⟩ => ⟨hsim, hle⟩

/-! ## The fast path -/

theorem snappyExtraMask_eq : ∀ k ≤ 4, snappyExtraMask[k]? = some (2 ^ (8 * k) - 1) := by
  decide

theorem snappyFastOffset_eq {entry : ℕ} (hextra : entry >>> 11 ≤ 4)
    (hin : ip + 1 + 4 ≤ input.length) :
    snappyFastOffset input ip entry
      = .ok (u32 ((entry &&& 0x700) + leNat (subspan input (ip + 1) (entry >>> 11)))) := by
  have hlen : (subspan input (ip + 1) 4).length = 4 := length_subspan hin
  have hmask : leNat (subspan input (ip + 1) 4) &&& (2 ^ (8 * (entry >>> 11)) - 1)
      = leNat (subspan input (ip + 1) (entry >>> 11)) := by
    have htake : subspan input (ip + 1) (entry >>> 11)
        = (subspan input (ip + 1) 4).take (entry >>> 11) := by
      rw [subspan, subspan, List.take_take, Nat.min_eq_left hextra]
    rw [and_two_pow_sub_one_eq_mod, htake, leNat_take _ (by omega), Nat.pow_mul]
  rw [snappyFastOffset, snappyExtraMask_eq _ hextra, loadLe32_eq hin, ← hmask]
  rfl

theorem copyExtra_le (tag : ℕ) : copyExtra tag ≤ 4 := by
  rw [copyExtra]
  split
  · omega
  · split <;> omega

/-- The offset of a copy is a 32-bit number: only a copy of one extra
byte has high bits. -/
theorem copyOffset_lt (htag : tag < 256) {p : ℕ} (hin : p + 4 ≤ input.length) :
    copyHigh tag + leNat (subspan input p (copyExtra tag)) < 2 ^ 32 := by
  have hle := copyExtra_le tag
  have hlen : (subspan input p (copyExtra tag)).length = copyExtra tag := length_subspan (by omega)
  have hlt := leNat_lt (subspan input p (copyExtra tag))
  rw [hlen] at hlt
  rw [copyHigh]
  split
  · have hone : copyExtra tag = 1 := if_pos ‹_›
    rw [hone] at hlt ⊢
    omega
  · have hpow : 256 ^ copyExtra tag ≤ 256 ^ 4 := Nat.pow_le_pow_right (by omega) hle
    omega

theorem snappyFastOffset_copy (htag : tag < 256) (hcopy : tag % 4 ≠ 0)
    (hin : ip + 1 + 4 ≤ input.length) :
    snappyFastOffset input ip (snappyEntry tag)
      = .ok (copyHigh tag + leNat (subspan input (ip + 1) (copyExtra tag))) := by
  obtain ⟨-, hextra, hhigh⟩ := snappyEntry_copy tag htag hcopy
  rw [snappyFastOffset_eq (by rw [hextra]; exact copyExtra_le tag) hin, hextra, hhigh,
    u32_of_lt (copyOffset_lt htag hin)]

/-- The step of the plain decoder that the fast path has to match. -/
def FastStep (input : Bytes) (tag : ℕ) (c c' : Cursor n) : Prop :=
  ∃ t, Snappy.step n tag (input.drop (c.ip + 1)) (c.buf.elems.take c.op) = some t ∧
    Sim input c' t ∧ c.ip < c'.ip

theorem fastStep_literal (hlit : tag % 4 = 0) (hshort : tag / 4 < 60) {b' : Buffer UInt8 n}
    {k : ℕ} (h : Loads c.buf b' c.op (input.drop (c.ip + 1)) k) (hk : tag / 4 + 1 ≤ k)
    (hin : c.ip + 1 + (tag / 4 + 1) ≤ input.length) (hroom : c.op + (tag / 4 + 1) ≤ n) :
    FastStep input tag c ⟨c.ip + (tag / 4 + 2), c.op + (tag / 4 + 1), b'⟩ := by
  have helement : element tag (input.drop (c.ip + 1))
      = some (.literal (tag / 4 + 1), input.drop (c.ip + 1)) := by
    simp only [element, hlit, if_pos hshort]
  have hip : c.ip + 1 + (tag / 4 + 1) = c.ip + (tag / 4 + 2) := by omega
  refine ⟨⟨input.drop (c.ip + (tag / 4 + 2)), b'.elems.take (c.op + (tag / 4 + 1))⟩, ?_,
    ⟨by dsimp only; omega, hroom, rfl, rfl⟩, by dsimp only; omega⟩
  rw [step, helement, ← hip]
  exact literal_of_loads _ h hk hin hroom

theorem fastStep_copy (hcopy : tag % 4 ≠ 0) (hin : c.ip + 1 + copyExtra tag ≤ input.length)
    (hoff : offset = copyHigh tag + leNat (subspan input (c.ip + 1) (copyExtra tag)))
    (hpos : 0 < offset) (hle : offset ≤ c.op) (hroom : c.op + copyLen tag ≤ n)
    {b' : Buffer UInt8 n} (h : Repeats c.buf b' c.op offset (copyLen tag)) :
    FastStep input tag c ⟨c.ip + (1 + copyExtra tag), c.op + copyLen tag, b'⟩ := by
  refine ⟨⟨input.drop (c.ip + (1 + copyExtra tag)), b'.elems.take (c.op + copyLen tag)⟩, ?_,
    ⟨by dsimp only; omega, hroom, rfl, rfl⟩, by dsimp only; omega⟩
  rw [step, element_copy hcopy, takeLe_drop hin]
  change Plain.copy n (copyHigh tag + leNat (subspan input (c.ip + 1) (copyExtra tag))) _ _ = _
  rw [← hoff, Plain.copy, Buffer.length_take (by omega), if_pos ⟨hpos, hle⟩,
    h.copyBytes_eq hpos hle hroom, ← add_assoc]
  rfl

theorem snappyMove16_literal (offset : ℕ) (hin : c.ip + 16 < input.length) (hout : c.op + 80 < n) :
    ∃ b', snappyMove16 input true offset c = some b' ∧
      Loads c.buf b' c.op (input.drop (c.ip + 1)) 16 := by
  have hsrc : c.ip + 1 + 8 ≤ input.length := by omega
  have hroom : c.op + 8 ≤ n := by omega
  obtain ⟨b₁, hb₁, h₁⟩ := load_loads c.buf hsrc hroom
  obtain ⟨b₂, hb₂, h₂⟩ := h₁.load (c := 8) (by omega) (by omega)
  refine ⟨b₂, ?_, h₂⟩
  rw [snappyMove16, hb₁]
  exact hb₂

/-- The two moves of a short copy: the second reads what the first has
written, at most. -/
theorem snappyMove16_copy (input : Bytes) (hoff : 8 ≤ offset) (hle : offset ≤ c.op)
    (hout : c.op + 80 < n) :
    ∃ b', snappyMove16 input false offset c = some b' ∧ Repeats c.buf b' c.op offset 16 := by
  have hzero := Repeats.refl c.buf c.op offset
  obtain ⟨b₁, hb₁, h₁⟩ := hzero.memcpy (m := 0) (c := 8) hle (by omega) (by omega) (by omega)
  obtain ⟨b₂, hb₂, h₂⟩ := h₁.memcpy (m := 0) (c := 8) hle (by omega) (by omega) (by omega)
  refine ⟨b₂, ?_, h₂⟩
  rw [Nat.one_mul] at hb₁ hb₂
  rw [add_zero] at hb₁
  rw [snappyMove16, hb₁]
  exact hb₂

theorem snappyFastMove_literal (htag : tag < 256) (hlit : tag % 4 = 0) (offset : ℕ)
    (hin : c.ip + 16 < input.length) (hout : c.op + 80 < n) :
    ∃ r, snappyFastMove input tag offset c = .ok r ∧ ∀ c' ∈ r, FastStep input tag c c' := by
  obtain ⟨hlen, -⟩ := snappyEntry_literal tag htag hlit
  have htrue : decide (tag &&& 3 = 0) = true := decide_eq_true (by rw [and_three, hlit])
  have hthree : ¬ tag &&& 3 = 3 := by rw [and_three]; omega
  rw [snappyFastMove, htrue, hlen, shiftRight_two]
  have hpred := pred64_lt_iff (x := if tag / 4 < 60 then tag / 4 + 1 else 0) (y := 16)
    (by split <;> omega) (by omega)
  by_cases hshort : tag / 4 < 16
  · obtain ⟨b', hb', hloads⟩ := snappyMove16_literal offset hin hout
    rw [if_pos (by omega : tag / 4 < 60)] at hpred ⊢
    have hfast : ¬ 16 ≤ pred64 (tag / 4 + 1) := not_le.mpr (hpred.mpr ⟨by omega, by omega⟩)
    rw [if_pos (by simp only [hfast, hthree, not_true_eq_false, false_and, or_self,
      not_false_eq_true]), hb']
    refine ⟨_, rfl, ?_⟩
    rintro c' ⟨⟩
    exact fastStep_literal hlit (by omega) hloads (by omega) (by omega) (by omega)
  · have hslow : 16 ≤ pred64 (if tag / 4 < 60 then tag / 4 + 1 else 0) := by
      refine not_lt.mp fun h => ?_
      have := hpred.mp h
      split at this <;> omega
    rw [if_neg (not_not.mpr (.inl hslow))]
    refine ⟨none, rfl, ?_⟩
    rintro c' ⟨⟩

/-- The fast path of a copy: the two moves, the wild copy, or nothing
where the offset is not one. -/
theorem snappyFastMove_copy (htag : tag < 256) (hcopy : tag % 4 ≠ 0)
    (hoff : offset = copyHigh tag + leNat (subspan input (c.ip + 1) (copyExtra tag)))
    (hin : c.ip + 16 < input.length) (hout : c.op + 80 < n) (hn : n < 2 ^ 32) :
    ∃ r, snappyFastMove input tag offset c = .ok r ∧ ∀ c' ∈ r, FastStep input tag c c' := by
  obtain ⟨hlen, hextra, -⟩ := snappyEntry_copy tag htag hcopy
  have hfalse : decide (tag &&& 3 = 0) = false := decide_eq_false (by rw [and_three]; exact hcopy)
  have hle := copyExtra_le tag
  have hlt : offset < 2 ^ 32 := hoff ▸ copyOffset_lt htag (by omega)
  have hlong := copyLen_le htag
  have hpredLen := pred64_lt_iff (x := copyLen tag) (y := 16) (by omega) (by omega)
  have hpredOff := pred64_lt_iff (x := offset) (y := c.op) (by omega) (by omega)
  rw [snappyFastMove, hfalse, hlen, hextra, and_three]
  by_cases hshort : ¬ (16 ≤ pred64 (copyLen tag) ∨ tag % 4 = 3 ∨
      (¬ false = true ∧ (offset < 8 ∨ c.op < offset)))
  · rw [if_pos hshort]
    obtain ⟨hlen16, hthree, hback⟩ := not_or.mp hshort |>.imp_right not_or.mp
    have hback' : 8 ≤ offset ∧ offset ≤ c.op := by
      refine ⟨not_lt.mp fun h => hback ⟨by decide, .inl h⟩,
        not_lt.mp fun h => hback ⟨by decide, .inr h⟩⟩
    have hlenle : copyLen tag ≤ 16 := (hpredLen.mp (not_le.mp hlen16)).2
    have hip : tag % 4 + 1 = 1 + copyExtra tag := by
      rw [copyExtra]
      split
      · omega
      · split <;> omega
    obtain ⟨b', hb', hrep⟩ := snappyMove16_copy input hback'.1 hback'.2 hout
    rw [hb', hip]
    refine ⟨_, rfl, ?_⟩
    rintro c' ⟨⟩
    exact fastStep_copy hcopy (by omega) hoff (by omega) hback'.2 (by omega) (hrep.mono hlenle)
  · rw [if_neg hshort]
    by_cases hwild : ¬ false = true ∧ copyLen tag ≤ 64 ∧ pred64 offset < c.op
    · rw [if_pos hwild]
      obtain ⟨hone, hback⟩ := hpredOff.mp hwild.2.2
      obtain ⟨b', hb', hrep⟩ := copyMatchWild_repeats (copyLen tag) c.buf hone hback (by omega)
      rw [hb']
      refine ⟨_, rfl, ?_⟩
      rintro c' ⟨⟩
      exact fastStep_copy hcopy (by omega) hoff hone hback (by omega) hrep
    · rw [if_neg hwild]
      refine ⟨none, rfl, ?_⟩
      rintro c' ⟨⟩

/-- **The fast path is a step of the plain decoder**, where it takes the
element. -/
theorem snappyFast_step (htag : tag < 256) (hin : c.ip + 16 < input.length)
    (hout : c.op + 80 < n) (hn : n < 2 ^ 32) :
    ∃ r, snappyFast input tag c = .ok r ∧ ∀ c' ∈ r, FastStep input tag c c' := by
  by_cases hlit : tag % 4 = 0
  · obtain ⟨-, hextra⟩ := snappyEntry_literal tag htag hlit
    rw [snappyFast, snappyFastOffset_eq (by omega) (by omega), ok_bind]
    exact snappyFastMove_literal htag hlit _ hin hout
  · rw [snappyFast, snappyFastOffset_copy htag hlit (by omega), ok_bind]
    exact snappyFastMove_copy htag hlit rfl hin hout hn

theorem snappyTryFast_step (input : Bytes) (c : Cursor n) (htag : tag < 256) (hn : n < 2 ^ 32) :
    ∃ r, snappyTryFast input tag c = .ok r ∧ ∀ c' ∈ r, FastStep input tag c c' := by
  rw [snappyTryFast]
  split
  · rename_i hroom
    have hin : c.ip + 16 < input.length := by
      have := hroom.1
      rw [ipFast] at this
      split at this <;> omega
    have hout : c.op + 80 < n := by
      have := hroom.2
      rw [opFast] at this
      split at this <;> omega
    exact snappyFast_step htag hin hout hn
  · refine ⟨none, rfl, ?_⟩
    rintro c' ⟨⟩

/-! ## The decoder -/

/-- **An element is a step of the plain decoder**, whichever way it
goes. -/
theorem snappyElement_refines (hip : c.ip < input.length) (hop : c.op ≤ n) (hn : n < 2 ^ 32) :
    Refines Stop.Reported (fun c' t => Sim input c' t ∧ c.ip < c'.ip) (snappyElement input c)
      (step n input[c.ip].toNat (input.drop (c.ip + 1)) (c.buf.elems.take c.op)) := by
  have htag : input[c.ip].toNat < 256 := input[c.ip].toNat_lt
  obtain ⟨r, hr, hstep⟩ := snappyTryFast_step input c htag hn
  rw [snappyElement, u8_eq hip, ok_bind, hr]
  cases r with
  | none => exact snappyExact_refines htag hip hop
  | some c' =>
    obtain ⟨t, ht, hsim⟩ := hstep c' rfl
    rw [ht]
    exact .ok hsim

/-- What the decoder returns against the output of the plain one: the
buffer is full, and that is the output. -/
def Filled (r : ℕ × Buffer UInt8 n) (bytes : Bytes) : Prop := r.1 = n ∧ r.2.elems = bytes

theorem snappyRound_rel (hn : n < 2 ^ 32) {t : Plain} (h : Sim input c t) :
    Round.Rel (fun c' t' => Sim input c' t' ∧ input.length - c'.ip < input.length - c.ip)
      (Refines Stop.Reported Filled) (snappyRound input c) (round n t) := by
  obtain ⟨rest, produced⟩ := t
  obtain ⟨hip, hop, hrest, hproduced⟩ := h
  dsimp only at hrest hproduced
  subst hproduced
  rw [snappyRound]
  rcases lt_or_ge c.ip input.length with hlt | hge
  · have hcons : rest = input[c.ip] :: input.drop (c.ip + 1) := by
      rw [hrest, List.drop_eq_getElem_cons hlt]
    subst hcons
    rw [if_pos hlt]
    refine .of_refines (snappyElement_refines hlt hop hn) fun c' t' ⟨hsim, hadv⟩ => .next ?_
    exact ⟨hsim, by omega⟩
  have hnil : rest = [] := by rw [hrest, List.drop_of_length_le hge]
  subst hnil
  rw [if_neg (by omega)]
  refine .stop ?_
  rw [Buffer.length_take hop]
  by_cases heq : c.op = n
  · rw [if_neg (not_not.mpr heq), if_pos heq, heq]
    have hall : c.buf.elems.take n = c.buf.elems :=
      List.take_of_length_le (le_of_eq c.buf.length_elems)
    exact .ok ⟨rfl, hall.symm⟩
  · rw [if_pos heq, if_neg heq]
    exact reported_fail _ _

theorem snappyDecompress_refines (input : Bytes) (out : Buffer UInt8 n) :
    Refines Stop.Reported Filled (snappyDecompress input out) (decode n input) := by
  have hpre := Wire.readUleb128_refines 32 (by decide) input
  have hbounds : ∀ p, Wire.varint 32 input = some p → p.1 < 2 ^ 32 ∧ p.2 ≤ input.length :=
    fun _ => Wire.varint_bounds
  rw [snappyDecompress, decode, Wire.varintU32]
  generalize Wire.varint 32 input = q at hpre hbounds
  generalize Wire.readUleb128 32 input = r at hpre
  cases hpre with
  | error _ => exact reported_fail _ _
  | @ok a p hap =>
    obtain ⟨hsize, hused⟩ := hbounds p rfl
    subst hap
    change Refines _ _ (if a.1 ≠ n then _ else _)
      (if a.1 = n then plainLoop (round n) input (input.drop a.2) else none)
    by_cases heq : a.1 = n
    · rw [if_neg (not_not.mpr heq), if_pos heq]
      refine decodeLoop_refines (fun c t hsim => snappyRound_rel (heq ▸ hsize) hsim) ?_
      exact ⟨hused, zero_le n, rfl, rfl⟩
    · rw [if_pos heq, if_neg heq]
      exact reported_fail _ _

/-- **`snappy_decompress` is the plain decoder**: it succeeds where that
one does, with a full buffer that holds the same bytes, and where that
one gives up it reports an error. -/
theorem snappyDecompress_iff_decode (input : Bytes) (out : Buffer UInt8 n) :
    (∀ size buf, snappyDecompress input out = .ok (size, buf) ↔
      size = n ∧ Snappy.decode n input = some buf.elems) ∧
    ((∃ e, snappyDecompress input out = .error (.fail e)) ↔ Snappy.decode n input = none) := by
  have h := snappyDecompress_refines input out
  generalize snappyDecompress input out = r at h
  generalize Snappy.decode n input = q at h
  cases h with
  | @ok a bytes hfilled =>
    obtain ⟨k, b⟩ := a
    obtain ⟨hk, hb⟩ : k = n ∧ b.elems = bytes := hfilled
    refine ⟨fun size buf => ?_, by simp⟩
    rw [Except.ok.injEq, Prod.mk.injEq, Option.some.injEq, hk, ← hb, Buffer.ext_iff,
      eq_comm (a := n)]
  | error he =>
    obtain ⟨e, rfl⟩ := he
    exact ⟨fun size buf => by simp, by simp⟩

end Nanom.Codec
