import Nanom.Codec.Fsst.Train

/-!
# FSST — what the encoder's table promises

A table is `Sound` if every code its three lookups give is one of its symbols,
of the length and the bytes it is looked up by. `reset` starts sound tables,
`add` keeps them so, and so does every round of training (`sound_trained`).
-/

namespace Nanom.Codec.Fsst

open List Function Nat

variable {candidates : List (Symbol × ℕ)}
variable {e : Encoder} {code value length : ℕ}

/-- A symbol that `add` may be given: one to eight bytes, and no bits
above them. -/
structure Symbol.Fits (s : Symbol) : Prop where
  pos : 1 ≤ s.length
  le : s.length ≤ 8
  lt : s.value < 256 ^ s.length

/-- A code of the table stands for a symbol. -/
structure Encoder.Spells (e : Encoder) (code value length : ℕ) : Prop where
  lt : code < e.symbolCount
  symbol : e.symbols code = value
  len : e.lengths code = length

/-- **A sound table.** -/
structure Encoder.Sound (e : Encoder) : Prop where
  count_le : e.symbolCount ≤ 255
  fits : ∀ c < e.symbolCount, Symbol.Fits ⟨e.symbols c, e.lengths c⟩
  byte : ∀ b, e.byteCodes b ≠ kNone → e.Spells (e.byteCodes b) b 1
  short : ∀ w, e.shortCodes w ≠ kNone → e.Spells (e.shortCodes w) w 2
  long : ∀ i, (e.longCodes i).length ≠ 0 →
    e.Spells (e.longCodes i).code (e.longCodes i).value (e.longCodes i).length

theorem sound_reset (e : Encoder) : (reset e).Sound where
  count_le := zero_le 255
  fits c hc := absurd hc (not_lt_zero c)
  byte _ h := absurd rfl h
  short _ h := absurd rfl h
  long _ h := absurd rfl h

/-! ## Adding a symbol -/

theorem low8_val (word : ℕ) : (low8 word : ℕ) = word % 256 := by
  have hand : word &&& 0xFF = word % 2 ^ 8 := and_two_pow_sub_one_eq_mod word 8
  show (word &&& 0xFF) % 256 = word % 256
  omega

theorem low16_val (word : ℕ) : (low16 word : ℕ) = word % 65536 := by
  have hand : word &&& 0xFFFF = word % 2 ^ 16 := and_two_pow_sub_one_eq_mod word 16
  show (word &&& 0xFFFF) % 65536 = word % 65536
  omega

/-- A table with one symbol more: each lookup gives what it gave, or the
new code where the new symbol is looked up. -/
structure Encoder.Extends (e e' : Encoder) (s : Symbol) : Prop where
  count : e'.symbolCount = e.symbolCount + 1
  symbols : e'.symbols = Function.update e.symbols e.symbolCount s.value
  lengths : e'.lengths = Function.update e.lengths e.symbolCount s.length
  byte : ∀ b, e'.byteCodes b = e.byteCodes b ∨
    e'.byteCodes b = e.symbolCount ∧ s.value = b ∧ s.length = 1
  short : ∀ w, e'.shortCodes w = e.shortCodes w ∨
    e'.shortCodes w = e.symbolCount ∧ s.value = w ∧ s.length = 2
  long : ∀ i, e'.longCodes i = e.longCodes i ∨
    e'.longCodes i = ⟨s.value, s.length, e.symbolCount⟩
  shortOrByte : e'.shortOrByte = e.shortOrByte

namespace Encoder.Extends

variable {e' : Encoder} {s : Symbol}

theorem spells (h : Extends e e' s) (hold : e.Spells code value length) :
    e'.Spells code value length := by
  have hne : code ≠ e.symbolCount := Nat.ne_of_lt hold.lt
  refine ⟨by rw [h.count]; exact lt_succ_of_lt hold.lt, ?_, ?_⟩
  · rw [h.symbols, update_of_ne hne, hold.symbol]
  · rw [h.lengths, update_of_ne hne, hold.len]

theorem spells_new (h : Extends e e' s) : e'.Spells e.symbolCount s.value s.length := by
  refine ⟨by rw [h.count]; exact lt_succ_self _, ?_, ?_⟩
  · rw [h.symbols, update_self]
  · rw [h.lengths, update_self]

theorem sound (h : Extends e e' s) (he : e.Sound) (hroom : e.symbolCount < 255) (hs : s.Fits) :
    e'.Sound where
  count_le := by rw [h.count]; exact hroom
  fits := by
    intro c hc
    rw [h.count, Nat.lt_succ_iff_lt_or_eq] at hc
    rcases hc with hlt | rfl
    · have hold : e.Spells c (e.symbols c) (e.lengths c) := ⟨hlt, rfl, rfl⟩
      rw [(h.spells hold).symbol, (h.spells hold).len]
      exact he.fits c hlt
    · rw [h.spells_new.symbol, h.spells_new.len]
      exact hs
  byte := by
    intro b hb
    rcases h.byte b with hold | ⟨hnew, hval, hlen⟩
    · rw [hold] at hb ⊢
      exact h.spells (he.byte b hb)
    · rw [hnew, ← hval, ← hlen]
      exact h.spells_new
  short := by
    intro w hw
    rcases h.short w with hold | ⟨hnew, hval, hlen⟩
    · rw [hold] at hw ⊢
      exact h.spells (he.short w hw)
    · rw [hnew, ← hval, ← hlen]
      exact h.spells_new
  long := by
    intro i hi
    rcases h.long i with hold | hnew
    · rw [hold] at hi ⊢
      exact h.spells (he.long i hi)
    · rw [hnew]
      exact h.spells_new

end Encoder.Extends

theorem add_cases (hroom : e.symbolCount < 255) {s : Symbol} (hs : s.Fits) :
    add e s.value s.length = .ok (e, false) ∨
      ∃ e', add e s.value s.length = .ok (e', true) ∧ e.Extends e' s := by
  have hlt := hs.lt
  unfold add
  rw [if_neg (by omega)]
  by_cases h1 : s.length = 1
  · rw [if_pos h1]
    refine .inr ⟨_, rfl, rfl, rfl, rfl, ?_, fun _ => .inl rfl, fun _ => .inl rfl, rfl⟩
    intro b
    by_cases hb : b = low8 s.value
    · rw [h1] at hlt
      refine .inr ⟨?_, by rw [hb, low8_val]; omega, h1⟩
      show update e.byteCodes (low8 s.value) e.symbolCount b = _
      rw [hb, update_self]
    · exact .inl (update_of_ne hb ..)
  rw [if_neg h1]
  by_cases h2 : s.length = 2
  · rw [if_pos h2]
    refine .inr ⟨_, rfl, rfl, rfl, rfl, fun _ => .inl rfl, ?_, fun _ => .inl rfl, rfl⟩
    intro w
    by_cases hw : w = low16 s.value
    · rw [h2] at hlt
      refine .inr ⟨?_, by rw [hw, low16_val]; omega, h2⟩
      show update e.shortCodes (low16 s.value) e.symbolCount w = _
      rw [hw, update_self]
    · exact .inl (update_of_ne hw ..)
  rw [if_neg h2]
  by_cases htaken : (e.longCodes (hash3 s.value)).length ≠ 0
  · rw [if_pos htaken]
    exact .inl rfl
  rw [if_neg htaken]
  refine .inr ⟨_, rfl, rfl, rfl, rfl, fun _ => .inl rfl, fun _ => .inl rfl, ?_, rfl⟩
  intro i
  by_cases hi : i = hash3 s.value
  · refine .inr ?_
    show update e.longCodes (hash3 s.value) _ i = _
    rw [hi, update_self]
  · exact .inl (update_of_ne hi ..)

/-- **A symbol more.** -/
theorem Encoder.Sound.add (h : e.Sound) (hroom : e.symbolCount < 255) {s : Symbol} (hs : s.Fits) :
    ∃ e' b, add e s.value s.length = .ok (e', b) ∧ e'.Sound ∧
      e'.symbolCount ≤ e.symbolCount + 1 ∧ e'.shortOrByte = e.shortOrByte := by
  rcases add_cases hroom hs with hadd | ⟨e', hadd, hext⟩
  · exact ⟨e, false, hadd, h, le_succ _, rfl⟩
  · exact ⟨e', true, hadd, hext.sound h hroom hs, hext.count.le, hext.shortOrByte⟩

/-- Symbols added one after the other. -/
def addAll (e : Encoder) (symbols : List Symbol) : Except Stop Encoder :=
  symbols.foldlM (fun e s => return (← add e s.value s.length).1) e

/-- **A table built by hand** is sound, and has no `short_or_byte`. -/
theorem Encoder.Sound.addAll {symbols : List Symbol} (h : e.Sound)
    (hs : ∀ s ∈ symbols, s.Fits) (hroom : e.symbolCount + symbols.length ≤ 255) :
    ∃ e', addAll e symbols = .ok e' ∧ e'.Sound ∧ e'.shortOrByte = e.shortOrByte := by
  induction symbols generalizing e with
  | nil => exact ⟨e, rfl, h, rfl⟩
  | cons s symbols ih =>
    rw [length_cons] at hroom
    obtain ⟨e₁, b, hadd, hsound, hcount, hsob⟩ := h.add (by omega) (hs s mem_cons_self)
    obtain ⟨e', hall, hsound', hsob'⟩ := ih hsound
      (forall_mem_cons.1 hs).2 (by omega)
    refine ⟨e', ?_, hsound', hsob'.trans hsob⟩
    rw [Fsst.addAll, foldlM_cons, hadd]
    exact hall

/-! ## Training -/

theorem symbolOf_fits (h : e.Sound) {c : ℕ} (hc : c ∈ live e) : (symbolOf e c).Fits := by
  unfold symbolOf
  rw [live, mem_append, mem_range, mem_map] at hc
  rcases hc with hlt | ⟨b, hb, rfl⟩
  · have hcount := h.count_le
    rw [if_neg (by unfold kPseudo; omega)]
    exact h.fits c hlt
  · rw [if_pos (Nat.le_add_right _ _), Nat.add_sub_cancel_left]
    exact ⟨le_refl 1, le_add_left 1 7, mem_range.1 hb⟩

theorem and_mask {l : ℕ} (hl : l ≤ 8) (word : ℕ) : word &&& mask l = word % 256 ^ l := by
  have hpow : 256 ^ l = 2 ^ (8 * l) := by rw [Nat.pow_mul]
  have hmask : mask l = 2 ^ (8 * l) - 1 := by
    rw [mask]
    split
    · rw [le_antisymm hl ‹8 ≤ l›]
    · rw [shiftLeft_eq, one_mul]
  rw [hmask, hpow, and_two_pow_sub_one_eq_mod]

theorem joined_fits {s₁ s₂ : Symbol} (h₁ : s₁.Fits) : (joined s₁ s₂).Fits := by
  have hpos := h₁.pos
  refine ⟨?_, min_le_left _ _, ?_⟩
  · show 1 ≤ min 8 (s₁.length + s₂.length)
    omega
  · show _ &&& mask (min 8 (s₁.length + s₂.length)) < 256 ^ min 8 (s₁.length + s₂.length)
    rw [and_mask (min_le_left _ _)]
    exact mod_lt _ (Nat.pow_pos (by decide))

/-- The candidates are symbols that fit. -/
def FitAll (candidates : List (Symbol × ℕ)) : Prop := ∀ c ∈ candidates, c.1.Fits

theorem FitAll.gainFor (h : FitAll candidates) {s : Symbol}
    (hs : s.Fits) (gain : ℕ) : FitAll (gainFor s gain candidates) := by
  induction candidates with
  | nil =>
    intro c hc
    rw [mem_singleton.1 hc]
    exact hs
  | cons c candidates ih =>
    have hc := h c mem_cons_self
    have hrest : FitAll candidates := (forall_mem_cons.1 h).2
    rw [Fsst.gainFor]
    split
    · exact forall_mem_cons.2 ⟨hc, hrest⟩
    · split
      · exact forall_mem_cons.2 ⟨hs, forall_mem_cons.2 ⟨hc, hrest⟩⟩
      · exact forall_mem_cons.2 ⟨hc, ih hrest⟩

theorem FitAll.consider (h : FitAll candidates) {s : Symbol}
    (hs : s.Fits) (frac count : ℕ) : FitAll (consider frac s count candidates) := by
  rw [Fsst.consider]
  split
  · exact h
  · exact h.gainFor hs _

theorem FitAll.considerCode (h : FitAll candidates)
    (he : e.Sound) {c : ℕ} (hc : c ∈ live e) (frac : ℕ) (s : Counts) :
    FitAll (considerCode e frac s candidates c) := by
  have hs := symbolOf_fits he hc
  rw [Fsst.considerCode]
  dsimp only
  split
  · exact h
  have hone := h.consider hs frac
    ((if (symbolOf e c).length = 1 then 8 else 1) * s.count1[c]?.getD 0)
  split
  · exact hone
  · refine foldlRecOn (live e) _ hone fun candidates hcand c₂ _ => ?_
    split
    · exact hcand
    · exact hcand.consider (joined_fits hs) frac _

theorem Encoder.Sound.fill {ranked : List (Symbol × ℕ)} (h : e.Sound) (hr : FitAll ranked) :
    ∃ e', fill e ranked = .ok e' ∧ e'.Sound ∧ e'.shortOrByte = e.shortOrByte := by
  induction ranked generalizing e with
  | nil => exact ⟨e, rfl, h, rfl⟩
  | cons c ranked ih =>
    rw [Fsst.fill]
    split
    · exact ⟨e, rfl, h, rfl⟩
    rename_i hfull
    have hcount := h.count_le
    obtain ⟨e₁, b, hadd, hsound, -, hsob⟩ := h.add (by unfold kMaxSymbols at hfull; omega)
      (hr c mem_cons_self)
    obtain ⟨e', hfill, hsound', hsob'⟩ := ih hsound (forall_mem_cons.1 hr).2
    refine ⟨e', ?_, hsound', hsob'.trans hsob⟩
    rw [hadd]
    exact hfill

theorem Encoder.Sound.nextTable (h : e.Sound) (σ : ComparisonSort) (frac : ℕ) (s : Counts) :
    ∃ e', nextTable σ e frac s = .ok e' ∧ e'.Sound ∧ e'.shortOrByte = e.shortOrByte := by
  have hcand : FitAll ((live e).foldl (considerCode e frac s) []) :=
    foldlRecOn (live e) _ (fun c hc => absurd hc not_mem_nil)
      fun candidates hcand c hc => hcand.considerCode h hc frac s
  exact (sound_reset e).fill fun c hc => hcand c (σ.mem_sort.1 hc)

/-- What the rounds keep. -/
structure Training.Sound (t : Training) : Prop where
  table : t.table.Sound ∧ t.table.shortOrByte = none
  best : t.best.Sound ∧ t.best.shortOrByte = none

theorem Training.Sound.round {t : Training} (h : t.Sound) (σ : ComparisonSort)
    (sample : List Bytes) (frac : ℕ) : ∃ t', trainRound σ sample t frac = .ok t' ∧ t'.Sound := by
  obtain ⟨next, hnext, hsound, hsob⟩ := h.table.1.nextTable σ frac
    (sample.foldl (countValue t.table frac) t.counts.clear)
  have htable : next.Sound ∧ next.shortOrByte = none := ⟨hsound, hsob.trans h.table.2⟩
  rw [trainRound, hnext]
  split
  · exact ⟨_, rfl, htable, h.table⟩
  · exact ⟨_, rfl, htable, h.best⟩

theorem Training.Sound.rounds {t : Training} (h : t.Sound) (σ : ComparisonSort)
    (sample : List Bytes) (fracs : List ℕ) :
    ∃ t', fracs.foldlM (trainRound σ sample) t = .ok t' ∧ t'.Sound := by
  induction fracs generalizing t with
  | nil => exact ⟨t, rfl, h⟩
  | cons frac fracs ih =>
    obtain ⟨t₁, hround, hsound⟩ := h.round σ sample frac
    obtain ⟨t', hrounds, hsound'⟩ := ih hsound
    refine ⟨t', ?_, hsound'⟩
    rw [foldlM_cons, hround]
    exact hrounds

/-- **A table compression can use**: sound, and with the short lookup of
its own codes if with one. -/
structure Encoder.Ready (e : Encoder) : Prop where
  sound : e.Sound
  shortOrByte : ∀ s, e.shortOrByte = some s → s = shortOrByteEntry e

/-- **What training gives.** -/
theorem ready_trained {σ : ComparisonSort} {k : ℕ} {values : List Bytes}
    (h : train σ k values = .ok (some e)) : e.Ready := by
  rw [train] at h
  rcases hs : makeSample k values with - | sample
  · rw [hs] at h
    cases h
  rw [hs] at h
  have hinit : Training.Sound ⟨reset {}, reset {}, -2 ^ 63, {}⟩ :=
    ⟨⟨sound_reset _, rfl⟩, ⟨sound_reset _, rfl⟩⟩
  obtain ⟨t, ht, hsound⟩ := hinit.rounds σ sample [8, 38, 68, 98, 108, 128]
  dsimp only at h
  rw [trainOn, ht, ok_bind] at h
  split at h
  · cases h
  cases h
  have hbest := hsound.best.1
  refine ⟨⟨hbest.count_le, hbest.fits, fun b hb => ?_, fun w hw => ?_, fun i hi => ?_⟩, ?_⟩
  · exact ⟨(hbest.byte b hb).lt, (hbest.byte b hb).symbol, (hbest.byte b hb).len⟩
  · exact ⟨(hbest.short w hw).lt, (hbest.short w hw).symbol, (hbest.short w hw).len⟩
  · exact ⟨(hbest.long i hi).lt, (hbest.long i hi).symbol, (hbest.long i hi).len⟩
  · rintro s hs
    cases hs
    rfl

end Nanom.Codec.Fsst
