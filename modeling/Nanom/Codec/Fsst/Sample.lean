import Mathlib.Data.Int.GCD
import Mathlib.Data.Nat.ModEq
import Mathlib.Data.Set.Finite.Basic
import Mathlib.Data.Nat.Bitwise
import Mathlib.Order.Interval.Finset.Nat
import Nanom.Codec.Fsst.Train

/-!
# FSST — the draws of the sample end

A draw of an empty value gets the sample no further. What ends the loop is
the generator: its state is advanced by an odd number, and so goes through
all words (`exists_state`), and a state is mixed into a word in a way that
can be undone (`bijOn_mix`). So in a period every index is drawn, and with it
a value that is not empty.
-/

namespace Nanom.Codec.Fsst

open Set (BijOn InjOn Iio MapsTo)

variable {values sample : List Bytes} {s t taken : ℕ}

/-! ## Words -/

theorem xor_shiftRight_injective {k : ℕ} (hk : 0 < k) :
    Function.Injective fun x : ℕ => x ^^^ x >>> k := by
  intro x y h
  -- the bits that differ are those bits shifted, so there are none
  have hdiff : x ^^^ y = (x ^^^ y) >>> k := by
    rw [Nat.shiftRight_xor_distrib, ← Nat.xor_eq_zero_iff]
    dsimp only at h
    calc x ^^^ y ^^^ (x >>> k ^^^ y >>> k) = x ^^^ x >>> k ^^^ (y ^^^ y >>> k) := by
          ac_rfl
      _ = 0 := by rw [h, Nat.xor_self]
  refine Nat.xor_eq_zero_iff.1 (Nat.eq_zero_of_not_pos fun hpos => ?_)
  rw [Nat.shiftRight_eq_div_pow] at hdiff
  have := Nat.div_lt_self hpos (Nat.one_lt_two_pow hk.ne')
  omega

theorem injOn_mul {m : ℕ} (hm : Nat.gcd (2 ^ 64) m = 1) :
    InjOn (fun x => u64 (x * m)) (Iio (2 ^ 64)) := by
  intro x hx y hy h
  have hmod := Nat.ModEq.cancel_right_of_coprime (c := m) hm h
  exact hmod.eq_of_lt_of_lt hx hy

/-! ## The generator -/

/-- The number drawn in a state. -/
def mix (state : ℕ) : ℕ :=
  let z := u64 ((state ^^^ (state >>> 30)) * 0xBF58476D1CE4E5B9)
  let z := u64 ((z ^^^ (z >>> 27)) * 0x94D049BB133111EB)
  z ^^^ (z >>> 31)

theorem splitmix_snd (s : ℕ) : (splitmix s).2 = mix (splitmix s).1 := rfl

theorem u64_mem (x : ℕ) : u64 x ∈ Iio (2 ^ 64) := Nat.mod_lt x (by decide)

theorem splitmix_lt (s : ℕ) : (splitmix s).1 < 2 ^ 64 := u64_mem _

theorem mapsTo_xor (k : ℕ) : MapsTo (fun x => x ^^^ x >>> k) (Iio (2 ^ 64)) (Iio (2 ^ 64)) :=
  fun x hx => Nat.xor_lt_two_pow hx (lt_of_le_of_lt (Nat.shiftRight_le x k) hx)

/-- **A state can be told from the number drawn in it.** -/
theorem bijOn_mix : BijOn mix (Iio (2 ^ 64)) (Iio (2 ^ 64)) := by
  have hmaps : MapsTo mix (Iio (2 ^ 64)) (Iio (2 ^ 64)) := fun x _ => mapsTo_xor 31 (u64_mem _)
  refine ((Set.finite_Iio _).injOn_iff_bijOn_of_mapsTo hmaps).1 ?_
  intro x hx y hy h
  have hsecond := injOn_mul (by decide) (mapsTo_xor 27 (u64_mem _)) (mapsTo_xor 27 (u64_mem _))
    (xor_shiftRight_injective (by decide) h)
  have hfirst := injOn_mul (by decide) (mapsTo_xor 30 hx) (mapsTo_xor 30 hy)
    (xor_shiftRight_injective (by decide) hsecond)
  exact xor_shiftRight_injective (by decide) hfirst

/-- The state after some draws. -/
def stateAfter (s j : ℕ) : ℕ := (fun s => (splitmix s).1)^[j] s

theorem stateAfter_zero (s : ℕ) : stateAfter s 0 = s := rfl

theorem stateAfter_succ (s j : ℕ) : stateAfter s (j + 1) = stateAfter (splitmix s).1 j :=
  Function.iterate_succ_apply _ j s

theorem stateAfter_eq (hs : s < 2 ^ 64) (j : ℕ) :
    stateAfter s j = u64 (s + 0x9E3779B97F4A7C15 * j) := by
  induction j with
  | zero => exact (u64_of_lt hs).symm
  | succ j ih =>
    rw [stateAfter, Function.iterate_succ_apply', ← stateAfter, ih]
    simp only [splitmix, u64]
    omega

/-- **The generator goes through all states.** -/
theorem exists_state (hs : s < 2 ^ 64) (ht : t < 2 ^ 64) : ∃ j < 2 ^ 64, stateAfter s j = t := by
  obtain ⟨j, hj, hmul⟩ := Nat.exists_mul_mod_eq_of_coprime (k := 2 ^ 64)
    (n := 0x9E3779B97F4A7C15) (t + (2 ^ 64 - s)) (by decide) (by decide)
  refine ⟨j, hj, ?_⟩
  rw [stateAfter_eq hs, u64]
  omega

/-! ## The draws -/

/-- The value drawn after `j` others. -/
def drawn (values : List Bytes) (s j : ℕ) : Bytes :=
  (values[mix (stateAfter s (j + 1)) % values.length]?).getD []

theorem drawn_zero : drawn values s 0 = (values[(splitmix s).2 % values.length]?).getD [] := by
  rw [drawn, stateAfter_succ, stateAfter_zero, splitmix_snd]

theorem exists_drawn (hn : values.length < 2 ^ 64) (hsum : (values.map List.length).sum ≠ 0)
    (s : ℕ) : ∃ j < 2 ^ 64, drawn values s j ≠ [] := by
  obtain ⟨v, hv, hpos⟩ : ∃ v ∈ values, v.length ≠ 0 := by
    by_contra hall
    push Not at hall
    exact hsum (List.sum_eq_zero (List.forall_mem_map.2 hall))
  obtain ⟨i, hi, rfl⟩ := List.getElem_of_mem hv
  obtain ⟨x, hx, hmix⟩ := bijOn_mix.surjOn (show i ∈ Iio (2 ^ 64) from lt_trans hi hn)
  obtain ⟨j, hj, hstate⟩ := exists_state (splitmix_lt s) hx
  refine ⟨j, hj, ?_⟩
  rw [drawn, stateAfter_succ, hstate, hmix, Nat.mod_eq_of_lt hi, List.getElem?_eq_getElem hi]
  exact List.ne_nil_of_length_pos (Nat.pos_of_ne_zero hpos)

/-- The draws from here on end. -/
def Ends (values : List Bytes) (s taken : ℕ) (sample : List Bytes) : Prop :=
  ∃ k, (Loop.run (drawRound values) k (s, taken, sample)).isSome

theorem ends_of_le (h : kSampleTarget ≤ taken) : Ends values s taken sample := by
  refine ⟨1, ?_⟩
  rw [Loop.run, drawRound, if_pos h]
  rfl

theorem ends_of_next (h : Ends values (splitmix s).1 (taken + (drawn values s 0).length)
    (sample ++ [drawn values s 0])) : Ends values s taken sample := by
  by_cases hend : kSampleTarget ≤ taken
  · exact ends_of_le hend
  obtain ⟨k, hk⟩ := h
  refine ⟨k + 1, ?_⟩
  have hround : drawRound values (s, taken, sample) = .next ((splitmix s).1,
      taken + (drawn values s 0).length, sample ++ [drawn values s 0]) := by
    rw [drawn_zero, drawRound, if_neg hend]
  rw [Loop.run, hround]
  exact hk

theorem ends_of_drawn {low j : ℕ} (hj : drawn values s j ≠ []) (hlow : low ≤ taken)
    (hmore : ∀ s' taken' sample', low < taken' → Ends values s' taken' sample') :
    Ends values s taken sample := by
  induction j generalizing s taken sample with
  | zero =>
    have hpos := List.length_pos_of_ne_nil hj
    exact ends_of_next (hmore _ _ _ (by omega))
  | succ j ih =>
    rw [drawn, stateAfter_succ] at hj
    exact ends_of_next (ih hj (by omega))

theorem draws_end (hn : values.length < 2 ^ 64) (hsum : (values.map List.length).sum ≠ 0)
    (left : ℕ) (hleft : kSampleTarget ≤ taken + left) : Ends values s taken sample := by
  -- over the bytes still to be taken
  induction left generalizing s taken sample with
  | zero => exact ends_of_le hleft
  | succ left ih =>
    obtain ⟨j, -, hj⟩ := exists_drawn hn hsum s
    exact ends_of_drawn hj (le_refl taken) fun s' taken' sample' hmore => ih (by omega)

/-- **The sample is drawn**: the states are visited in turn, a number drawn
is one state's alone, a value that is not empty is drawn in every period, and
the draws end. -/
theorem sampling_ends (hn : values.length < 2 ^ 64)
    (htotal : kSampleTarget < (values.map List.length).sum) :
    (∀ s < 2 ^ 64, ∀ t < 2 ^ 64, ∃ j < 2 ^ 64, stateAfter s j = t) ∧
      BijOn mix (Iio (2 ^ 64)) (Iio (2 ^ 64)) ∧
      (∀ s, ∃ j < 2 ^ 64, drawn values s j ≠ []) ∧
      ∃ k, (makeSample k values).isSome := by
  have hsum : (values.map List.length).sum ≠ 0 := Nat.ne_zero_of_lt htotal
  refine ⟨fun s hs t ht => exists_state hs ht, bijOn_mix, exists_drawn hn hsum, ?_⟩
  unfold makeSample
  dsimp only
  split
  · exact ⟨0, rfl⟩
  · exact draws_end hn hsum kSampleTarget (Nat.le_add_left _ _)

/-- Most values are empty, and the bytes of the others are more than the sample
takes. -/
theorem sampling_ends_mostly_empty :
    ∃ k, (makeSample k [[], List.replicate 16384 0, [], [], [1]]).isSome :=
  (sampling_ends (by decide) (by decide +kernel)).2.2.2

end Nanom.Codec.Fsst
