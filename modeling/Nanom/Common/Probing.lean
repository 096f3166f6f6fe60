import Mathlib.Algebra.Order.Ring.Nat
import Mathlib.Data.List.Perm.Basic
import Mathlib.Data.Nat.Find

/-!
# Open addressing with linear probing

A table is a list of slots, as many as a power of two; a slot is empty, which is
`0`, or holds a key. `walk` goes from a slot to the next, round the table, up to
one that it is to stop at.

`Holds home placed slots` is what makes a lookup right: the keys in the slots are
those placed, and from each key's home slot on up to the slot it is in no slot
is empty. Placing a key in the first empty slot behind its home keeps that.
-/

namespace Nanom.Probing

open List Nat

section Walk

variable {ε : Type*} {stuck : ε} {stop : ℕ → Except ε Bool}

/-- The slots from `s` on up to one to stop at, `k` of them at most. -/
def walk (stuck : ε) (stop : ℕ → Except ε Bool) (mask : ℕ) : ℕ → ℕ → Except ε ℕ
  | 0, _ => .error stuck
  | k + 1, s =>
    match stop s with
    | .ok true => .ok s
    | .ok false => walk stuck stop mask k ((s + 1) &&& mask)
    | .error e => .error e

/-- **A walk ends at the first slot to stop at.** -/
theorem walk_eq {b s j k : ℕ} (hs : s < 2 ^ b)
    (hbefore : ∀ i < j, stop ((s + i) % 2 ^ b) = .ok false)
    (hat : stop ((s + j) % 2 ^ b) = .ok true) (hj : j < k) :
    walk stuck stop (2 ^ b - 1) k s = .ok ((s + j) % 2 ^ b) := by
  induction j generalizing s k with
  | zero =>
    obtain ⟨k, rfl⟩ : ∃ i, k = i + 1 := ⟨k - 1, by omega⟩
    have hsame : (s + 0) % 2 ^ b = s := mod_eq_of_lt hs
    rw [hsame] at hat ⊢
    rw [walk, hat]
  | succ j ih =>
    obtain ⟨k, rfl⟩ : ∃ i, k = i + 1 := ⟨k - 1, by omega⟩
    have hfirst := hbefore 0 (succ_pos j)
    rw [add_zero, mod_eq_of_lt hs] at hfirst
    have hnext : ∀ i, ((s + 1) % 2 ^ b + i) % 2 ^ b = (s + (i + 1)) % 2 ^ b := fun i => by
      rw [mod_add_mod, add_right_comm, add_assoc]
    rw [walk, hfirst, and_two_pow_sub_one_eq_mod]
    rw [ih (mod_lt _ (Nat.two_pow_pos b)) (fun i hi => by
      rw [hnext]
      exact hbefore (i + 1) (succ_lt_succ hi)) (by rw [hnext]; exact hat)
      (lt_of_succ_lt_succ hj), hnext]

end Walk

variable {home : ℕ → ℕ} {placed : List ℕ} {slots : List ℕ} {a s j : ℕ}

/-- The keys in the slots, each reached from its home. -/
structure Holds (home : ℕ → ℕ) (placed slots : List ℕ) : Prop where
  perm : (slots.filter (· ≠ 0)).Perm placed
  reach : ∀ a ∈ placed, ∃ j < slots.length, slots[(home a + j) % slots.length]? = some a ∧
    ∀ i < j, slots[(home a + i) % slots.length]? ≠ some 0

theorem holds_empty (home : ℕ → ℕ) (n : ℕ) : Holds home [] (replicate n 0) where
  perm := by
    rw [filter_replicate]
    exact Perm.refl _
  reach := fun a ha => by cases ha

namespace Holds

section

variable (h : Holds home placed slots)
include h

theorem of_perm {placed' : List ℕ} (hp : placed.Perm placed') : Holds home placed' slots :=
  ⟨h.perm.trans hp, fun a ha => h.reach a (hp.mem_iff.2 ha)⟩

theorem of_home {home' : ℕ → ℕ} (hh : ∀ a ∈ placed, home' a = home a) : Holds home' placed slots :=
  ⟨h.perm, fun a ha => by rw [hh a ha]; exact h.reach a ha⟩

theorem mem_placed (hget : slots[s]? = some a) (ha : a ≠ 0) : a ∈ placed :=
  h.perm.mem_iff.1 (mem_filter.2 ⟨mem_of_getElem? hget, decide_eq_true ha⟩)

/-- A table that is not full has an empty slot behind each slot. -/
theorem exists_empty (hlt : placed.length < slots.length) (s : ℕ) :
    ∃ j < slots.length, slots[(s + j) % slots.length]? = some 0 ∧
      ∀ i < j, slots[(s + i) % slots.length]? ≠ some 0 := by
  have hpos : 0 < slots.length := by omega
  have hzero : 0 ∈ slots := by
    by_contra hno
    have hall : slots.filter (· ≠ 0) = slots :=
      filter_eq_self.2 fun a ha => decide_eq_true fun h0 => hno (h0 ▸ ha)
    have hlen := h.perm.length_eq
    rw [hall] at hlen
    omega
  obtain ⟨p, hp, hget⟩ := getElem_of_mem hzero
  have hexists : ∃ j, slots[(s + j) % slots.length]? = some 0 := by
    refine ⟨p + (slots.length - s % slots.length), ?_⟩
    have hmod : s % slots.length < slots.length := mod_lt s hpos
    have hround : (s + (p + (slots.length - s % slots.length))) % slots.length = p := by
      rw [← mod_add_mod, show s % slots.length + (p + (slots.length - s % slots.length))
        = p + slots.length by omega, add_mod_right, mod_eq_of_lt hp]
    rw [hround, getElem?_eq_getElem hp, hget]
  refine ⟨Nat.find hexists, ?_, Nat.find_spec hexists, fun i hi => Nat.find_min hexists hi⟩
  -- the first one is less than a round away: a round back there would be one before it
  by_contra hge
  refine Nat.find_min hexists (m := Nat.find hexists - slots.length) (by omega) ?_
  have hback : (s + (Nat.find hexists - slots.length)) % slots.length
      = (s + Nat.find hexists) % slots.length := by
    rw [← add_mod_right, add_assoc, Nat.sub_add_cancel (Nat.le_of_not_lt hge)]
  rw [hback]
  exact Nat.find_spec hexists

/-- **Placing a key** in the first empty slot behind its home. -/
theorem place (ha : a ≠ 0) (hj : j < slots.length)
    (hempty : slots[(home a + j) % slots.length]? = some 0)
    (hbefore : ∀ i < j, slots[(home a + i) % slots.length]? ≠ some 0) :
    Holds home (a :: placed) (slots.set ((home a + j) % slots.length) a) := by
  set p := (home a + j) % slots.length with hp
  have hlt : p < slots.length := (List.getElem?_eq_some_iff.1 hempty).1
  -- a slot that is not empty stays so
  have hkept : ∀ q, slots[q]? ≠ some 0 → (slots.set p a)[q]? ≠ some 0 := fun q hq => by
    by_cases hpq : p = q
    · rw [← hpq, getElem?_set_self hlt]
      exact fun h0 => ha (Option.some_inj.1 h0)
    · rw [getElem?_set_ne hpq]
      exact hq
  constructor
  · have hsplit : slots = slots.take p ++ 0 :: slots.drop (p + 1) := by
      rw [← (List.getElem?_eq_some_iff.1 hempty).2, ← drop_eq_getElem_cons hlt, take_append_drop]
    have hset : slots.set p a = slots.take p ++ a :: slots.drop (p + 1) :=
      set_eq_take_append_cons_drop.trans (if_pos hlt)
    have hold : (slots.take p).filter (· ≠ 0) ++ (slots.drop (p + 1)).filter (· ≠ 0)
        = slots.filter (· ≠ 0) := by
      rw [hsplit, filter_append, filter_cons_of_neg (by simp), ← hsplit]
    rw [hset, filter_append, filter_cons_of_pos (by simpa using ha)]
    refine perm_middle.trans (Perm.cons a ?_)
    rw [hold]
    exact h.perm
  · intro b hb
    rw [length_set]
    rcases mem_cons.1 hb with rfl | hb
    · refine ⟨j, hj, ?_, fun i hi => hkept _ (hbefore i hi)⟩
      rw [getElem?_set_self hlt]
    obtain ⟨i, hi, hget, hless⟩ := h.reach b hb
    refine ⟨i, hi, ?_, fun k hk => hkept _ (hless k hk)⟩
    rw [getElem?_set_ne, hget]
    intro heq
    rw [← heq, hempty] at hget
    have hmem : b ∈ slots.filter (· ≠ 0) := h.perm.mem_iff.2 hb
    rw [← Option.some_inj.1 hget] at hmem
    exact absurd rfl (of_decide_eq_true (mem_filter.1 hmem).2)

end

end Holds

end Nanom.Probing
