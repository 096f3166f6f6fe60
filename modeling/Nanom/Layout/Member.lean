import Mathlib.Data.List.Nodup
import Nanom.Layout.BitFields

/-!
# Members side by side

A `Member` is a place of some bits with a way to read and to write it. It is
lawful when the value read and its bits determine each other, and writing changes
these only and makes the value readable. Members one after another are a lawful
member together (`Member.row_lawful`): only to write them, no two may share a bit.
-/

namespace Nanom.Layout

open Nom List

/-- The bits a value is read from, how many there must be at least, which values
can lie there, and how they are read and written. -/
structure Member (V : Type) where
  bits : List ℕ
  need : ℕ
  InRange : V → Prop
  read : Bytes → V
  write : V → Bytes → Emitted

namespace Member

structure Lawful {V : Type} (m : Member V) : Prop where
  reads : ∀ {b b' : Bytes}, m.need ≤ 8 * b.length → m.need ≤ 8 * b'.length →
    (m.read b = m.read b' ↔ ∀ x ∈ m.bits, bitOf b x = bitOf b' x)
  inRange : ∀ {b : Bytes}, m.need ≤ 8 * b.length → m.InRange (m.read b)
  writes : ∀ {v : V} {p : Bytes}, m.bits.Nodup → m.need ≤ 8 * p.length → m.InRange v →
    ∃ p', m.write v p = ⟨p', none⟩ ∧ p'.length = p.length ∧ m.read p' = v
      ∧ ∀ x ∉ m.bits, bitOf p' x = bitOf p x
  refuses : ∀ {v : V}, ¬ m.InRange v → ∀ p, (m.write v p).err.isSome = true

variable {n : ℕ} {V : Fin n → Type}

/-- Members one after another, as a member. -/
def row (ms : (k : Fin n) → Member (V k)) (need : ℕ) : Member ((k : Fin n) → V k) where
  bits := (finRange n).flatMap fun k => (ms k).bits
  need := need
  InRange v := ∀ k, (ms k).InRange (v k)
  read b := fun k => (ms k).read b
  write v p := emitAll (fun k p => (ms k).write (v k) p) p

section Row

variable {ms : (k : Fin n) → Member (V k)} {need : ℕ} {v : (k : Fin n) → V k} {p : Bytes}

theorem mem_row_bits {x : ℕ} : x ∈ (row ms need).bits ↔ ∃ k, x ∈ (ms k).bits := by
  simp only [row, mem_flatMap, mem_finRange, true_and]

/-- What is known when the first `m` members are written. -/
structure Written (ms : (k : Fin n) → Member (V k)) (need : ℕ) (v : (k : Fin n) → V k) (p : Bytes)
    (m : ℕ) (s : Emitted) : Prop where
  err : s.err = none
  length : s.bytes.length = p.length
  reads : ∀ k : Fin n, k.1 < m → (ms k).read s.bytes = v k
  frame : ∀ x ∉ (row ms need).bits, bitOf s.bytes x = bitOf p x

section

variable (hms : ∀ k, (ms k).Lawful) (hneed : ∀ k, (ms k).need ≤ need)
include hms hneed

theorem Written.step (hbits : (row ms need).bits.Nodup) (hp : need ≤ 8 * p.length)
    (hv : ∀ k, (ms k).InRange (v k)) (k : Fin n) (s : Emitted) (h : Written ms need v p k s) :
    Written ms need v p (k + 1) (if s.err.isSome then s else (ms k).write (v k) s.bytes) := by
  obtain ⟨hnodup, hdisjoint⟩ := nodup_flatMap.1 hbits
  have hs : ∀ j, (ms j).need ≤ 8 * s.bytes.length := fun j => by
    rw [h.length]
    exact (hneed j).trans hp
  obtain ⟨p', hwrite, hlen, hread, hframe⟩ :=
    (hms k).writes (hnodup k (mem_finRange k)) (hs k) (hv k)
  have herr : ¬ s.err.isSome = true := by rw [h.err]; exact Bool.false_ne_true
  rw [if_neg herr, hwrite]
  refine ⟨rfl, hlen.trans h.length, fun j hj => ?_, fun x hx => ?_⟩
  · obtain heq | hlt : j = k ∨ j < k := by omega
    · rw [heq]
      exact hread
    · -- The bits of an earlier member are not among those written.
      rw [← h.reads j hlt, (hms j).reads (by rw [hlen]; exact hs j) (hs j)]
      have hjk := pairwise_iff_getElem.1 hdisjoint j k (by simp) (by simp) hlt
      simp only [getElem_finRange, Fin.cast_mk, Fin.eta] at hjk
      exact fun x hx => hframe x fun hk => hjk hx hk
  · rw [hframe x fun hk => hx (mem_row_bits.2 ⟨k, hk⟩), h.frame x hx]

theorem row_writes (hbits : (row ms need).bits.Nodup) (hp : need ≤ 8 * p.length)
    (hv : ∀ k, (ms k).InRange (v k)) :
    ∃ p', (row ms need).write v p = ⟨p', none⟩ ∧ p'.length = p.length ∧ (row ms need).read p' = v
      ∧ ∀ x ∉ (row ms need).bits, bitOf p' x = bitOf p x := by
  have hall : Written ms need v p n ((row ms need).write v p) :=
    foldl_finRange (Written.step hms hneed hbits hp hv)
      ⟨rfl, rfl, fun k hk => absurd hk (Nat.not_lt_zero _), fun _ _ => rfl⟩
  refine ⟨_, ?_, hall.length, funext fun k => hall.reads k k.2, hall.frame⟩
  rw [← hall.err]

end

/-- A write that always fails makes the whole fail. -/
theorem emitAll_err {write : Fin n → Bytes → Emitted} {k : Fin n}
    (h : ∀ p, (write k p).err.isSome = true) (p : Bytes) : (emitAll write p).err.isSome = true := by
  have hall : k.1 < n → (emitAll write p).err.isSome = true :=
    foldl_finRange (f := fun s k => if s.err.isSome then s else write k s.bytes)
      (I := fun m s => k.1 < m → s.err.isSome = true) (fun j s hs hk => ?_)
      (fun hk => absurd hk (Nat.not_lt_zero _))
  · exact hall k.2
  · split
    · assumption
    · rename_i herr
      obtain heq | hlt : k = j ∨ k < j := by omega
      · rw [← heq]; exact h _
      · exact absurd (hs hlt) herr

/-- **Lawful members one after another are a lawful member.** -/
theorem row_lawful (hms : ∀ k, (ms k).Lawful) (hneed : ∀ k, (ms k).need ≤ need) :
    (row ms need).Lawful where
  reads hb hb' := by
    have hk := fun k => (hms k).reads ((hneed k).trans hb) ((hneed k).trans hb')
    simp only [mem_row_bits]
    rw [funext_iff]
    exact ⟨fun h x ⟨k, hx⟩ => (hk k).1 (h k) x hx, fun h k => (hk k).2 fun x hx => h x ⟨k, hx⟩⟩
  inRange hb := fun k => (hms k).inRange ((hneed k).trans hb)
  writes := row_writes hms hneed
  refuses hv p := by
    obtain ⟨k, hk⟩ := not_forall.1 hv
    exact emitAll_err ((hms k).refuses hk) p

end Row

end Member

end Nanom.Layout
