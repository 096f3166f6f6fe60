import Mathlib.Data.List.Basic
import Mathlib.Tactic.Basic

/-!
# Two machines in lockstep

A machine has a part that is compared, its `view`, to which nothing happens once
it has failed, and a number that what it does next may depend on. Two machines
are `Along` each other if their views are related and, unless one of them has
failed, their numbers are equal. What is done to both alike keeps them so
(`InStep`); `InStep.of_mark` is the rule for a step that depends on the number.
-/

namespace Nanom.Lockstep

/-- A state as it is compared: a view, which may be a failed one, and a number. -/
class Machine (σ : Type) (W : outParam Type) where
  view : σ → W
  failed : W → Prop
  mark : σ → ℕ

open Machine (view mark)

variable {σ τ W V : Type} [Machine σ W] [Machine τ V] {R : W → V → Prop}
variable {f f' : σ → σ} {g g' : τ → τ}

/-- The view is a failed one. -/
def Failed (s : σ) : Prop := @Machine.failed σ W _ (view s)

/-- Nothing happens to the view after a failure. -/
def Still (f : σ → σ) : Prop := ∀ s, Failed s → view (f s) = view s

/-- Related views, and the same number unless one of the two has failed. -/
structure Along (R : W → V → Prop) (s : σ) (t : τ) : Prop where
  view : R (view s) (view t)
  mark : ¬ Failed s → ¬ Failed t → mark s = mark t

/-- The same thing, done to two machines that go along. -/
structure InStep (R : W → V → Prop) (f : σ → σ) (g : τ → τ) : Prop where
  left : Still f
  right : Still g
  along : ∀ {s t}, Along R s t → Along R (f s) (g t)

theorem Still.failed (hf : Still f) {s : σ} (h : Failed s) : Failed (f s) := by
  rw [Failed, hf s h]
  exact h

theorem Still.comp (hf : Still f) (hf' : Still f') : Still fun s => f' (f s) :=
  fun s hs => (hf' _ (hf.failed hs)).trans (hf s hs)

theorem inStep_id : InStep R (fun s : σ => s) fun t : τ => t :=
  ⟨fun _ _ => rfl, fun _ _ => rfl, fun hst => hst⟩

theorem InStep.comp (h : InStep R f g) (h' : InStep R f' g') :
    InStep R (fun s => f' (f s)) fun t => g' (g t) :=
  ⟨h.left.comp h'.left, h.right.comp h'.right, fun hst => h'.along (h.along hst)⟩

theorem inStep_foldl {α : Type} {f : σ → α → σ} {g : τ → α → τ}
    (h : ∀ a, InStep R (fun s => f s a) fun t => g t a) (l : List α) :
    InStep R (fun s => l.foldl f s) fun t => l.foldl g t := by
  induction l with
  | nil => exact inStep_id
  | cons a l ih => exact (h a).comp ih

/-- A step that leaves the numbers alone. -/
theorem inStep_of_view (hf : Still f) (hg : Still g) (hfm : ∀ s, mark (f s) = mark s)
    (hgm : ∀ t, mark (g t) = mark t)
    (h : ∀ {s t}, R (view s) (view t) → R (view (f s)) (view (g t))) : InStep R f g := by
  refine ⟨hf, hg, fun hst => ⟨h hst.view, fun hs ht => ?_⟩⟩
  rw [hfm, hgm, hst.mark (fun h => hs (hf.failed h)) fun h => ht (hg.failed h)]

/-- Steps with the same views are in step too. -/
theorem InStep.congr (h : InStep R f g)
    (hf : ∀ s, view (f' s) = view (f s) ∧ (¬ Failed s → mark (f' s) = mark (f s)))
    (hg : ∀ t, view (g' t) = view (g t) ∧ (¬ Failed t → mark (g' t) = mark (g t))) :
    InStep R f' g' := by
  refine ⟨fun s hs => (hf s).1.trans (h.left s hs), fun t ht => (hg t).1.trans (h.right t ht),
    fun {s t} hst => ?_⟩
  obtain ⟨hview, hmark⟩ := h.along hst
  refine ⟨by rw [(hf s).1, (hg t).1]; exact hview, fun hs ht => ?_⟩
  rw [Failed, (hf s).1] at hs
  rw [Failed, (hg t).1] at ht
  rw [(hf s).2 fun h' => hs (h.left.failed h'), (hg t).2 fun h' => ht (h.right.failed h')]
  exact hmark hs ht

/-- Steps that are not seen. -/
theorem inStep_silent (hf : ∀ s, view (f s) = view s ∧ mark (f s) = mark s)
    (hg : ∀ t, view (g t) = view t ∧ mark (g t) = mark t) : InStep R f g :=
  inStep_id.congr (fun s => ⟨(hf s).1, fun _ => (hf s).2⟩) fun t => ⟨(hg t).1, fun _ => (hg t).2⟩

/-- A step that is not made after a failure. -/
theorem InStep.guard (h : InStep R f g)
    (hf : ∀ s, (Failed s → f' s = s) ∧ (¬ Failed s → f' s = f s))
    (hg : ∀ t, (Failed t → g' t = t) ∧ (¬ Failed t → g' t = g t)) : InStep R f' g' := by
  refine h.congr (fun s => ⟨?_, fun hs => by rw [(hf s).2 hs]⟩)
    fun t => ⟨?_, fun ht => by rw [(hg t).2 ht]⟩
  · by_cases hs : Failed s
    · rw [(hf s).1 hs, h.left s hs]
    · rw [(hf s).2 hs]
  · by_cases ht : Failed t
    · rw [(hg t).1 ht, h.right t ht]
    · rw [(hg t).2 ht]

/-- **A step that depends on the number**: the two have the same one, or one of
them has failed and does nothing. -/
theorem InStep.of_mark {f : ℕ → σ → σ} {g : ℕ → τ → τ} (h : ∀ k, InStep R (f k) (g k)) :
    InStep R (fun s => f (mark s) s) fun t => g (mark t) t := by
  refine ⟨fun s => (h _).left s, fun t => (h _).right t, fun {s t} hst => ?_⟩
  by_cases hs : Failed s
  · refine ⟨?_, fun h' => absurd ((h _).left.failed hs) h'⟩
    rw [(h _).left s hs, ← (h (mark t)).left s hs]
    exact ((h _).along hst).view
  by_cases ht : Failed t
  · refine ⟨?_, fun _ h' => absurd ((h _).right.failed ht) h'⟩
    rw [(h _).right t ht, ← (h (mark s)).right t ht]
    exact ((h _).along hst).view
  · rw [hst.mark hs ht]
    exact (h _).along hst

end Nanom.Lockstep
