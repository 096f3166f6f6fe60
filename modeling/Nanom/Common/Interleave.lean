import Mathlib.Data.List.Flatten
/-!
# Interleavings of threads

A thread is the list of its atomic actions. An interleaving takes, again
and again, the next action of one of the threads. Where every two actions
of different threads commute, no interleaving can be told from running the
threads one after another (`Interleaves.foldl_eq`).
-/

namespace Nanom

open List

variable {α β : Type*}

/-- The actions of some threads, in an order the threads can be run in. -/
inductive Interleaves : List (List α) → List α → Prop
  | done {threads : List (List α)} (h : ∀ l ∈ threads, l = []) : Interleaves threads []
  | step {pre post : List (List α)} {a : α} {l s : List α}
      (h : Interleaves (pre ++ l :: post) s) : Interleaves (pre ++ (a :: l) :: post) (a :: s)

/-- Two threads do not get in each other's way. -/
def Independent (act : β → α → β) (l l' : List α) : Prop :=
  ∀ a ∈ l, ∀ b ∈ l', ∀ x, act (act x a) b = act (act x b) a

namespace Interleaves

variable {threads : List (List α)} {l s : List α} {act : β → α → β}

/-- The next thread starts when the one before it is done. -/
theorem cons_thread (l : List α) (h : Interleaves threads s) :
    Interleaves (l :: threads) (l ++ s) := by
  induction l with
  | nil =>
    -- a thread without actions is never chosen
    induction h with
    | done h => exact .done (forall_mem_cons.2 ⟨rfl, h⟩)
    | @step pre post a l s _ ih => exact @step _ ([] :: pre) post a l s ih
  | cons a l ih => exact @step _ [] threads a l (l ++ s) ih

/-- One after another. -/
theorem flatten (threads : List (List α)) : Interleaves threads threads.flatten := by
  induction threads with
  | nil => exact .done fun l hl => (by cases hl)
  | cons l threads ih => exact ih.cons_thread l

/-- Every action is one of some thread's. -/
theorem mem_flatten {a : α} (h : Interleaves threads s) (ha : a ∈ s) : a ∈ threads.flatten := by
  induction h with
  | done h => cases ha
  | @step pre post b l s _ ih =>
    rw [flatten_append, flatten_cons] at ih ⊢
    rcases mem_cons.1 ha with rfl | ha
    · simp
    · have hmem := ih ha
      simp only [mem_append, mem_cons] at hmem ⊢
      exact hmem.imp_right (Or.imp_left Or.inr)

/-- An action moves past those it commutes with. -/
theorem foldl_act_comm {a : α} {bs : List α}
    (h : ∀ b ∈ bs, ∀ x, act (act x b) a = act (act x a) b) (x : β) :
    bs.foldl act (act x a) = act (bs.foldl act x) a := by
  induction bs generalizing x with
  | nil => rfl
  | cons b bs ih =>
    rw [foldl_cons, foldl_cons, ← h b mem_cons_self, ih (forall_mem_cons.1 h).2]

/-- **Independent threads run as if one after another.** -/
theorem foldl_eq (h : Interleaves threads s) (hind : threads.Pairwise (Independent act)) (x : β) :
    s.foldl act x = threads.flatten.foldl act x := by
  induction h generalizing x with
  | done h => rw [flatten_eq_nil_iff.2 h]
  | @step pre post a l s _ ih =>
    -- what is left of the thread is independent of the others still
    have hrest : (pre ++ l :: post).Pairwise (Independent act) := by
      rw [pairwise_append, pairwise_cons] at hind ⊢
      obtain ⟨hpre, ⟨hl, hpost⟩, hcross⟩ := hind
      refine ⟨hpre, ⟨fun l' hl' b hb => hl l' hl' b (mem_cons_of_mem a hb), hpost⟩, ?_⟩
      intro l₀ hl₀ l' hl'
      rcases mem_cons.1 hl' with rfl | hl'
      · exact fun b hb c hc => hcross l₀ hl₀ _ mem_cons_self b hb c
          (mem_cons_of_mem a hc)
      · exact hcross l₀ hl₀ l' (mem_cons_of_mem _ hl')
    -- the action taken commutes with all of the threads before its own
    have hcomm : ∀ b ∈ pre.flatten, ∀ x, act (act x b) a = act (act x a) b := by
      intro b hb
      obtain ⟨l₀, hl₀, hb⟩ := List.mem_flatten.1 hb
      exact (pairwise_append.1 hind).2.2 l₀ hl₀ _ mem_cons_self b hb a
        mem_cons_self
    rw [foldl_cons, ih hrest, flatten_append, flatten_append, flatten_cons,
      flatten_cons, foldl_append, foldl_append, foldl_act_comm hcomm,
      foldl_append, foldl_append, foldl_cons]

end Interleaves

end Nanom
