import Mathlib.Data.List.Sort
/-!
# Comparison sorts

What a library sort promises about its result and no more: a permutation of its
input in which no element precedes a smaller one, found by asking the comparator
and nothing else. The last clause is `map_eq`: an input whose elements compare
the same way is permuted the same way. How ties fall is left open.
-/

namespace Nanom

/-- A comparator a sort may be called with. -/
structure StrictWeak {α : Type} (lt : α → α → Bool) : Prop where
  /-- Nothing is before something that is before it. -/
  asymm : ∀ a b, lt a b = true → lt b a = false
  /-- Not being before is transitive. -/
  trans : ∀ a b c, lt a b = false → lt b c = false → lt a c = false

/-- A sorting routine, by what it promises. -/
structure ComparisonSort where
  /-- The routine, at a comparator. -/
  sort : {α : Type} → (α → α → Bool) → List α → List α
  /-- It permutes its input. -/
  perm : ∀ {α : Type} (lt : α → α → Bool) (l : List α), (sort lt l).Perm l
  /-- No element precedes a smaller one. -/
  sorted : ∀ {α : Type} {lt : α → α → Bool}, StrictWeak lt → ∀ l : List α,
    (sort lt l).Pairwise fun a b => lt b a = false
  /-- It sees its elements through the comparator only. -/
  map_eq : ∀ {α β : Type} {lt : α → α → Bool} {lt' : β → β → Bool} (f : α → β) (l : List α),
    (∀ a ∈ l, ∀ b ∈ l, lt' (f a) (f b) = lt a b) → sort lt' (l.map f) = (sort lt l).map f

namespace ComparisonSort

variable (σ : ComparisonSort) {α : Type} {lt : α → α → Bool} {l : List α}

theorem mem_sort {a : α} : a ∈ σ.sort lt l ↔ a ∈ l := (σ.perm lt l).mem_iff

@[simp] theorem sort_singleton (a : α) : σ.sort lt [a] = [a] :=
  List.perm_singleton.1 (σ.perm lt [a])

/-- Insertion sort keeps the promise. -/
def insertion : ComparisonSort where
  sort lt l := l.insertionSort fun a b => lt b a = false
  perm lt l := List.perm_insertionSort _ l
  sorted := by
    intro α lt hlt l
    have htot : Std.Total fun a b : α => lt b a = false := ⟨fun a b => by
      cases h : lt b a with
      | false => exact Or.inl rfl
      | true => exact Or.inr (hlt.asymm b a h)⟩
    have htrans : IsTrans α fun a b => lt b a = false :=
      ⟨fun a b c hab hbc => hlt.trans c b a hbc hab⟩
    exact List.pairwise_insertionSort _ l
  map_eq := by
    intro α β lt lt' f l h
    exact (List.map_insertionSort _ _ f l fun a ha b hb => by rw [h b hb a ha]).symm

end ComparisonSort

end Nanom
