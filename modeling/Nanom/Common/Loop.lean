import Mathlib.Data.List.Basic
import Mathlib.Data.List.Range
import Mathlib.Tactic.Basic

/-!
# Fallible programs and their loops

`Refines E S` compares a program that can stop with an error against a plain one
that can only give up: both give results that `S` relates, or the first stops
with an error of `E` and the second gives up; any other error does not happen.
The relation passes through `bind`, and `run_sim` carries it over two loops that
go round together. `forBy` is the counting loop, with the rule for its
invariants.
-/

namespace Nanom

open List

variable {γ ε : Type*} {k l : ℕ}

section Refines

universe u v

variable {ε : Type*} {α α' : Type u} {β β' : Type v} {E : ε → Prop}
variable {S : α → β → Prop} {T : α' → β' → Prop}

/-- **Refinement of fallible programs**: related results, or an error of
`E` where the plain program gives up. -/
inductive Refines (E : ε → Prop) (S : α → β → Prop) : Except ε α → Option β → Prop
  | ok {a : α} {b : β} : S a b → Refines E S (.ok a) (some b)
  | error {e : ε} : E e → Refines E S (.error e) none

theorem ok_bind (a : α) (f : α → Except ε α') : (Except.ok a >>= f) = f a := rfl

/-- A program that goes on with a result: both have one. -/
theorem bind_eq_ok {α β : Type u} {x : Except ε α} {f : α → Except ε β} {r : β} :
    (x >>= f) = .ok r ↔ ∃ a, x = .ok a ∧ f a = .ok r := by
  cases x with
  | error e =>
    constructor
    · intro h
      cases h
    · rintro ⟨a, h, -⟩
      cases h
  | ok a =>
    constructor
    · intro h
      exact ⟨a, rfl, h⟩
    · rintro ⟨a', h, hf⟩
      cases h
      exact hf

/-- A check that was passed. -/
theorem check_eq_ok {c : Prop} [Decidable c] {e : ε} {x : Except ε α} {r : α} :
    (if c then .error e else x) = .ok r ↔ ¬c ∧ x = .ok r := by
  by_cases h : c
  · simp [h]
  · simp [h]

/-- A program over a list none of whose steps fails. -/
theorem mapM_ok {l : List α} {f : α → Except ε β} {g : α → β} (h : ∀ a ∈ l, f a = .ok (g a)) :
    l.mapM f = .ok (l.map g) := by
  induction l with
  | nil => rfl
  | cons a l ih =>
    have htail := ih (forall_mem_cons.1 h).2
    rw [mapM_cons, h a mem_cons_self, htail]
    rfl

/-- A fold whose steps append to the output. -/
theorem foldlM_append {l : List γ} {f : List β → γ → Except ε (List β)}
    {g : γ → List β} (h : ∀ c ∈ l, ∀ out, f out c = .ok (out ++ g c)) (out : List β) :
    l.foldlM f out = .ok (out ++ l.flatMap g) := by
  induction l generalizing out with
  | nil => rw [flatMap_nil, append_nil]; rfl
  | cons c l ih =>
    rw [foldlM_cons, h c mem_cons_self, ok_bind,
      ih (forall_mem_cons.1 h).2, flatMap_cons, append_assoc]

/-- A fold over the first `n` numbers, with an invariant that counts them. -/
theorem foldl_finRange {n : ℕ} {f : β → Fin n → β} {I : ℕ → β → Prop}
    (h : ∀ (k : Fin n) b, I k b → I (k + 1) (f b k)) {b : β} (hb : I 0 b) :
    I n ((finRange n).foldl f b) := by
  have hall : ∀ m ≤ n, I m (((finRange n).take m).foldl f b) := by
    intro m hm
    induction m with
    | zero => exact hb
    | succ m ih =>
      have hlt : m < (finRange n).length := by rw [length_finRange]; omega
      rw [take_succ_eq_append_getElem hlt, foldl_append, getElem_finRange]
      exact h ⟨m, hm⟩ _ (ih (by omega))
  have hn := hall n le_rfl
  rwa [take_of_length_le (le_of_eq length_finRange)] at hn

/-- **The rule of the fold**: what holds at the start and goes with each
step holds of the whole list at the end. -/
theorem foldlM_inv {l : List γ} {f : α → γ → Except ε α} {I : List γ → α → Prop}
    (h : ∀ done c rest a, l = done ++ c :: rest → I done a →
      ∃ a', f a c = .ok a' ∧ I (done ++ [c]) a')
    {a : α} (ha : I [] a) : ∃ a', l.foldlM f a = .ok a' ∧ I l a' := by
  suffices H : ∀ rest done a, l = done ++ rest → I done a →
      ∃ a', rest.foldlM f a = .ok a' ∧ I l a' from H l [] a rfl ha
  intro rest
  induction rest with
  | nil =>
    intro done a hl hI
    rw [append_nil] at hl
    exact ⟨a, rfl, hl ▸ hI⟩
  | cons c rest ih =>
    intro done a hl hI
    obtain ⟨a₁, hstep, hI₁⟩ := h done c rest a hl hI
    obtain ⟨a', hrun, hI'⟩ := ih (done ++ [c]) a₁ (by rw [hl, append_assoc]; rfl) hI₁
    refine ⟨a', ?_, hI'⟩
    rw [foldlM_cons, hstep, ok_bind, hrun]

/-- The same, for a fold that is known to have a result. -/
theorem foldlM_ok_inv {l : List γ} {f : α → γ → Except ε α} {I : List γ → α → Prop}
    (h : ∀ done c a a', I done a → f a c = .ok a' → I (done ++ [c]) a')
    {a a' : α} (ha : I [] a) (hl : l.foldlM f a = .ok a') : I l a' := by
  suffices H : ∀ rest done a, I done a → rest.foldlM f a = .ok a' → I (done ++ rest) a' from
    H l [] a ha hl
  intro rest
  induction rest with
  | nil =>
    intro done a hI hrun
    cases hrun
    rw [append_nil]
    exact hI
  | cons c rest ih =>
    intro done a hI hrun
    rw [foldlM_cons] at hrun
    cases hstep : f a c with
    | error e => rw [hstep] at hrun; cases hrun
    | ok a₁ =>
      rw [hstep] at hrun
      have hI' := ih (done ++ [c]) a₁ (h done c a a₁ hI hstep) hrun
      rw [append_assoc] at hI'
      exact hI'

namespace Refines

theorem bind {r : Except ε α} {q : Option β} {f : α → Except ε α'} {g : β → Option β'}
    (h : Refines E S r q) (hfg : ∀ a b, S a b → Refines E T (f a) (g b)) :
    Refines E T (r >>= f) (q >>= g) := by
  cases h with
  | ok hab => exact hfg _ _ hab
  | error he => exact .error he

theorem map_right {r : Except ε α} {q : Option β} {g : β → β'} {S' : α → β' → Prop}
    (h : Refines E S r q) (hg : ∀ a b, S a b → S' a (g b)) : Refines E S' r (q.map g) := by
  cases h with
  | ok hab => exact .ok (hg _ _ hab)
  | error he => exact .error he

theorem mono {S' : α → β → Prop} {r : Except ε α} {q : Option β} (h : Refines E S r q)
    (hS : ∀ a b, S a b → S' a b) : Refines E S' r q := by
  cases h with
  | ok hab => exact .ok (hS _ _ hab)
  | error he => exact .error he

/-- With equal results the two succeed together. -/
theorem ok_iff {q : Option α} {r : Except ε α} {a : α} (h : Refines E Eq r q) :
    r = .ok a ↔ q = some a := by
  cases h with
  | ok h => rw [h, Except.ok.injEq, Option.some.injEq]
  | error h => exact ⟨nofun, nofun⟩

end Refines

end Refines

namespace Loop

variable {σ τ β γ : Type*}
variable {R : σ → τ → Prop} {Q : β → γ → Prop}

/-- What one round of a loop comes to: another round, or the result. -/
inductive Round (σ β : Type*)
  | next (s : σ)
  | stop (b : β)

/-- At most `k` rounds from a state on. -/
def run (round : σ → Round σ β) : ℕ → σ → Option β
  | 0, _ => none
  | k + 1, s =>
    match round s with
    | .next s' => run round k s'
    | .stop b => some b

/-- Two rounds that come to the same: both go on, in related states, or
both stop, with related results. -/
inductive Round.Rel (R : σ → τ → Prop) (Q : β → γ → Prop) : Round σ β → Round τ γ → Prop
  | next {s : σ} {t : τ} : R s t → Round.Rel R Q (.next s) (.next t)
  | stop {b : β} {c : γ} : Q b c → Round.Rel R Q (.stop b) (.stop c)

/-- The round that stops with an error, or goes by a result. -/
def Round.ofExcept {ε α : Type*} (r : Except ε α) (f : α → Round σ (Except ε β)) :
    Round σ (Except ε β) :=
  match r with
  | .ok a => f a
  | .error e => .stop (.error e)

/-- The round that gives up, or goes by a result. -/
def Round.ofOption {α : Type*} (q : Option α) (g : α → Round σ (Option β)) : Round σ (Option β) :=
  match q with
  | some a => g a
  | none => .stop none

/-- A refinement inside a round carries the round. -/
theorem Round.Rel.of_refines {α α' : Type*} {E : ε → Prop} {S : α → α' → Prop}
    {r : Except ε α} {q : Option α'}
    {f : α → Round σ (Except ε β)} {g : α' → Round τ (Option γ)} (h : Refines E S r q)
    (hfg : ∀ a a', S a a' → Round.Rel R (Refines E Q) (f a) (g a')) :
    Round.Rel R (Refines E Q) (Round.ofExcept r f) (Round.ofOption q g) := by
  cases h with
  | ok haa => exact hfg _ _ haa
  | error he => exact .stop (.error he)

section

variable (μ : σ → ℕ)

/-- **Two loops that go round together**, up to a round where the first stops
with a result of `E`: within as many rounds as a measure that each round of the
first brings down. -/
theorem run_sim_unless {round₁ : σ → Round σ β} {round₂ : τ → Round τ γ} {E : β → Prop}
    (h : ∀ s t, R s t → (∃ b, round₁ s = .stop b ∧ E b) ∨
      Round.Rel (fun s' t' => R s' t' ∧ μ s' < μ s) Q (round₁ s) (round₂ t))
    {s : σ} {t : τ} (hst : R s t) (hk : μ s < k) (hl : μ s < l) :
    ∃ b, run round₁ k s = some b ∧ (E b ∨ ∃ c, run round₂ l t = some c ∧ Q b c) := by
  induction k generalizing l s t with
  | zero => omega
  | succ k ih =>
    obtain ⟨l, rfl⟩ : ∃ l', l = l' + 1 := ⟨l - 1, by omega⟩
    obtain ⟨b, hb, hE⟩ | hround := h s t hst
    · exact ⟨b, by rw [run, hb], .inl hE⟩
    simp only [run]
    generalize round₁ s = r₁ at hround
    generalize round₂ t = r₂ at hround
    cases hround with
    | next hnext => exact ih hnext.1 (by omega) (by omega)
    | stop hstop => exact ⟨_, rfl, .inr ⟨_, rfl, hstop⟩⟩

/-- Two loops that go round together finish together. -/
theorem run_sim {round₁ : σ → Round σ β} {round₂ : τ → Round τ γ}
    (h : ∀ s t, R s t → Round.Rel (fun s' t' => R s' t' ∧ μ s' < μ s) Q (round₁ s) (round₂ t))
    {s : σ} {t : τ} (hst : R s t) (hk : μ s < k) :
    ∃ b c, run round₁ k s = some b ∧ run round₂ k t = some c ∧ Q b c := by
  have hrounds : ∀ s t, R s t → (∃ b, round₁ s = .stop b ∧ False) ∨
      Round.Rel (fun s' t' => R s' t' ∧ μ s' < μ s) Q (round₁ s) (round₂ t) :=
    fun s t hst => .inr (h s t hst)
  obtain ⟨b, hb, hE | ⟨c, hc, hQ⟩⟩ := run_sim_unless μ hrounds hst hk hk
  · exact hE.elim
  · exact ⟨b, c, hb, hc, hQ⟩

/-- Any number of rounds that is enough will do. -/
theorem run_enough {round : σ → Round σ β}
    (h : ∀ s s', round s = .next s' → μ s' < μ s) {s : σ} (hk : μ s < k)
    (hl : μ s < l) : ∃ b, run round k s = some b ∧ run round l s = some b := by
  have hrounds : ∀ s t, s = t → Round.Rel (fun s' t' => s' = t' ∧ μ s' < μ s) (fun b c => b = c)
      (round s) (round t) := by
    rintro s _ rfl
    cases hround : round s with
    | next s' => exact .next ⟨rfl, h s s' hround⟩
    | stop b => exact .stop rfl
  obtain ⟨b, hb, hfalse | ⟨c, hc, rfl⟩⟩ := run_sim_unless (fun s => μ s)
    (fun s t hst => .inr (hrounds s t hst)) (E := fun _ => False) rfl hk hl
  · exact hfalse.elim
  · exact ⟨_, hb, hc⟩

/-- The rule of the loop: what holds at the start and goes with each round
is there when it stops; a measure that each round brings down bounds the
rounds. -/
theorem run_inv {round : σ → Round σ β} {I : σ → Prop} {Q : β → Prop}
    (h : ∀ s, I s → (∃ s', round s = .next s' ∧ I s' ∧ μ s' < μ s) ∨ ∃ b, round s = .stop b ∧ Q b)
    {s : σ} (hs : I s) (hk : μ s < k) : ∃ b, run round k s = some b ∧ Q b := by
  induction k generalizing s with
  | zero => omega
  | succ k ih =>
    rw [run]
    rcases h s hs with ⟨s', hround, hI, hlt⟩ | ⟨b, hround, hQ⟩
    · rw [hround]
      exact ih hI (by omega)
    · rw [hround]
      exact ⟨b, rfl, hQ⟩

end

/-- `while (cond) body`, with a body that can fail: `stuck` where `k`
rounds are not enough. -/
def repeatWhile {ε : Type*} (stuck : ε) (cond : σ → Bool) (body : σ → Except ε σ) :
    ℕ → σ → Except ε σ
  | 0, _ => .error stuck
  | k + 1, s =>
    if cond s then
      match body s with
      | .ok s' => repeatWhile stuck cond body k s'
      | .error e => .error e
    else .ok s

/-- A loop of one round. -/
theorem repeatWhile_once (stuck : ε) {c : σ → Bool} {f : σ → Except ε σ}
    {s s' : σ} (hs : c s = true) (hf : f s = .ok s') (hs' : c s' = false)
    (hk : 0 < k) : repeatWhile stuck c f (k + 1) s = .ok s' := by
  obtain ⟨k, rfl⟩ : ∃ j, k = j + 1 := ⟨k - 1, by omega⟩
  rw [repeatWhile, if_pos hs, hf]
  dsimp only
  rw [repeatWhile, if_neg (by rw [hs']; decide)]

/-- **The rule of the while loop**: what holds at the start and goes with
each round holds at the end, where the condition fails; a measure that
each round brings down bounds the rounds. -/
theorem repeatWhile_inv (stuck : ε) {c : σ → Bool} {f : σ → Except ε σ} {I : σ → Prop} (μ : σ → ℕ)
    (hf : ∀ s, I s → c s = true → ∃ s', f s = .ok s' ∧ I s' ∧ μ s' < μ s)
    {s : σ} (hs : I s) (hk : μ s < k) :
    ∃ s', repeatWhile stuck c f k s = .ok s' ∧ I s' ∧ c s' = false := by
  induction k generalizing s with
  | zero => omega
  | succ k ih =>
    rw [repeatWhile]
    by_cases hc : c s = true
    · obtain ⟨s', hs', hI, hlt⟩ := hf s hs hc
      rw [if_pos hc, hs']
      exact ih hI (by omega)
    · rw [if_neg hc]
      exact ⟨s, rfl, hs, Bool.not_eq_true _ ▸ hc⟩

/-- `for (i = first; i < last; i += c)`, with a body that can fail. -/
def forBy (c first last : ℕ) (body : ℕ → β → Option β) (b : β) : Option β :=
  (List.range' first ((last - first + (c - 1)) / c) c).foldlM (fun b i => body i b) b

/-- The rule of the counting loop: what holds at the first index, and
goes with each round from an index to the next, holds at an index the
loop has come to that is no longer below the last one. -/
theorem forBy_inv (first last : ℕ) {c : ℕ} {body : ℕ → β → Option β} (hc : 0 < c) {P : ℕ → β → Prop}
    (hbody : ∀ i b, i < last → P i b → ∃ b', body i b = some b' ∧ P (i + c) b')
    {b : β} (hb : P first b) : ∃ i b', last ≤ i ∧ forBy c first last body b = some b' ∧ P i b' := by
  -- by induction on the number of rounds, which is what reaches `last`
  suffices H : ∀ k first b, P first b → last ≤ first + k * c → first + k * c < last + c →
      ∃ i b', last ≤ i ∧ (range' first k c).foldlM (fun b i => body i b) b = some b' ∧ P i b' by
    rcases lt_or_ge first last with hlt | hge
    · have hdiv := Nat.div_add_mod (last - first + (c - 1)) c
      have hmod := Nat.mod_lt (last - first + (c - 1)) hc
      rw [Nat.mul_comm] at hdiv
      exact H _ first b hb (by omega) (by omega)
    · refine ⟨first, b, hge, ?_, hb⟩
      have hzero : (last - first + (c - 1)) / c = 0 := Nat.div_eq_of_lt (by omega)
      rw [forBy, hzero]
      rfl
  intro k
  induction k with
  | zero =>
    intro first b hb hlast _
    exact ⟨first, b, by omega, rfl, hb⟩
  | succ k ih =>
    intro first b hb hlast hup
    have hmul : (k + 1) * c = k * c + c := Nat.succ_mul k c
    obtain ⟨b₁, hb₁, hP⟩ := hbody first b (by omega) hb
    obtain ⟨i, b', hi, hrun, hPi⟩ := ih (first + c) b₁ hP (by omega) (by omega)
    refine ⟨i, b', hi, ?_, hPi⟩
    rw [range'_succ, foldlM_cons, hb₁]
    exact hrun

end Loop

end Nanom
