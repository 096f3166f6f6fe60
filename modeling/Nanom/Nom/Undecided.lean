import Nanom.Nom.Streaming

/-!
# Where a stream is cut off

`opt`, `not_` and the separated lists make something of an inner parser that waits
for more, so on a live input their results can change when more comes in. For each of
them it is said when they do not: the inner parser is not `Undecided` where it is
called.
-/

namespace Nanom.Nom

open Except Option

open Input (After)
open Loop (Round run run_enough)

variable {e : Error} {rest : Input}
variable {α β γ : Type}

/-- What a parser comes to on an input stays the same when more comes in. -/
def StableAt (p : Parser α) (i : Input) : Prop :=
  ¬ Waits (p i) → ∀ c, observe (i.extend c) (p (i.extend c)) = observe i (p i)

theorem Waits.observe_eq {r : Result α} (h : Waits r) (i : Input) :
    observe i r = some (.error .incomplete) := by
  obtain ⟨e, rfl, hkind⟩ := h
  rw [observe, hkind]

theorem observe_eq_error {r : Result α} {i : Input} {k : Errk} :
    observe i r = some (.error k) ↔ ∃ e, r = .unexp e ∧ e.kind = k := by
  cases r with
  | done v rest | unexp e | never => simp [observe]

/-- A stable parser that moves forward is steady. -/
theorem steady_of_stable {p : Parser α} (hp : Forward p)
    (h : ∀ i, i.live = true → StableAt p i) : Steady p := by
  intro i c hi
  by_cases hwaits : Waits (p i)
  · obtain ⟨e, he, hkind⟩ := hwaits
    rw [he]
    exact .waits hkind
  have hsame := h i hi hwaits c
  have hrest := hp i
  have hrest' := hp (i.extend c)
  generalize p i = r at hsame hrest
  generalize p (i.extend c) = r' at hsame hrest'
  cases r with
  | never => exact hrest.elim
  | unexp e =>
    cases r' with
    | done | never => cases hsame
    | unexp e' =>
      simp only [observe, some.injEq, error.injEq] at hsame
      exact .error hsame
  | done v rest =>
    cases r' with
    | unexp | never => cases hsame
    | done v' rest' =>
      simp only [observe, some.injEq, ok.injEq, Prod.mk.injEq] at hsame
      obtain ⟨rfl, hcount⟩ := hsame
      obtain ⟨hle, hadvance⟩ := Input.After.eq_advance hrest
      obtain ⟨-, hadvance'⟩ := Input.After.eq_advance hrest'
      rw [hcount, Input.advance_extend c hle, ← hadvance] at hadvance'
      rw [hadvance']
      exact .done hrest

theorem Steady.of_done {p : Parser α} (hp : Steady p) {i : Input} (hi : i.live = true) {v : α}
    (h : p i = .done v rest) (c : Bytes) : p (i.extend c) = .done v (rest.extend c) := by
  have hcall := hp i c hi
  rw [h] at hcall
  generalize p (i.extend c) = r at hcall ⊢
  cases hcall with
  | done _ => rfl

/-! ## `opt` and `not_` -/

/-- A call that comes to a value, or fails for good. -/
def Decides (r : Result α) : Prop :=
  (∃ v rest, r = .done v rest) ∨ ∃ e, r = .unexp e ∧ e.kind = .fail

/-- A parser that waits where more input could make it succeed or fail. -/
def Undecided (p : Parser α) (i : Input) : Prop :=
  Waits (p i) ∧ ∃ c, Decides (p (i.extend c))

/-- A parser that gives `d` for every error of another one that is no failure. -/
structure Recovers (p : Parser α) (d : β) (g : Parser β) : Prop where
  failure : ∀ {i e}, p i = .unexp e → e.kind = .fail → g i = .unexp e
  other : ∀ {i e}, p i = .unexp e → e.kind ≠ .fail → g i = .done d i
  value : ∀ {i v rest}, p i = .done v rest → observe i (g i) ≠ some (.ok (d, 0))

/-- What does not decide is an error that is no failure. -/
theorem error_of_not_decides {p : Parser α} (hp : Forward p) {i : Input} (h : ¬ Decides (p i)) :
    ∃ e, p i = .unexp e ∧ e.kind ≠ .fail := by
  cases hrun : p i with
  | never => exact ((hp i).ne_never hrun).elim
  | done v rest => exact absurd (.inl ⟨v, rest, hrun⟩) h
  | unexp e => exact ⟨e, rfl, fun hkind => h (.inr ⟨e, hrun, hkind⟩)⟩

namespace Recovers

variable {p : Parser α} {d : β} {g : Parser β} {i : Input}

section

variable (h : Recovers p d g)
include h

theorem observe_other (he : p i = .unexp e)
    (hkind : e.kind ≠ .fail) : observe i (g i) = some (.ok (d, 0)) := by
  rw [h.other he hkind, observe, Nat.sub_self]

/-- Its value is `d` unless the other parser decides. -/
theorem observe_iff (hp : Forward p) (i : Input) :
    observe i (g i) = some (.ok (d, 0)) ↔ ¬ Decides (p i) := by
  have hback := hp i
  cases hrun : p i with
  | never => exact (hback.ne_never hrun).elim
  | done v rest =>
    exact ⟨fun hd => absurd hd (h.value hrun), fun hd => (hd (.inl ⟨v, rest, rfl⟩)).elim⟩
  | unexp e =>
    by_cases hkind : e.kind = .fail
    · refine ⟨fun hd => ?_, fun hd => (hd (.inr ⟨e, rfl, hkind⟩)).elim⟩
      rw [h.failure hrun hkind] at hd
      cases hd
    refine ⟨fun _ hdec => ?_, fun _ => h.observe_other hrun hkind⟩
    obtain ⟨v, rest, hdone⟩ | ⟨e', he', hfail⟩ := hdec
    · cases hdone
    · cases he'
      exact hkind hfail

/-- Where the other parser waits. -/
theorem stableAt_of_waits (hp : Forward p) (hwaits : Waits (p i)) :
    StableAt g i ↔ ¬ Undecided p i := by
  obtain ⟨e, he, hkind⟩ := hwaits
  have hnot : e.kind ≠ .fail := by rw [hkind]; decide
  have hsee := h.observe_other he hnot
  have hdone : ¬ Waits (g i) := by
    rintro ⟨e', he', -⟩
    cases (h.other he hnot).symm.trans he'
  constructor
  · rintro hstable ⟨-, c, hdec⟩
    exact (h.observe_iff hp _).1 ((hstable hdone c).trans hsee) hdec
  · intro hund _ c
    rw [hsee]
    exact (h.observe_iff hp _).2 fun hdec => hund ⟨⟨e, he, hkind⟩, c, hdec⟩

theorem stableAt_of_error (hs : Steady p) (hi : i.live = true)
    (he : p i = .unexp e) (hkind : e.kind ≠ .incomplete) : StableAt g i := by
  intro _ c
  have hcall := hs i c hi
  rw [he] at hcall
  generalize hrun : p (i.extend c) = r at hcall
  cases hcall with
  | waits hw => exact absurd hw hkind
  | @error e e' hsame =>
    by_cases hfail : e.kind = .fail
    · rw [h.failure he hfail, h.failure hrun (hsame.trans hfail), observe, observe, hsame]
    · rw [h.observe_other he hfail, h.observe_other hrun (by rwa [hsame])]

/-- Where the other parser succeeds only its values count. -/
theorem stableAt_iff (hp : Forward p) (hs : Steady p) (hi : i.live = true)
    (hvalue : ∀ {c v rest}, p i = .done v rest → p (i.extend c) = .done v (rest.extend c) →
      observe (i.extend c) (g (i.extend c)) = observe i (g i)) :
    StableAt g i ↔ ¬ Undecided p i := by
  by_cases hwaits : Waits (p i)
  · exact h.stableAt_of_waits hp hwaits
  refine ⟨fun _ hund => hwaits hund.1, fun _ => ?_⟩
  have hback := hp i
  cases hrun : p i with
  | never => exact (hback.ne_never hrun).elim
  | unexp e => exact h.stableAt_of_error hs hi hrun fun hkind => hwaits ⟨e, hrun, hkind⟩
  | done v rest =>
    exact fun _ c => hvalue hrun (hs.of_done hi hrun c)

end

end Recovers

section Opt

variable {p : Parser α} {i : Input}

theorem recovers_opt (p : Parser α) : Recovers p none (opt p) where
  failure he hkind := by rw [opt, he]; exact if_pos hkind
  other he hkind := by rw [opt, he]; exact if_neg hkind
  value hdone := by
    rw [opt, hdone]
    intro h
    cases h

theorem stableAt_opt_iff (hp : Forward p) (hs : Steady p) (hi : i.live = true) :
    StableAt (opt p) i ↔ ¬ Undecided p i :=
  (recovers_opt p).stableAt_iff hp hs hi fun hrun hrun' => by
    rw [opt, opt, hrun, hrun']
    rfl

theorem recovers_not (p : Parser α) : Recovers p () (not_ p) where
  failure he hkind := by rw [not_, he]; exact if_pos hkind
  other he hkind := by rw [not_, he]; exact if_neg hkind
  value hdone := by
    rw [not_, hdone]
    intro h
    cases h

theorem stableAt_not_iff (hp : Forward p) (hs : Steady p) (hi : i.live = true) :
    StableAt (not_ p) i ↔ ¬ Undecided p i :=
  (recovers_not p).stableAt_iff hp hs hi fun hrun hrun' => by
    rw [not_, not_, hrun, hrun']
    rfl

end Opt

/-! ## Separated lists -/

section Lists

variable {sep : Parser γ} {p : Parser α} {i : Input}
variable {s : Listing α} {v : α}

/-- The elements behind a place of a list, each with a separator in front, up to
another place. -/
inductive Elements (q : Parser α) : Input → List α → Input → Prop
  | nil (cur : Input) : Elements q cur [] cur
  | cons {cur rest last : Input} {v : α} {vs : List α} : q cur = .done v rest →
      rest.offset ≠ cur.offset → Elements q rest vs last → Elements q cur (v :: vs) last

/-- A place behind an element of the list at the start of an input. -/
def Boundary (sep : Parser γ) (p : Parser α) (i cur : Input) : Prop :=
  ∃ v rest vs, p i = .done v rest ∧ Elements (preceded sep p) rest vs cur

/-- The next element takes nothing. -/
def Stalls (q : Parser α) (cur : Input) : Prop :=
  ∃ v rest, q cur = .done v rest ∧ rest.offset = cur.offset

/-- The elements come to an end: at one that takes nothing, or where there is none. -/
theorem exists_elements {q : Parser α} (hq : Forward q) (cur : Input) :
    ∃ vs last, Elements q cur vs last ∧ (Stalls q last ∨ ∃ e, q last = .unexp e) := by
  induction hn : cur.size using Nat.strong_induction_on generalizing cur with
  | h n ih =>
    subst hn
    cases hrun : q cur with
    | never => exact ((hq cur).ne_never hrun).elim
    | unexp e => exact ⟨[], cur, .nil cur, .inr ⟨e, hrun⟩⟩
    | done v rest =>
      by_cases hstay : rest.offset = cur.offset
      · exact ⟨[], cur, .nil cur, .inl ⟨v, rest, hrun, hstay⟩⟩
      · have hlt := ((hq cur).of_done hrun).size_lt hstay
        obtain ⟨vs, last, hvs, hend⟩ := ih rest.size hlt rest rfl
        exact ⟨v :: vs, last, .cons hrun hstay hvs, hend⟩

/-- They are there when more comes in. -/
theorem Elements.extend {q : Parser α} (hq : Steady q) {cur last : Input} {vs : List α}
    (hlive : cur.live = true) (h : Elements q cur vs last) (c : Bytes) :
    cur.After last ∧ Elements q (cur.extend c) vs (last.extend c) := by
  induction h with
  | nil cur => exact ⟨After.refl cur, .nil _⟩
  | @cons cur rest last v vs hrun hmove _ ih =>
    have hcall := hq cur c hlive
    rw [hrun] at hcall
    generalize hrun' : q (cur.extend c) = r at hcall
    cases hcall with
    | done hrest =>
      obtain ⟨hafter, hvs⟩ := ih (hrest.live_eq.trans hlive)
      exact ⟨hrest.trans hafter, .cons hrun' hmove hvs⟩

/-- A round of `separated_list0` in terms of a separator and an element together. -/
theorem separatedRound_eq (sep : Parser γ) (p : Parser α) (s : Listing α) :
    ∃ calls, separatedRound sep p s = match preceded sep p s.cur with
      | .never => .stop (.never, calls)
      | .unexp e =>
        if e.kind = .fail then .stop (.unexp e, calls) else .stop (.done s.out s.cur, calls)
      | .done v rest =>
        if rest.offset = s.cur.offset then
          .stop (.unexp (makeErr s.cur "separated_list0: no progress"), calls)
        else .next ⟨s.out ++ [v], rest, calls⟩ := by
  rw [separatedRound, preceded]
  cases sep s.cur with
  | never | unexp e => exact ⟨_, rfl⟩
  | done v behind =>
    rw [Outcome.andThen_done]
    dsimp only
    cases p behind with
    | never | unexp e | done v rest => exact ⟨_, rfl⟩

section

variable (hsep : Forward sep) (hp : Forward p)
include hsep hp

/-- The rest of a list, one element further. -/
theorem separatedRest_eq (s : Listing α) :
    ∃ calls, (separatedRest sep p s).1 = match preceded sep p s.cur with
      | .never => .never
      | .unexp e => if e.kind = .fail then .unexp e else .done s.out s.cur
      | .done v rest =>
        if rest.offset = s.cur.offset then
          .unexp (makeErr s.cur "separated_list0: no progress")
        else (separatedRest sep p ⟨s.out ++ [v], rest, calls⟩).1 := by
  have hq : Forward (preceded sep p) := hsep.preceded hp
  have hnext : ∀ s s' : Listing α, separatedRound sep p s = .next s' →
      s'.cur.size < s.cur.size := by
    intro s s' hround
    obtain ⟨calls, heq⟩ := separatedRound_eq sep p s
    rw [heq] at hround
    have hleaves := hq s.cur
    generalize preceded sep p s.cur = r at hround hleaves
    cases r with
    | never => cases hround
    | unexp e =>
      dsimp only at hround
      split at hround <;> cases hround
    | done v rest =>
      dsimp only at hround
      split at hround
      · cases hround
      · cases hround
        exact Input.After.size_lt hleaves ‹_›
  obtain ⟨calls, heq⟩ := separatedRound_eq sep p s
  refine ⟨calls, ?_⟩
  rw [separatedRest, run, heq]
  have hleaves := hq s.cur
  generalize preceded sep p s.cur = r at hleaves
  cases r with
  | never => rfl
  | unexp e =>
    by_cases hkind : e.kind = .fail
    · simp only [if_pos hkind, getD_some]
    · simp only [if_neg hkind, getD_some]
  | done v rest =>
    by_cases hstay : rest.offset = s.cur.offset
    · simp only [if_pos hstay, getD_some]
    simp only [if_neg hstay]
    have hlt : rest.size < s.cur.size := Input.After.size_lt hleaves hstay
    obtain ⟨b, hb, hb'⟩ := run_enough (s := ⟨s.out ++ [v], rest, calls⟩)
      (fun s : Listing α => s.cur.size) hnext hlt (Nat.lt_succ_self rest.size)
    rw [separatedRest, hb, hb']
    rfl

theorem separatedRest_unexp (h : preceded sep p s.cur = .unexp e) :
    (separatedRest sep p s).1 = if e.kind = .fail then .unexp e else .done s.out s.cur := by
  obtain ⟨calls, heq⟩ := separatedRest_eq hsep hp s
  rw [heq, h]

theorem separatedRest_stall
    (h : preceded sep p s.cur = .done v rest) (hstay : rest.offset = s.cur.offset) :
    (separatedRest sep p s).1 = .unexp (makeErr s.cur "separated_list0: no progress") := by
  obtain ⟨calls, heq⟩ := separatedRest_eq hsep hp s
  rw [heq, h]
  exact if_pos hstay

theorem separatedRest_next
    (h : preceded sep p s.cur = .done v rest) (hmove : rest.offset ≠ s.cur.offset) :
    rest.size < s.cur.size ∧ ∃ calls, (separatedRest sep p s).1
      = (separatedRest sep p ⟨s.out ++ [v], rest, calls⟩).1 := by
  have hrest := (hsep.preceded hp s.cur).of_done h
  obtain ⟨calls, heq⟩ := separatedRest_eq hsep hp s
  refine ⟨hrest.size_lt hmove, calls, ?_⟩
  rw [heq, h]
  exact if_neg hmove

/-- Behind some of its elements, the rest of a list goes on from them. -/
theorem separatedRest_past {cur last : Input} {vs : List α}
    (h : Elements (preceded sep p) cur vs last) (s : Listing α) (hcur : s.cur = cur) :
    ∃ calls, (separatedRest sep p s).1
      = (separatedRest sep p ⟨s.out ++ vs, last, calls⟩).1 := by
  induction h generalizing s with
  | nil cur =>
    subst hcur
    exact ⟨s.calls, by rw [List.append_nil]⟩
  | @cons cur rest last v vs hrun hmove _ ih =>
    subst hcur
    obtain ⟨-, calls, heq⟩ := separatedRest_next hsep hp hrun hmove
    obtain ⟨calls', hpast⟩ := ih ⟨s.out ++ [v], rest, calls⟩ rfl
    rw [List.append_assoc] at hpast
    exact ⟨calls', heq.trans hpast⟩

/-- The rest of a list has its elements, and then an element that takes nothing, or
none. -/
theorem separatedRest_ends (s : Listing α) :
    ∃ vs last, Elements (preceded sep p) s.cur vs last ∧
      ((Stalls (preceded sep p) last ∧
        (separatedRest sep p s).1 = .unexp (makeErr last "separated_list0: no progress")) ∨
      ∃ e, (separatedRest sep p s).1
        = if e.kind = .fail then .unexp e else .done (s.out ++ vs) last) := by
  obtain ⟨vs, last, hvs, hend⟩ := exists_elements (hsep.preceded hp) s.cur
  obtain ⟨calls, hpast⟩ := separatedRest_past hsep hp hvs s rfl
  refine ⟨vs, last, hvs, ?_⟩
  rw [hpast]
  obtain ⟨v, rest, hrun, hstay⟩ | ⟨e, hrun⟩ := hend
  · exact .inl ⟨⟨v, rest, hrun, hstay⟩, separatedRest_stall hsep hp hrun hstay⟩
  · exact .inr ⟨e, separatedRest_unexp hsep hp hrun⟩

/-- The rest of a list is an error, or a list that goes on from what there is. -/
theorem separatedRest_cases (s : Listing α) :
    (∃ e, (separatedRest sep p s).1 = .unexp e) ∨
      ∃ vs last, (separatedRest sep p s).1 = .done vs last ∧ s.out.length ≤ vs.length := by
  obtain ⟨vs, last, -, ⟨-, hstall⟩ | ⟨e, hend⟩⟩ := separatedRest_ends hsep hp s
  · exact .inl ⟨_, hstall⟩
  · rw [hend]
    split
    · exact .inl ⟨e, rfl⟩
    · exact .inr ⟨_, last, rfl, by rw [List.length_append]; exact Nat.le_add_right _ _⟩

/-- It is a recoverable error where an element takes nothing. -/
theorem separatedRest_err_iff (s : Listing α) :
    (∃ e, (separatedRest sep p s).1 = .unexp e ∧ e.kind = .err) ↔
      ∃ vs last, Elements (preceded sep p) s.cur vs last ∧ Stalls (preceded sep p) last := by
  constructor
  · rintro ⟨e, he, hkind⟩
    obtain ⟨vs, last, hvs, ⟨hstalls, -⟩ | ⟨e', hend⟩⟩ := separatedRest_ends hsep hp s
    · exact ⟨vs, last, hvs, hstalls⟩
    rw [hend] at he
    split at he
    · rename_i hfail
      cases he
      cases hfail.symm.trans hkind
    · cases he
  · rintro ⟨vs, last, hvs, v, rest, hrun, hstay⟩
    obtain ⟨calls, hpast⟩ := separatedRest_past hsep hp hvs s rfl
    rw [hpast]
    exact ⟨_, separatedRest_stall hsep hp hrun hstay, rfl⟩

/-- More input, and no place where the list is cut off. -/
theorem agrees_separatedRest
    (hq : Steady (preceded sep p)) {c : Bytes} {t : Listing α} (hlive : s.cur.live = true)
    (hout : t.out = s.out) (hcur : t.cur = s.cur.extend c)
    (hund : ∀ {vs last}, Elements (preceded sep p) s.cur vs last →
      ¬ Undecided (preceded sep p) last) :
    Agrees s.cur c (separatedRest sep p s).1 (separatedRest sep p t).1 := by
  obtain ⟨vs, last, hvs, hend⟩ := exists_elements (hsep.preceded hp) s.cur
  obtain ⟨hafter, hvs'⟩ := hvs.extend hq hlive c
  obtain ⟨calls, hpast⟩ := separatedRest_past hsep hp hvs s rfl
  obtain ⟨calls', hpast'⟩ := separatedRest_past hsep hp hvs' t hcur
  rw [hpast, hpast', hout]
  obtain ⟨v, rest, hrun, hstay⟩ | ⟨e, hrun⟩ := hend
  · have hrun' := hq.of_done (hafter.live_eq.trans hlive) hrun c
    rw [separatedRest_stall hsep hp hrun hstay, separatedRest_stall hsep hp hrun' hstay]
    exact .error rfl
  have hcall := hq last c (hafter.live_eq.trans hlive)
  rw [hrun] at hcall
  generalize hrun' : preceded sep p (last.extend c) = r' at hcall
  rw [separatedRest_unexp hsep hp hrun]
  cases hcall with
  | error hkind =>
    rw [separatedRest_unexp hsep hp hrun', hkind]
    split
    · exact .error hkind
    · exact .done hafter
  | waits hkind =>
    -- the next element is cut off, and will not come
    have hdec : ¬ Decides (preceded sep p (last.extend c)) := fun hdec =>
      hund hvs ⟨⟨e, hrun, hkind⟩, c, hdec⟩
    obtain ⟨e', he', hfail⟩ := error_of_not_decides (hsep.preceded hp) hdec
    rw [separatedRest_unexp hsep hp he', if_neg (by rw [hkind]; decide), if_neg hfail]
    exact .done hafter

/-- More input, behind a place where the list is cut off. -/
theorem separatedRest_longer
    (hq : Steady (preceded sep p)) {cur last : Input} {vs : List α} (hlive : cur.live = true)
    (h : Elements (preceded sep p) cur vs last) (hund : Undecided (preceded sep p) last) :
    ∃ c, ∀ s t : Listing α, s.cur = cur → t.out = s.out → t.cur = cur.extend c →
      (separatedRest sep p s).1 = .done (s.out ++ vs) last ∧
        ((∃ e, (separatedRest sep p t).1 = .unexp e) ∨
          ∃ ws end_, (separatedRest sep p t).1 = .done ws end_ ∧
            (s.out ++ vs).length < ws.length) := by
  obtain ⟨⟨e, he, hkind⟩, c, hdec⟩ := hund
  refine ⟨c, fun s t hs hout ht => ?_⟩
  obtain ⟨calls, hpast⟩ := separatedRest_past hsep hp h s hs
  obtain ⟨calls', hpast'⟩ := separatedRest_past hsep hp (h.extend hq hlive c).2 t ht
  rw [hpast, hpast', hout]
  constructor
  · rw [separatedRest_unexp hsep hp he, if_neg (by rw [hkind]; decide)]
  · obtain ⟨v, rest, hdone⟩ | ⟨e', he', hfail⟩ := hdec
    · by_cases hstay : rest.offset = (last.extend c).offset
      · exact .inl ⟨_, separatedRest_stall hsep hp hdone hstay⟩
      · obtain ⟨-, calls, heq⟩ := separatedRest_next hsep hp
          (s := ⟨s.out ++ vs, last.extend c, calls'⟩) hdone hstay
        rw [heq]
        refine (separatedRest_cases hsep hp _).imp id ?_
        rintro ⟨ws, end_, hws, hle⟩
        rw [List.length_append] at hle
        exact ⟨ws, end_, hws, hle⟩
    · exact .inl ⟨e', by rw [separatedRest_unexp hsep hp he', if_pos hfail]⟩

end

theorem separatedList0_done (h : p i = .done v rest) :
    separatedList0 sep p i = (separatedRest sep p ⟨[v], rest, ⟨1, 0⟩⟩).1 := by
  rw [separatedList0, separatedList0Calls, h]

section

variable (hsep : Forward sep) (hp : Forward p)
include hsep hp

/-- A list with an element is not the empty list. -/
theorem observe_separatedRest_ne
    (hs : s.out ≠ []) (i : Input) : observe i (separatedRest sep p s).1 ≠ some (.ok ([], 0)) := by
  obtain ⟨e, he⟩ | ⟨vs, last, hvs, hle⟩ := separatedRest_cases hsep hp s
  · rw [he]
    intro h
    cases h
  rw [hvs]
  intro h
  simp only [observe, some.injEq, ok.injEq, Prod.mk.injEq] at h
  rw [h.1] at hle
  exact hs (List.eq_nil_of_length_eq_zero (Nat.le_zero.1 hle))

theorem recovers_separatedList0 : Recovers p [] (separatedList0 sep p) where
  failure he hkind := by
    rw [separatedList0, separatedList0Calls, he]
    exact if_pos hkind
  other he hkind := by
    rw [separatedList0, separatedList0Calls, he]
    exact if_neg hkind
  value hdone := by
    rw [separatedList0_done hdone]
    exact observe_separatedRest_ne hsep hp (List.cons_ne_nil _ _) _

/-- The rest of a list does not wait for more. -/
theorem not_waits_separatedRest (s : Listing α) : ¬ Waits (separatedRest sep p s).1 := by
  rintro ⟨e, he, hkind⟩
  obtain ⟨vs, last, -, ⟨-, hstall⟩ | ⟨e', hend⟩⟩ := separatedRest_ends hsep hp s
  · cases hstall.symm.trans he
    cases hkind
  rw [hend] at he
  split at he
  · rename_i hfail
    cases he
    cases hfail.symm.trans hkind
  · cases he

/-- The elements behind the first one: the list stays as it is when it is not cut
off at any of its places. -/
theorem observe_separatedRest_iff
    (hq : Steady (preceded sep p)) (hlive : s.cur.live = true) (i : Input) :
    (∀ c, observe i (separatedRest sep p { s with cur := s.cur.extend c }).1
        = observe i (separatedRest sep p s).1)
      ↔ ∀ vs last, Elements (preceded sep p) s.cur vs last → ¬ Undecided (preceded sep p) last := by
  constructor
  · intro hsame vs last hvs hund
    obtain ⟨c, hlonger⟩ := separatedRest_longer hsep hp hq hlive hvs hund
    obtain ⟨hdone, hmore⟩ := hlonger s { s with cur := s.cur.extend c } rfl rfl rfl
    have hc := hsame c
    rw [hdone] at hc
    obtain ⟨e, he⟩ | ⟨ws, end_, hws, hlt⟩ := hmore
    · rw [he] at hc
      cases hc
    · rw [hws] at hc
      simp only [observe, some.injEq, ok.injEq, Prod.mk.injEq] at hc
      rw [hc.1] at hlt
      exact lt_irrefl _ hlt
  · intro hund c
    have hagrees : Agrees s.cur c (separatedRest sep p s).1
        (separatedRest sep p { s with cur := s.cur.extend c }).1 :=
      agrees_separatedRest hsep hp hq hlive rfl rfl fun hvs => hund _ _ hvs
    exact hagrees.observe_eq (not_waits_separatedRest hsep hp s) i

/-- Where the first element is there, both kinds of list are stable when the list is
not cut off behind it. -/
theorem stableAt_list_iff (hssep : Steady sep)
    (hsp : Steady p) (hi : i.live = true) {g : Parser (List α)}
    (hg : ∀ {j v rest}, p j = .done v rest →
      g j = (separatedRest sep p ⟨[v], rest, ⟨1, 0⟩⟩).1) (hrun : p i = .done v rest) :
    StableAt g i ↔ ∀ cur, Boundary sep p i cur → ¬ Undecided (preceded sep p) cur := by
  have hlive : rest.live = true := ((hp i).of_done hrun).live_eq.trans hi
  have hiff := observe_separatedRest_iff hsep hp (hssep.flatMap fun _ => hsp)
    (s := ⟨[v], rest, ⟨1, 0⟩⟩) hlive i
  have hext : ∀ c, observe (i.extend c) (g (i.extend c))
      = observe i (separatedRest sep p ⟨[v], rest.extend c, ⟨1, 0⟩⟩).1 := by
    intro c
    rw [hg (hsp.of_done hi hrun c), observe_extend]
  have hdone : ¬ Waits (g i) := by rw [hg hrun]; exact not_waits_separatedRest hsep hp _
  constructor
  · rintro hstable cur ⟨v', rest', vs, hfirst, hvs⟩
    cases hrun.symm.trans hfirst
    refine hiff.1 (fun c => ?_) vs cur hvs
    have hsame := hstable hdone c
    rw [hext, hg hrun] at hsame
    exact hsame
  · intro hcut _ c
    rw [hext, hg hrun]
    exact hiff.2 (fun vs last hvs => hcut last ⟨v, rest, vs, hrun, hvs⟩) c

end

theorem not_cut_of_unexp (h : p i = .unexp e) :
    ∀ cur, Boundary sep p i cur → ¬ Undecided (preceded sep p) cur := by
  rintro cur ⟨v, rest, vs, hdone, -⟩
  cases h.symm.trans hdone

theorem not_waits_of_done (h : p i = .done v rest) : ¬ Waits (p i) := by
  rintro ⟨e, he, -⟩
  cases h.symm.trans he

theorem stableAt_separatedList0_iff (hsep : Forward sep) (hp : Forward p) (hssep : Steady sep)
    (hsp : Steady p) (hi : i.live = true) :
    StableAt (separatedList0 sep p) i ↔ ¬ Undecided p i ∧
      ∀ cur, Boundary sep p i cur → ¬ Undecided (preceded sep p) cur := by
  have hrec := recovers_separatedList0 hsep hp
  cases hrun : p i with
  | never => exact ((hp i).ne_never hrun).elim
  | unexp e =>
    by_cases hwaits : Waits (p i)
    · rw [hrec.stableAt_of_waits hp hwaits]
      exact ⟨fun hund => ⟨hund, not_cut_of_unexp hrun⟩, fun h => h.1⟩
    · have hstable := hrec.stableAt_of_error hsp hi hrun fun hkind => hwaits ⟨e, hrun, hkind⟩
      exact ⟨fun _ => ⟨fun hund => hwaits hund.1, not_cut_of_unexp hrun⟩, fun _ => hstable⟩
  | done v rest =>
    rw [stableAt_list_iff hsep hp hssep hsp hi separatedList0_done hrun]
    exact ⟨fun hcut => ⟨fun hund => not_waits_of_done hrun hund.1, hcut⟩, fun h => h.2⟩

theorem separatedList1_done (hsep : Forward sep) (hp : Forward p) (h : p i = .done v rest) :
    separatedList1 sep p i = (separatedRest sep p ⟨[v], rest, ⟨1, 0⟩⟩).1 := by
  rw [separatedList1, separatedList1Calls, separatedList0Calls, h]
  obtain ⟨e, he⟩ | ⟨vs, last, hvs, hle⟩ := separatedRest_cases hsep hp ⟨[v], rest, ⟨1, 0⟩⟩
  · rw [he]
    rfl
  have hne : vs.isEmpty = false := by
    cases vs with
    | nil => exact absurd hle (Nat.not_succ_le_zero 0)
    | cons w ws => rfl
  rw [hvs, Outcome.andThen_done, hne]
  rfl

/-- Without a first element, `separated_list1` is an error: a failure or one like any
other. -/
theorem observe_separatedList1 {s : Parser γ} (h : p i = .unexp e) :
    observe i (separatedList1 s p i) = some (.error (if e.kind = .fail then .fail else .err)) := by
  rw [separatedList1, separatedList1Calls, separatedList0Calls, h]
  dsimp only
  by_cases hkind : e.kind = .fail
  · rw [if_pos hkind, if_pos hkind, Outcome.andThen_unexp, observe, hkind]
  · rw [if_neg hkind, if_neg hkind]
    rfl

/-- The parser of the first element waits where more input could make it fail, or
begin a list whose elements all take something. -/
def UndecidedFirst (sep : Parser γ) (p : Parser α) (i : Input) : Prop :=
  Waits (p i) ∧ ∃ c, (∃ e, p (i.extend c) = .unexp e ∧ e.kind = .fail) ∨
    ((∃ v rest, p (i.extend c) = .done v rest) ∧
      ∀ cur, Boundary sep p (i.extend c) cur → ¬ Stalls (preceded sep p) cur)

/-- A list is a recoverable error of `separated_list1` unless it begins, or fails. -/
theorem observe_separatedList1_iff (hsep : Forward sep) (hp : Forward p) (i : Input) :
    observe i (separatedList1 sep p i) = some (.error .err) ↔
      ¬ ((∃ e, p i = .unexp e ∧ e.kind = .fail) ∨ ((∃ v rest, p i = .done v rest) ∧
        ∀ cur, Boundary sep p i cur → ¬ Stalls (preceded sep p) cur)) := by
  cases hrun : p i with
  | never => exact ((hp i).ne_never hrun).elim
  | unexp e =>
    rw [observe_separatedList1 hrun]
    by_cases hkind : e.kind = .fail
    · rw [if_pos hkind]
      exact ⟨fun h => (by cases h), fun h => (h (.inl ⟨e, rfl, hkind⟩)).elim⟩
    rw [if_neg hkind]
    refine ⟨fun _ => ?_, fun _ => rfl⟩
    rintro (⟨e', he', hfail⟩ | ⟨⟨v, rest, hdone⟩, -⟩)
    · cases he'
      exact hkind hfail
    · cases hdone
  | done v rest =>
    rw [separatedList1_done hsep hp hrun, observe_eq_error, separatedRest_err_iff hsep hp]
    constructor
    · rintro ⟨vs, last, hvs, hstalls⟩ (⟨e, he, -⟩ | ⟨-, hmove⟩)
      · cases he
      · exact hmove last ⟨v, rest, vs, hrun, hvs⟩ hstalls
    · intro h
      by_contra hnone
      refine h (.inr ⟨⟨v, rest, rfl⟩, ?_⟩)
      rintro cur ⟨v', rest', vs, hfirst, hvs⟩ hstalls
      cases hrun.symm.trans hfirst
      exact hnone ⟨vs, cur, hvs, hstalls⟩

theorem stableAt_separatedList1_iff (hsep : Forward sep) (hp : Forward p) (hssep : Steady sep)
    (hsp : Steady p) (hi : i.live = true) :
    StableAt (separatedList1 sep p) i ↔ ¬ UndecidedFirst sep p i ∧
      ∀ cur, Boundary sep p i cur → ¬ Undecided (preceded sep p) cur := by
  cases hrun : p i with
  | never => exact ((hp i).ne_never hrun).elim
  | unexp e =>
    have hsee := observe_separatedList1 (s := sep) hrun
    by_cases hwaits : Waits (p i)
    · -- the list is a recoverable error, and has to be one on every extension
      obtain ⟨e', he', hkind⟩ := hwaits
      cases hrun.symm.trans he'
      rw [hkind] at hsee
      have hdone : ¬ Waits (separatedList1 sep p i) := fun hw => by
        cases hsee.symm.trans (hw.observe_eq i)
      constructor
      · refine fun hstable => ⟨?_, not_cut_of_unexp hrun⟩
        rintro ⟨-, c, hc⟩
        exact (observe_separatedList1_iff hsep hp _).1 ((hstable hdone c).trans hsee) hc
      · rintro ⟨hund, -⟩ _ c
        rw [hsee]
        exact (observe_separatedList1_iff hsep hp _).2 fun hc => hund ⟨⟨e, hrun, hkind⟩, c, hc⟩
    · refine ⟨fun _ => ⟨fun hund => hwaits hund.1, not_cut_of_unexp hrun⟩, fun _ _ c => ?_⟩
      have hcall := hsp i c hi
      rw [hrun] at hcall
      generalize hrun' : p (i.extend c) = r at hcall
      cases hcall with
      | waits hkind => exact absurd ⟨e, hrun, hkind⟩ hwaits
      | error hkind => rw [hsee, observe_separatedList1 hrun', hkind]
  | done v rest =>
    rw [stableAt_list_iff hsep hp hssep hsp hi (separatedList1_done hsep hp) hrun]
    exact ⟨fun hcut => ⟨fun hund => not_waits_of_done hrun hund.1, hcut⟩, fun h => h.2⟩

end Lists

end Nanom.Nom
