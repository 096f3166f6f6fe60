import Nanom.Nom.Termination
import Nanom.Layout.Strct

/-!
# More of a stream

`Agrees` compares a call on a live input with the call after more of the stream
has come in: unless the first one waits for more, both come to the same. A parser
for which this holds everywhere is `Steady`. Primitives that wait for all their
bytes are steady, and so is what the combinators make of steady parsers, as long
as they pass on that a parser waits.
-/

namespace Nanom.Nom

open List

open Input (After)
open Input.After (advance refl)
open Loop (Round run run_sim_unless)
open Wire (VarintError readUleb128 readUleb128From leb128MaxBytes)

variable {α β γ σ κ : Type}

/-! ## Agreement -/

/-- **A call on an input, and on the input with `c` behind it**: the same value and
the same place, errors of one kind, or the first call waits for more. -/
inductive Agrees (i : Input) (c : Bytes) : Result α → Result α → Prop
  | done {v : α} {rest : Input} : i.After rest →
      Agrees i c (.done v rest) (.done v (rest.extend c))
  | error {e e' : Error} : e'.kind = e.kind → Agrees i c (.unexp e) (.unexp e')
  | never : Agrees i c .never .never
  | waits {e : Error} {r : Result α} : e.kind = .incomplete → Agrees i c (.unexp e) r

/-- A parser whose results stay as they are when more of the stream comes in. -/
def Steady (p : Parser α) : Prop :=
  ∀ i c, i.live = true → Agrees i c (p i) (p (i.extend c))

namespace Agrees

variable {i j : Input} {c : Bytes} {r r' : Result α}

theorem mono (hij : i.After j) (h : Agrees j c r r') : Agrees i c r r' := by
  cases h with
  | done hrest => exact .done (hij.trans hrest)
  | error hkind => exact .error hkind
  | never => exact .never
  | waits hkind => exact .waits hkind

section

variable (h : Agrees i c r r')
include h

theorem andThen {f g : α → Input → Result β}
    (hfg : ∀ v rest, i.After rest → Agrees i c (f v rest) (g v (rest.extend c))) :
    Agrees i c (r.andThen f) (r'.andThen g) := by
  cases h with
  | done hrest => exact hfg _ _ hrest
  | error hkind => exact .error hkind
  | never => exact .never
  | waits hkind => exact .waits hkind

theorem thenSteady {f : α → Parser β} (hi : i.live = true)
    (hf : ∀ v, Steady (f v)) : Agrees i c (r.andThen f) (r'.andThen f) :=
  h.andThen fun v rest hrest => (hf v rest c (hrest.live_eq.trans hi)).mono hrest

theorem thenDone {f : α → β} : Agrees i c (r.andThen fun v rest => .done (f v) rest)
      (r'.andThen fun v rest => .done (f v) rest) := h.andThen fun _ _ hrest => .done hrest

theorem mapError {f g : Error → Error} (hkind : ∀ e e', e'.kind = e.kind → (g e').kind = (f e).kind)
    (hwaits : ∀ e, e.kind = .incomplete → (f e).kind = .incomplete) :
    Agrees i c (r.mapError f) (r'.mapError g) := by
  cases h with
  | done hrest => exact .done hrest
  | error he => exact .error (hkind _ _ he)
  | never => exact .never
  | waits he => exact .waits (hwaits _ he)

end

end Agrees

/-! ## Primitives -/

section Primitives

theorem Steady.exactly (n : ℕ) (f : Span → Except String α) : Steady (exactly n f) := by
  intro i c hi
  simp only [Nom.exactly]
  by_cases hn : i.size < n
  · rw [if_pos hn]
    exact .waits (kind_makeIncomplete hi _)
  have hle : n ≤ i.size := Nat.le_of_not_lt hn
  rw [if_neg hn, if_neg (by rw [Input.size_extend]; omega), Input.takeSpan_extend c hle,
    Input.advance_extend c hle]
  cases f (i.takeSpan n) with
  | ok v => exact .done (advance hle)
  | error expected => exact .error rfl

theorem Steady.oneChar (expected : String) (ok : UInt8 → Bool) : Steady (oneChar expected ok) :=
  .exactly _ _

/-- More haystack behind the needle does not move it. -/
theorem search_append {needle b : Bytes} {n : ℕ} (h : search needle b = some n)
    (hne : needle ≠ []) (c : Bytes) : search needle (b ++ c) = some n := by
  induction b generalizing n with
  | nil =>
    rw [search, if_neg (by rwa [List.isEmpty_iff])] at h
    cases h
  | cons x b ih =>
    have hle := search_add_le h
    rw [search] at h
    rw [cons_append, search, ← cons_append]
    -- the needle is no longer than what it was found in
    have hfront : needle.isPrefixOf (x :: b ++ c) = needle.isPrefixOf (x :: b) := by
      rw [Bool.eq_iff_iff, isPrefixOf_iff_prefix, isPrefixOf_iff_prefix]
      refine ⟨fun hp => ?_, fun hp => hp.trans (prefix_append _ c)⟩
      exact prefix_of_prefix_length_le hp (prefix_append _ c) (by omega)
    rw [hfront]
    split at h
    · rw [if_pos ‹_›, h]
    · obtain ⟨m, hm, rfl⟩ := Option.map_eq_some_iff.1 h
      rw [if_neg ‹_›, ih hm]
      rfl

theorem Steady.takeUntil {needle : Bytes} (hne : needle ≠ []) : Steady (takeUntil needle) := by
  intro i c hi
  simp only [Nom.takeUntil]
  cases hsearch : search needle i.bytes with
  | none => exact .waits (kind_makeIncomplete hi _)
  | some n =>
    have hpos : 0 < needle.length := length_pos_of_ne_nil hne
    have hlt : n < i.size := by
      have hfound : n + needle.length ≤ i.size := search_add_le hsearch
      omega
    rw [Input.bytes_extend, search_append hsearch hne c]
    dsimp only
    rw [if_neg hlt.ne, if_neg (by rw [Input.size_extend]; omega),
      Input.takeSpan_extend c hlt.le, Input.advance_extend c hlt.le]
    exact .done (advance hlt.le)

/-- The loop of `uleb128` does not look at what is behind the number. -/
theorem readUleb128From_append (bits : ℕ) (b c : Bytes) (k v : ℕ) :
    (∃ needed, readUleb128From bits k v b = .error (.incomplete needed)) ∨
      readUleb128From bits k v (b ++ c) = readUleb128From bits k v b := by
  induction b generalizing k v with
  | nil => exact .inl ⟨1, rfl⟩
  | cons x b ih =>
    simp only [cons_append, readUleb128From]
    split_ifs
    · exact .inr rfl
    · exact .inr rfl
    · exact .inr rfl
    · exact ih _ _

theorem Steady.uleb128 (bits : ℕ) : Steady (uleb128 bits) := by
  intro i c hi
  have hread := readUleb128From_append bits (i.bytes.take (leb128MaxBytes bits))
    (c.take (leb128MaxBytes bits - i.bytes.length)) 0 0
  rw [← take_append] at hread
  simp only [Nom.uleb128, varint, readUleb128, Input.bytes_extend]
  obtain ⟨needed, hwaits⟩ | hsame := hread
  · rw [hwaits]
    exact .waits (kind_makeIncomplete hi needed)
  rw [hsame]
  cases hok : readUleb128From bits 0 0 (i.bytes.take (leb128MaxBytes bits)) with
  | ok r =>
    have hle : r.2 ≤ i.size := by
      have hused := readUleb128From_used hok
      rw [length_take, zero_add] at hused
      exact hused.trans (min_le_right ..)
    dsimp only
    rw [Input.advance_extend c hle]
    exact .done (advance hle)
  | error e =>
    cases e with
    | error expected => exact .error rfl
    | incomplete needed => exact .waits (kind_makeIncomplete hi needed)

end Primitives

/-! ## Sequences and modifiers -/

section Combinators

variable {p : Parser α} {q : Parser β} {s : Parser γ}

theorem Steady.seq {αs : List Type} {ps : Tuple Parser αs}
    (hps : ∀ k, Steady (ps.get αs k)) : Steady (seq αs ps) := by
  induction αs with
  | nil => exact fun i c _ => .done (refl i)
  | cons α αs ih =>
    obtain ⟨p, ps⟩ := ps
    intro i c hi
    have htail : Steady (Nom.seq αs ps) := ih fun k => hps k.succ
    exact (hps ⟨0, Nat.succ_pos _⟩ i c hi).thenSteady hi fun v rest c hrest =>
      (htail rest c hrest).thenDone

section

variable (hp : Steady p)
include hp

theorem Steady.map (f : α → β) : Steady (map p f) := fun i c hi =>
  (hp i c hi).thenDone

theorem Steady.mapOpt (f : α → Option β) : Steady (mapOpt p f) := by
  intro i c hi
  refine (hp i c hi).andThen fun v rest hrest => ?_
  cases f v with
  | some w => exact .done hrest
  | none => exact .error rfl

theorem Steady.flatMap {f : α → Parser β} (hf : ∀ v, Steady (f v)) :
    Steady (flatMap p f) := fun i c hi => (hp i c hi).thenSteady hi hf

end

theorem Steady.cond (b : Bool) (hp : Steady p) : Steady (cond b p) := by
  intro i c hi
  cases b with
  | true => exact (hp i c hi).thenDone
  | false => exact .done (refl i)

theorem Steady.peek (hp : Steady p) : Steady (peek p) := fun i c hi =>
  (hp i c hi).andThen fun _ _ _ => .done (refl i)

theorem Steady.recognize (hp : Steady p) : Steady (recognize p) := by
  intro i c hi
  refine (hp i c hi).andThen fun v rest hrest => ?_
  rw [Input.offset_extend, Input.offset_extend, Input.takeSpan_extend c hrest.eq_advance.1]
  exact .done hrest

theorem Steady.verify (hp : Steady p) (pred : α → Bool) : Steady (verify p pred) := by
  intro i c hi
  refine (hp i c hi).andThen fun v rest hrest => ?_
  cases pred v with
  | true => exact .done hrest
  | false => exact .error rfl

theorem Steady.cut (hp : Steady p) : Steady (cut p) := by
  refine fun i c hi => (hp i c hi).mapError (fun e e' he => ?_) fun e he => ?_
  · rw [he]
    split
    · rfl
    · exact he
  · rw [he, if_neg (by decide)]
    exact he

theorem Steady.context (label : String) (hp : Steady p) : Steady (context label p) :=
  fun i c hi => (hp i c hi).mapError (fun e e' he => by simpa using he)
    fun e he => by simpa using he

variable (size : α → ℕ)

/-- The value lies in bytes that are all there, so it is run on the same input. -/
theorem Steady.lengthValue (hp : Steady p) (q : Parser β) : Steady (lengthValue size p q) := by
  intro i c hi
  refine Agrees.andThen (hp.flatMap (fun _ => .exactly _ _) i c hi) fun s rest hrest => ?_
  have hsame : (i.extend c).withRange s = i.withRange s := rfl
  rw [hsame]
  cases q (i.withRange s) with
  | done w _ => exact .done hrest
  | unexp e => exact .error rfl
  | never => exact .never

theorem Steady.countFrom (hp : Steady p) (n : ℕ) (out : List α) : Steady (countFrom p n out) := by
  induction n generalizing out with
  | zero => exact fun i c _ => .done (refl i)
  | succ n ih => exact fun i c hi => (hp i c hi).thenSteady hi fun v => ih (out ++ [v])

end Combinators

/-! ## Alternatives -/

section Alternatives

variable {i : Input} {c : Bytes}

/-- The best of recoverable errors is one. -/
theorem kind_best {e : Error} (he : e.kind = .err) {best : Option Error} :
    (∀ b ∈ best, b.kind = .err) →
      (match best with | some b => better b e | none => e : Error).kind = .err := by
  intro hbest
  cases best with
  | none => exact he
  | some b => exact kind_better (hbest b rfl) he

/-- A recoverable error is gone on from, another one is passed on. -/
theorem Agrees.orElse {r r' : Result α} {f g : Error → Result α} : Agrees i c r r' →
    (∀ e e', e.kind = .err → e'.kind = .err → Agrees i c (f e) (g e')) →
    Agrees i c
      (match r with
        | .done v rest => .done v rest
        | .never => .never
        | .unexp e => if e.kind ≠ .err then .unexp e else f e)
      (match r' with
        | .done v rest => .done v rest
        | .never => .never
        | .unexp e => if e.kind ≠ .err then .unexp e else g e) := by
  intro h hfg
  cases h with
  | done hrest => exact .done hrest
  | never => exact .never
  | @error e e' hkind =>
    dsimp only
    by_cases he : e.kind = .err
    · have he' : e'.kind = .err := hkind.trans he
      rw [if_neg (not_not.2 he), if_neg (not_not.2 he')]
      exact hfg e e' he he'
    · rw [if_pos he, if_pos (by rwa [hkind])]
      exact .error hkind
  | @waits e r' hkind =>
    dsimp only
    rw [if_pos (by rw [hkind]; decide)]
    exact .waits hkind

theorem agrees_altStep {best best' : Option Error} {p : Parser α} {ps : List (Parser α)}
    (hi : i.live = true) (hbest : ∀ e ∈ best, e.kind = .err) (hbest' : ∀ e ∈ best', e.kind = .err)
    (hp : Steady p) (hps : ∀ q ∈ ps, Steady q) :
    Agrees i c (altStep i best p ps) (altStep (i.extend c) best' p ps) := by
  induction ps generalizing best best' p with
  | nil =>
    rw [altStep, altStep]
    refine (hp i c hi).orElse fun e e' he he' => .error ?_
    rw [Error.kind_orExpected, Error.kind_orExpected]
    exact (kind_best he' hbest').trans (kind_best he hbest).symm
  | cons q qs ih =>
    rw [altStep, altStep]
    refine (hp i c hi).orElse fun e e' he he' => ?_
    refine ih ?_ ?_ (hps q mem_cons_self) (forall_mem_cons.1 hps).2
    · rintro _ ⟨⟩
      exact kind_best he hbest
    · rintro _ ⟨⟩
      exact kind_best he' hbest'

theorem Steady.alt {p : Parser α} {ps : List (Parser α)} (hp : Steady p)
    (hps : ∀ q ∈ ps, Steady q) : Steady (alt p ps) := fun i c hi =>
  agrees_altStep hi (fun _ h => by cases h) (fun _ h => by cases h) hp hps

/-- A round of `permutation` on an input, and on the input with `c` behind it. -/
inductive Attempt.Agrees (i : Input) (c : Bytes) : Attempt σ → Attempt σ → Prop
  | progressed {slots : σ} {rest : Input} {d d' : Error} : i.After rest → d.kind = .err →
      d'.kind = .err → Attempt.Agrees i c (.progressed slots rest d)
        (.progressed slots (rest.extend c) d')
  | stayed {d d' : Error} : d.kind = .err → d'.kind = .err →
      Attempt.Agrees i c (.stayed d) (.stayed d')
  | abort {e e' : Error} : e'.kind = e.kind → Attempt.Agrees i c (.abort e) (.abort e')
  | never : Attempt.Agrees i c .never .never
  | waits {e : Error} {a : Attempt σ} : e.kind = .incomplete → Attempt.Agrees i c (.abort e) a

theorem Attempt.Agrees.map {a a' : Attempt σ} (h : Attempt.Agrees i c a a') (f : σ → κ) :
    Attempt.Agrees i c (a.map f) (a'.map f) := by
  cases h with
  | progressed hrest hd hd' => exact .progressed hrest hd hd'
  | stayed hd hd' => exact .stayed hd hd'
  | abort he => exact .abort he
  | never => exact .never
  | waits he => exact .waits he

theorem agrees_tryOne {αs : List Type} {ps : Tuple Parser αs} {slots : Tuple Option αs}
    {d d' : Error} (hi : i.live = true) (hps : ∀ k, Steady (ps.get αs k)) (hd : d.kind = .err)
    (hd' : d'.kind = .err) :
    Attempt.Agrees i c (tryOne i αs ps slots d) (tryOne (i.extend c) αs ps slots d') := by
  induction αs generalizing d d' with
  | nil => exact .stayed hd hd'
  | cons α αs ih =>
    obtain ⟨p, ps⟩ := ps
    obtain ⟨slot, slots⟩ := slots
    have htail : ∀ {d d' : Error}, d.kind = .err → d'.kind = .err →
        Attempt.Agrees i c (tryOne i αs ps slots d) (tryOne (i.extend c) αs ps slots d') :=
      fun hd hd' => ih (fun k => hps k.succ) hd hd'
    cases slot with
    | some v =>
      exact (htail hd hd').map _
    | none =>
      have hcall : Nom.Agrees i c (p i) (p (i.extend c)) := hps ⟨0, Nat.succ_pos _⟩ i c hi
      simp only [tryOne]
      generalize p i = r at hcall
      generalize p (i.extend c) = r' at hcall
      cases hcall with
      | done hrest => exact .progressed hrest hd hd'
      | never => exact .never
      | @error e e' hkind =>
        dsimp only
        by_cases he : e.kind = .err
        · have he' : e'.kind = .err := hkind.trans he
          rw [if_neg (not_not.2 he), if_neg (not_not.2 he')]
          exact (htail (kind_better hd he) (kind_better hd' he')).map _
        · rw [if_pos he, if_pos (by rwa [hkind])]
          exact .abort hkind
      | @waits e r' hkind =>
        dsimp only
        rw [if_pos (by rw [hkind]; decide)]
        exact .waits hkind

theorem agrees_permutationRounds {αs : List Type} {ps : Tuple Parser αs}
    (hps : ∀ k, Steady (ps.get αs k)) {n : ℕ} {slots : Tuple Option αs} {cur : Input} {d d' : Error}
    (hcur : cur.live = true) (hd : d.kind = .err) (hd' : d'.kind = .err) :
    Agrees cur c (permutationRounds αs ps n slots cur d)
      (permutationRounds αs ps n slots (cur.extend c) d') := by
  induction n generalizing slots cur d d' with
  | zero =>
    rw [permutationRounds, permutationRounds]
    cases filled αs slots with
    | some vs => exact .done (refl cur)
    | none => exact .never
  | succ n ih =>
    have hround : Attempt.Agrees cur c (tryOne cur αs ps slots d)
        (tryOne (cur.extend c) αs ps slots d') := agrees_tryOne hcur hps hd hd'
    rw [permutationRounds, permutationRounds]
    generalize tryOne cur αs ps slots d = a at hround
    generalize tryOne (cur.extend c) αs ps slots d' = a' at hround
    cases hround with
    | progressed hrest hd hd' => exact (ih (hrest.live_eq.trans hcur) hd hd').mono hrest
    | stayed hd hd' =>
      refine .error ?_
      split <;> split <;> exact hd'.trans hd.symm
    | abort he => exact .error he
    | never => exact .never
    | waits he => exact .waits he

theorem Steady.permutation {αs : List Type} {ps : Tuple Parser αs}
    (hps : ∀ k, Steady (ps.get αs k)) : Steady (permutation αs ps) := fun _ _ hi =>
  agrees_permutationRounds hps hi rfl rfl

end Alternatives

/-! ## Loops -/

/-- A round from a state, and from the state with `c` behind its cursor: both go on
from the same place, or stop with results that agree. -/
inductive RoundAgrees (i : Input) (c : Bytes) (cur : σ → Input) (ext : σ → σ) (size : ℕ) :
    Round σ (Result α × κ) → Round σ (Result α × κ) → Prop
  | next {s : σ} : i.After (cur s) → (cur s).size < size →
      RoundAgrees i c cur ext size (.next s) (.next (ext s))
  | stop {r r' : Result α} {k k' : κ} : Agrees i c r r' →
      RoundAgrees i c cur ext size (.stop (r, k)) (.stop (r', k'))
  | waits {e : Error} {k : κ} {q : Round σ (Result α × κ)} : e.kind = .incomplete →
      RoundAgrees i c cur ext size (.stop (.unexp e, k)) q

/-- **Rounds that agree make loops that agree**, whatever either of them has for the
case that it does not come to its end. -/
theorem agrees_run {i : Input} {c : Bytes} {round : σ → Round σ (Result α × κ)} {cur : σ → Input}
    {ext : σ → σ} (hext : ∀ s, cur (ext s) = (cur s).extend c) (hround : ∀ s, i.After (cur s) →
      RoundAgrees i c cur ext (cur s).size (round s) (round (ext s)))
    {s : σ} (hs : i.After (cur s)) (d d' : Result α × κ) :
    Agrees i c ((run round ((cur s).size + 1) s).getD d).1
      ((run round ((cur (ext s)).size + 1) (ext s)).getD d').1 := by
  have hrounds : ∀ s t, i.After (cur s) ∧ t = ext s →
      (∃ b, round s = .stop b ∧ ∃ e, b.1 = .unexp e ∧ e.kind = .incomplete) ∨
        Round.Rel (fun s' t' => (i.After (cur s') ∧ t' = ext s') ∧ (cur s').size < (cur s).size)
          (fun b b' => Agrees i c b.1 b'.1) (round s) (round t) := by
    rintro s _ ⟨hs, rfl⟩
    have hrel := hround s hs
    generalize round s = q at hrel
    generalize round (ext s) = q' at hrel
    cases hrel with
    | next hcur hlt => exact .inr (.next ⟨⟨hcur, rfl⟩, hlt⟩)
    | stop hr => exact .inr (.stop hr)
    | waits he => exact .inl ⟨_, rfl, _, rfl, he⟩
  have hsize : (cur s).size < (cur (ext s)).size + 1 := by rw [hext, Input.size_extend]; omega
  obtain ⟨b, hb, ⟨e, he, hkind⟩ | ⟨b', hb', hr⟩⟩ := run_sim_unless (fun s => (cur s).size) hrounds
    ⟨hs, rfl⟩ (Nat.lt_succ_self _) hsize
  · rw [hb, Option.getD_some, he]
    exact .waits hkind
  · rw [hb, hb']
    exact hr

section Loops

variable {i : Input} {c : Bytes} {p : Parser α} {q : Parser γ}

theorem agrees_repetition (hp : Steady p) (hi : i.live = true) (limit : Option ℕ) (stuck : String)
    (f : β → α → β) {s : Repeating β} (hs : i.After s.cur) :
    Agrees i c (repetition p limit stuck f s).1
      (repetition p limit stuck f { s with cur := s.cur.extend c }).1 := by
  refine @agrees_run _ (Repeating β) _ i c (repetitionRound p limit stuck f) Repeating.cur
    (fun s => { s with cur := s.cur.extend c }) (fun _ => rfl) (fun s hs => ?_) s hs _ _
  have hcall := hp s.cur c (hs.live_eq.trans hi)
  simp only [repetitionRound]
  split
  · exact .stop (.done hs)
  generalize p s.cur = r at hcall
  generalize p (s.cur.extend c) = r' at hcall
  cases hcall with
  | @done v rest hrest =>
    dsimp only
    rw [Input.offset_extend, Input.offset_extend]
    split
    · exact .stop (.error rfl)
    · exact .next (hs.trans hrest) (hrest.size_lt ‹_›)
  | @error e e' hkind =>
    dsimp only
    rw [hkind]
    split
    · exact .stop (.error hkind)
    · exact .stop (.done hs)
  | never => exact .stop .never
  | @waits e r' hkind =>
    dsimp only
    rw [if_pos (by rw [hkind]; decide)]
    exact .waits hkind

theorem agrees_only {r r' : Result (Repeated β) × ℕ} (h : Agrees i c r.1 r'.1) :
    Agrees i c (Repeated.only r).1 (Repeated.only r').1 := h.thenDone

theorem agrees_atLeast {r r' : Result (Repeated β) × ℕ} (m : ℕ) (few : String)
    (h : Agrees i c r.1 r'.1) :
    Agrees i c (Repeated.atLeast m few r).1 (Repeated.atLeast m few r').1 := by
  refine h.andThen fun s rest hrest => ?_
  split
  · exact .error rfl
  · exact .done hrest

/-- A first call, and what comes after it. -/
theorem agrees_withFirst {next : α → Input → Result β × ℕ} (hp : Steady p) (hi : i.live = true)
    (hnext : ∀ v rest, i.After rest → Agrees i c (next v rest).1 (next v (rest.extend c)).1) :
    Agrees i c (withFirst p i next).1 (withFirst p (i.extend c) next).1 := by
  have hcall := hp i c hi
  rw [withFirst, withFirst]
  generalize p i = r at hcall
  generalize p (i.extend c) = r' at hcall
  cases hcall with
  | done hrest => exact hnext _ _ hrest
  | error hkind => exact .error hkind
  | never => exact .never
  | waits hkind => exact .waits hkind

theorem Steady.manyTill (hp : Steady p) (hq : Steady q) : Steady (manyTill p q) := by
  intro i c hi
  refine @agrees_run _ (Listing α) _ i c (manyTillRound p q) Listing.cur
    (fun s => { s with cur := s.cur.extend c }) (fun _ => rfl) (fun s hs => ?_) ⟨[], i, ⟨0, 0⟩⟩
    (refl i) _ _
  have hlive := hs.live_eq.trans hi
  have hend := hq s.cur c hlive
  have hcall := hp s.cur c hlive
  simp only [manyTillRound]
  generalize q s.cur = t at hend
  generalize q (s.cur.extend c) = t' at hend
  cases hend with
  | done hrest => exact .stop (.done (hs.trans hrest))
  | never => exact .stop .never
  | @waits e t' hkind =>
    dsimp only
    rw [if_pos (by rw [hkind]; decide)]
    exact .waits hkind
  | @error e e' hkind =>
    dsimp only
    rw [hkind]
    split
    · exact .stop (.error hkind)
    generalize p s.cur = r at hcall
    generalize p (s.cur.extend c) = r' at hcall
    cases hcall with
    | @done v rest hrest =>
      dsimp only
      rw [Input.offset_extend, Input.offset_extend]
      split
      · exact .stop (.error rfl)
      · exact .next (hs.trans hrest) (hrest.size_lt ‹_›)
    | error hkind => exact .stop (.error hkind)
    | never => exact .stop .never
    | waits hkind => exact .waits hkind

end Loops

/-! ## The parsers that can be run on a stream -/

/-- What can be built of the parsers and combinators that pass on that they wait. -/
inductive Streaming : {α : Type} → Parser α → Prop
  | tag (pattern : Bytes) : Streaming (tag pattern)
  | take (n : ℕ) : Streaming (take n)
  | takeUntil {needle : Bytes} : needle ≠ [] → Streaming (takeUntil needle)
  | chr (c : UInt8) : Streaming (chr c)
  | satisfy (pred : UInt8 → Bool) : Streaming (satisfy pred)
  | oneOf (set : Bytes) : Streaming (oneOf set)
  | noneOf (set : Bytes) : Streaming (noneOf set)
  | readUint (n : ℕ) (order : Endian) : Streaming (readUint n order)
  | readInt (n : ℕ) (order : Endian) : Streaming (readInt n order)
  | uleb128 (bits : ℕ) : Streaming (uleb128 bits)
  | strct (dflt : Endian) (T : Layout.Ty) : Streaming (Layout.strct dflt T)
  | seq {αs : List Type} {ps : Tuple Parser αs} :
      (∀ k, Streaming (ps.get αs k)) → Streaming (seq αs ps)
  | pair : Streaming p → Streaming q → Streaming (pair p q)
  | separatedPair : Streaming p → Streaming s → Streaming q → Streaming (separatedPair p s q)
  | preceded : Streaming p → Streaming q → Streaming (preceded p q)
  | terminated : Streaming p → Streaming q → Streaming (terminated p q)
  | delimited : Streaming o → Streaming p → Streaming c → Streaming (delimited o p c)
  | alt {α : Type} {p : Parser α} {ps : List (Parser α)} :
      Streaming p → (∀ q ∈ ps, Streaming q) → Streaming (alt p ps)
  | permutation {αs : List Type} {ps : Tuple Parser αs} :
      (∀ k, Streaming (ps.get αs k)) → Streaming (permutation αs ps)
  | many0 : Streaming p → Streaming (many0 p)
  | many1 : Streaming p → Streaming (many1 p)
  | manyMN (m n : ℕ) : Streaming p → Streaming (manyMN m n p)
  | manyTill : Streaming p → Streaming e → Streaming (manyTill p e)
  | foldMany0 {α β : Type} {p : Parser α} (init : β) (f : β → α → β) :
      Streaming p → Streaming (foldMany0 p init f)
  | foldMany1 {α β : Type} {p : Parser α} (init : β) (f : β → α → β) :
      Streaming p → Streaming (foldMany1 p init f)
  | foldManyMN {α β : Type} {p : Parser α} (m n : ℕ) (init : β) (f : β → α → β) :
      Streaming p → Streaming (foldManyMN m n p init f)
  | count (n : ℕ) : Streaming p → Streaming (count p n)
  | lengthData {α : Type} {p : Parser α} (size : α → ℕ) :
      Streaming p → Streaming (lengthData size p)
  | lengthValue {α β : Type} {n : Parser α} {p : Parser β} (size : α → ℕ) :
      Streaming n → Streaming p → Streaming (lengthValue size n p)
  | lengthCount {α β : Type} {n : Parser α} {p : Parser β} (size : α → ℕ) :
      Streaming n → Streaming p → Streaming (lengthCount size n p)
  | map {α β : Type} {p : Parser α} (f : α → β) : Streaming p → Streaming (map p f)
  | mapOpt {α β : Type} {p : Parser α} (f : α → Option β) : Streaming p → Streaming (mapOpt p f)
  | flatMap {α β : Type} {p : Parser α} {f : α → Parser β} :
      Streaming p → (∀ v, Streaming (f v)) → Streaming (flatMap p f)
  | verify {α : Type} {p : Parser α} (pred : α → Bool) : Streaming p → Streaming (verify p pred)
  | cut : Streaming p → Streaming (cut p)
  | peek : Streaming p → Streaming (peek p)
  | recognize : Streaming p → Streaming (recognize p)
  | value {α β : Type} {p : Parser α} (v : β) : Streaming p → Streaming (value v p)
  | cond (b : Bool) : Streaming p → Streaming (cond b p)
  | context (label : String) : Streaming p → Streaming (context label p)

theorem Streaming.built {p : Parser α} (h : Streaming p) : Built p := by
  induction h with
  | strct dflt T => exact .leaf (.exactly _ _)
  | takeUntil hne => exact .takeUntil _
  | seq _ ih => exact .seq ih
  | permutation _ ih => exact .permutation ih
  | alt _ _ hp hps => exact .alt hp hps
  | flatMap _ _ hp hf => exact .flatMap hp hf
  | delimited _ _ _ ho hp hc => exact .delimited ho hp hc
  | value v _ hp => exact .value v hp
  | _ => constructor <;> assumption

/-- What streams is steady, by its constructors. -/
theorem Streaming.steady {p : Parser α} (h : Streaming p) : Steady p := by
  induction h with
  | tag | take | readUint | readInt | strct => exact .exactly _ _
  | chr | satisfy | oneOf | noneOf => exact .oneChar _ _
  | takeUntil hne => exact .takeUntil hne
  | uleb128 bits => exact .uleb128 bits
  | seq _ ih => exact .seq ih
  | pair _ _ hp hq | terminated _ _ hp hq => exact hp.flatMap fun _ => hq.map _
  | separatedPair _ _ _ hp hs hq | delimited _ _ _ hp hs hq =>
    exact hp.flatMap fun _ => hs.flatMap fun _ => hq.map _
  | preceded _ _ hp hq => exact hp.flatMap fun _ => hq
  | alt _ _ hp hps => exact hp.alt hps
  | permutation _ ih => exact .permutation ih
  | many0 _ hp | foldMany0 _ _ _ hp =>
    exact fun i _ hi => agrees_only (agrees_repetition hp hi _ _ _ (refl i))
  | manyMN m _ _ hp | foldManyMN m _ _ _ _ hp =>
    exact fun i _ hi => agrees_atLeast m _ (agrees_repetition hp hi _ _ _ (refl i))
  | many1 _ hp =>
    exact fun _ _ hi => agrees_withFirst hp hi fun _ _ hrest =>
      (agrees_only (agrees_repetition hp hi _ _ _ hrest)).thenDone
  | foldMany1 _ _ _ hp =>
    exact fun _ _ hi => agrees_withFirst hp hi fun _ _ hrest =>
      agrees_only (agrees_repetition hp hi _ _ _ hrest)
  | manyTill _ _ hp he => exact hp.manyTill he
  | count n _ hp => exact hp.countFrom n []
  | lengthData size _ hp => exact hp.flatMap fun _ => .exactly _ _
  | lengthValue size _ _ hn _ => exact hn.lengthValue size _
  | lengthCount size _ _ hn hp => exact hn.flatMap fun n => hp.countFrom (size n) []
  | map f _ hp => exact hp.map f
  | value v _ hp => exact hp.map fun _ => v
  | mapOpt f _ hp => exact hp.mapOpt f
  | flatMap _ _ hp hf => exact hp.flatMap hf
  | verify pred _ hp => exact hp.verify pred
  | cut _ hp => exact hp.cut
  | peek _ hp => exact hp.peek
  | recognize _ hp => exact hp.recognize
  | cond b _ hp => exact hp.cond b
  | context label _ hp => exact hp.context label

/-- What a caller sees of a call on an input: the value and how many bytes are
consumed, or the kind of the error; nothing where the call does not come back. -/
def observe (i : Input) : Result α → Option (Except Errk (α × ℕ))
  | .done v rest => some (.ok (v, rest.offset - i.offset))
  | .unexp e => some (.error e.kind)
  | .never => none

/-- A call that waits for more of its input. -/
def Waits (r : Result α) : Prop := ∃ e, r = .unexp e ∧ e.kind = .incomplete

theorem observe_extend (i : Input) (c : Bytes) (r : Result α) :
    observe (i.extend c) r = observe i r := by
  cases r <;> rfl

theorem Agrees.observe_eq {i : Input} {c : Bytes} {r r' : Result α} (h : Agrees i c r r')
    (hr : ¬ Waits r) (j : Input) : observe j r' = observe j r := by
  cases h with
  | done hrest => rfl
  | error hkind => rw [observe, observe, hkind]
  | never => rfl
  | @waits e r' hkind => exact absurd ⟨e, rfl, hkind⟩ hr

/-- **Streaming stability**: what a parser comes to on a live input, unless it waits
for more, it comes to on every extension. -/
theorem streaming_stable {p : Parser α} (hp : Streaming p) {i : Input} (hlive : i.live = true)
    (hdone : ¬ Waits (p i)) (c : Bytes) :
    ∃ seen, observe i (p i) = some seen ∧ observe (i.extend c) (p (i.extend c)) = some seen := by
  have hback : p i ≠ .never := (hp.built.forward i).ne_never
  have hsame := (hp.steady i c hlive).observe_eq hdone (i.extend c)
  cases hrun : p i with
  | done v rest | unexp e => exact ⟨_, rfl, by rw [hsame, hrun]; rfl⟩
  | never => exact absurd hrun hback

/-- A list of tags that has come to its end before the input has. -/
theorem streaming_stable_many0 :
    ∃ seen, observe ⟨[1, 1, 2], 0, true⟩ (many0 (tag [1]) ⟨[1, 1, 2], 0, true⟩) = some seen
      ∧ observe ⟨[1, 1, 2, 1], 0, true⟩ (many0 (tag [1]) ⟨[1, 1, 2, 1], 0, true⟩) = some seen := by
  refine streaming_stable (.many0 (.tag [1])) rfl ?_ [1]
  rintro ⟨e, he, -⟩
  cases he

end Nanom.Nom
