import Mathlib.Data.List.Forall2
import Nanom.Common.Bytes
import Nanom.Common.Loop

/-!
# Parsers of byte strings

A parser gives what it reads and the bytes behind that. `Takes` says that it
looks at no other bytes than those it takes, and `Follows` that one parser goes
as far as another. From the two a parser can be taken apart: `split_iff` and
`times_split_iff` first cut the input with a parser that only skips, and then
read the pieces.

`times` is the counted loop, `untilZero` the loop that ends at a zero byte and
`toEnd` the one that ends with the input, taken apart by `toEnd_eq_ok`.
-/

namespace Nanom

open List Nat

variable {k m : ℕ} {pre rest' : Bytes}
variable {b rest : Bytes} {fuel n : ℕ}

/-- A parser: what it reads and the bytes behind that, or why not. -/
abbrev Parser (ε α : Type) : Type := Bytes → Except ε (α × Bytes)

namespace Parser

variable {ε α β γ σ τ : Type}
variable {p : Parser ε α} {s : Parser ε β} {a : α}

/-- A parser that is gone on from. -/
theorem read_eq_ok {x : Except ε (α × Bytes)} {f : α × Bytes → Except ε β} {r : β} :
    (x >>= f) = .ok r ↔ ∃ a b, x = .ok (a, b) ∧ f (a, b) = .ok r := by
  rw [bind_eq_ok, Prod.exists]

/-- A parser whose value is made another. -/
theorem map_eq_ok {x : Except ε (α × Bytes)} {g : α → β} {v : β} :
    (x >>= fun y => .ok (g y.1, y.2)) = .ok (v, rest) ↔ ∃ a, x = .ok (a, rest) ∧ v = g a := by
  constructor
  · intro h
    obtain ⟨a, b, hx, h⟩ := read_eq_ok.1 h
    cases h
    exact ⟨a, hx, rfl⟩
  · rintro ⟨a, hx, rfl⟩
    exact read_eq_ok.2 ⟨a, rest, hx, rfl⟩

/-- A program over a list whose steps check what they are given. -/
theorem mapM_checked {l : List α} {f : α → Except ε β} {g : α → β} {c : α → Prop} {r : List β}
    (h : ∀ a ∈ l, ∀ b, f a = .ok b ↔ c a ∧ b = g a) :
    l.mapM f = .ok r ↔ (∀ a ∈ l, c a) ∧ r = l.map g := by
  constructor
  · intro hrun
    induction l generalizing r with
    | nil =>
      cases hrun
      exact ⟨forall_mem_nil _, rfl⟩
    | cons a l ih =>
      rw [mapM_cons] at hrun
      obtain ⟨b, hb, hrun⟩ := bind_eq_ok.1 hrun
      obtain ⟨s, hs, hrun⟩ := bind_eq_ok.1 hrun
      cases hrun
      obtain ⟨hc, rfl⟩ := (h a mem_cons_self b).1 hb
      obtain ⟨hall, rfl⟩ := ih (forall_mem_cons.1 h).2 hs
      exact ⟨forall_mem_cons.2 ⟨hc, hall⟩, rfl⟩
  · rintro ⟨hall, rfl⟩
    exact mapM_ok fun a ha => (h a ha _).2 ⟨hall a ha, rfl⟩

/-- **The bytes a parser takes** are at the front of the input, `m` at
least, and what is behind them makes no difference. -/
def Takes (m : ℕ) (p : Parser ε α) : Prop :=
  ∀ ⦃b a rest⦄, p b = .ok (a, rest) →
    ∃ pre, b = pre ++ rest ∧ m ≤ pre.length ∧ ∀ r, p (pre ++ r) = .ok (a, r)

/-- Where `p` reads something, `s` goes as far. -/
def Follows (s : Parser ε β) (p : Parser ε α) : Prop :=
  ∀ ⦃b a rest⦄, p b = .ok (a, rest) → ∃ u, s b = .ok (u, rest)

theorem Follows.refl (p : Parser ε α) : Follows p p := fun _ a _ h => ⟨a, h⟩

theorem Takes.mono {m' : ℕ} (hp : Takes m p) (h : m' ≤ m) : Takes m' p := by
  intro b a rest hb
  obtain ⟨pre, hpre, hlen, hall⟩ := hp hb
  exact ⟨pre, hpre, le_trans h hlen, hall⟩

theorem Takes.congr {ε' : Type} {q : Parser ε' α} (hq : Takes m q)
    (h : ∀ b x, p b = .ok x ↔ q b = .ok x) : Takes m p := by
  intro b a rest hb
  obtain ⟨pre, hpre, hlen, hall⟩ := hq ((h _ _).1 hb)
  exact ⟨pre, hpre, hlen, fun r => (h _ _).2 (hall r)⟩

theorem Takes.length_le (hp : Takes m p)
    (h : p b = .ok (a, rest)) : m + rest.length ≤ b.length := by
  obtain ⟨pre, rfl, hlen, -⟩ := hp h
  rw [length_append]
  exact Nat.add_le_add_right hlen _

/-- A parser of nothing. -/
theorem takes_ok (a : α) : Takes 0 (fun b => .ok (a, b) : Parser ε α) := by
  intro b a' rest h
  cases h
  exact ⟨[], rfl, zero_le _, fun r => rfl⟩

theorem takes_error (e : Bytes → ε) (m : ℕ) : Takes m (fun b => .error (e b) : Parser ε α) := by
  intro b a rest h
  cases h

/-- One parser after another. -/
theorem Takes.bind {q : α → Parser ε β} (hp : Takes m p)
    (hq : ∀ a, Takes k (q a)) : Takes (m + k) (fun b => p b >>= fun x => q x.1 x.2) := by
  intro b c rest h
  obtain ⟨⟨a, mid⟩, hpb, hqm⟩ := bind_eq_ok.1 h
  obtain ⟨pre, rfl, hlen, hall⟩ := hp hpb
  obtain ⟨pre', rfl, hlen', hall'⟩ := hq a hqm
  refine ⟨pre ++ pre', by rw [append_assoc], ?_, ?_⟩
  · rw [length_append]
    exact Nat.add_le_add hlen hlen'
  · intro r
    dsimp only
    rw [append_assoc, hall]
    exact hall' r

/-- A parser with a check behind it, whose fault is where it started. -/
theorem Takes.check (hp : Takes m p) (c : α → Prop) [DecidablePred c] (f : Bytes → ε) (g : α → β) :
    Takes m (fun b => p b >>= fun x => if c x.1 then .error (f b) else .ok (g x.1, x.2)) := by
  intro b a rest h
  obtain ⟨⟨x, mid⟩, hpb, hret⟩ := bind_eq_ok.1 h
  obtain ⟨pre, rfl, hlen, hall⟩ := hp hpb
  obtain ⟨hc, hret⟩ := check_eq_ok.1 hret
  cases hret
  exact ⟨pre, rfl, hlen, fun r => bind_eq_ok.2 ⟨(x, r), hall r, if_neg hc⟩⟩

/-- A parser whose result is made into another. -/
theorem Takes.map (hp : Takes m p) (g : α → β) :
    Takes m (fun b => p b >>= fun x => .ok (g x.1, x.2)) := hp.bind fun a => takes_ok (g a)

/-! ## So many bytes -/

/-- The next `n` bytes: `short` is for an input with fewer. -/
def chunk (short : Bytes → ε) (n : ℕ) : Parser ε Bytes := fun b =>
  if b.length < n then .error (short b) else .ok (b.take n, b.drop n)

theorem chunk_eq_ok {short : Bytes → ε} {x : Bytes} :
    chunk short n b = .ok (x, rest) ↔ b = x ++ rest ∧ x.length = n := by
  constructor
  · intro h
    obtain ⟨hn, h⟩ := check_eq_ok.1 h
    cases h
    exact ⟨(take_append_drop n b).symm, by rw [length_take]; omega⟩
  · rintro ⟨rfl, rfl⟩
    rw [chunk]
    rw [if_neg (by rw [length_append]; omega), take_left, drop_left]

theorem takes_chunk (short : Bytes → ε) (n : ℕ) : Takes n (chunk short n) := by
  intro b x rest h
  obtain ⟨rfl, hlen⟩ := chunk_eq_ok.1 h
  exact ⟨x, rfl, le_of_eq hlen.symm, fun r => chunk_eq_ok.2 ⟨rfl, hlen⟩⟩

/-- A parser run for the bytes it takes. -/
def discard (p : Parser ε α) : Parser ε Unit := fun b => do
  let (_, b) ← p b
  .ok ((), b)

theorem takes_discard (hp : Takes m p) : Takes m (discard p) := hp.map fun _ => ()

theorem discard_eq_ok : discard p b = .ok ((), rest) ↔ ∃ a, p b = .ok (a, rest) :=
  map_eq_ok.trans (exists_congr fun _ => and_iff_left rfl)

theorem follows_discard {q : Parser ε β} (h : Follows q p) : Follows (discard q) (discard p) := by
  intro b u rest hb
  obtain ⟨a, ha⟩ := discard_eq_ok.1 hb
  exact ⟨(), discard_eq_ok.2 (h ha)⟩

/-! ## The whole of an input -/

/-- What a parser reads, if it takes all there is. -/
def whole (p : Parser ε α) (b : Bytes) : Option α :=
  match p b with
  | .ok (a, []) => some a
  | _ => none

theorem whole_eq_some : whole p b = some a ↔ p b = .ok (a, []) := by
  rw [whole]
  constructor
  · intro h
    split at h
    · cases h
      assumption
    · cases h
  · intro h
    rw [h]

theorem Takes.of_whole (hp : Takes m p)
    (h : whole p b = some a) (r : Bytes) : p (b ++ r) = .ok (a, r) := by
  obtain ⟨pre, hpre, -, hall⟩ := hp (whole_eq_some.1 h)
  rw [append_nil] at hpre
  rw [hpre]
  exact hall r

/-- The bytes that are taken are enough. -/
theorem Takes.alone (hp : Takes m p)
    (h : p (pre ++ rest) = .ok (a, rest)) : p pre = .ok (a, []) := by
  obtain ⟨pre', hpre, -, hall⟩ := hp h
  obtain rfl := append_cancel_right hpre
  have hnil := hall []
  rwa [append_nil] at hnil

/-- What a parser takes, in place of what it reads. -/
def cut (s : Parser ε β) : Parser ε Bytes := fun b => do
  let (_, rest) ← s b
  return (b.take (b.length - rest.length), rest)

theorem cut_eq_ok (hs : Takes m s) :
    cut s b = .ok (pre, rest) ↔ b = pre ++ rest ∧ ∃ u, s b = .ok (u, rest) := by
  constructor
  · intro h
    obtain ⟨⟨u, rest'⟩, hsb, hret⟩ := bind_eq_ok.1 h
    obtain ⟨pre', rfl, -, -⟩ := hs hsb
    cases hret
    refine ⟨?_, u, hsb⟩
    rw [length_append, Nat.add_sub_cancel, take_left]
  · rintro ⟨rfl, u, hsb⟩
    rw [cut, hsb, ok_bind]
    dsimp only
    rw [length_append, Nat.add_sub_cancel, take_left]
    rfl

theorem follows_cut (hs : Takes m s) : Follows (cut s) s := by
  intro b u rest hb
  obtain ⟨pre, rfl, -, -⟩ := hs hb
  exact ⟨pre, (cut_eq_ok hs).2 ⟨rfl, u, hb⟩⟩

theorem takes_cut (hs : Takes m s) : Takes m (cut s) := by
  intro b pre rest h
  obtain ⟨rfl, u, hsb⟩ := (cut_eq_ok hs).1 h
  obtain ⟨pre', hpre, hlen, hall⟩ := hs hsb
  obtain rfl := append_cancel_right hpre
  exact ⟨pre, rfl, hlen, fun r => (cut_eq_ok hs).2 ⟨rfl, u, hall r⟩⟩

section Split

variable {m k : ℕ} {s : Parser ε β} {p : Parser ε α}

/-- **Reading is skipping, and reading what was skipped.** -/
theorem split_iff (hs : Takes m s) (hp : Takes k p) (hf : Follows s p) :
    p b = .ok (a, rest) ↔ ∃ pre, cut s b = .ok (pre, rest) ∧ whole p pre = some a := by
  constructor
  · intro h
    obtain ⟨pre, rfl, -, hall⟩ := hp h
    refine ⟨pre, (cut_eq_ok hs).2 ⟨rfl, hf h⟩, whole_eq_some.2 ?_⟩
    have hnil := hall []
    rwa [append_nil] at hnil
  · rintro ⟨pre, hcut, hpre⟩
    obtain ⟨rfl, -⟩ := (cut_eq_ok hs).1 hcut
    exact hp.of_whole hpre rest

end Split

/-! ## The counted loop -/

/-- The parser, `n` times. -/
def times (p : Parser ε α) : ℕ → Parser ε (List α)
  | 0, b => .ok ([], b)
  | n + 1, b => do
      let (a, b) ← p b
      let (as, b) ← times p n b
      return (a :: as, b)

theorem times_succ_eq_ok {l : List α} :
    times p (n + 1) b = .ok (l, rest) ↔
      ∃ a mid as, p b = .ok (a, mid) ∧ times p n mid = .ok (as, rest) ∧ l = a :: as := by
  constructor
  · intro h
    obtain ⟨⟨a, mid⟩, hp, h⟩ := bind_eq_ok.1 h
    obtain ⟨⟨as, rest'⟩, ht, h⟩ := bind_eq_ok.1 h
    cases h
    exact ⟨a, mid, as, hp, ht, rfl⟩
  · rintro ⟨a, mid, as, hp, ht, rfl⟩
    exact read_eq_ok.2 ⟨a, mid, hp, read_eq_ok.2 ⟨as, rest, ht, rfl⟩⟩

theorem length_of_times {l : List α} (h : times p n b = .ok (l, rest)) : l.length = n := by
  induction n generalizing b l with
  | zero => cases h; rfl
  | succ n ih =>
    obtain ⟨a, mid, as, -, ht, rfl⟩ := times_succ_eq_ok.1 h
    rw [length_cons, ih ht]

theorem takes_times (hp : Takes m p) (n : ℕ) : Takes (n * m) (times p n) := by
  induction n with
  | zero =>
    rw [zero_mul]
    exact takes_ok []
  | succ n ih =>
    intro b l rest h
    obtain ⟨a, mid, as, ha, ht, rfl⟩ := times_succ_eq_ok.1 h
    obtain ⟨pre, rfl, hlen, hall⟩ := hp ha
    obtain ⟨pre', rfl, hlen', hall'⟩ := ih ht
    refine ⟨pre ++ pre', by rw [append_assoc], ?_, ?_⟩
    · rw [length_append, succ_mul]
      omega
    · intro r
      refine times_succ_eq_ok.2 ⟨a, pre' ++ r, as, ?_, hall' r, rfl⟩
      rw [append_assoc]
      exact hall _

theorem follows_times (hf : Follows s p) (n : ℕ) : Follows (times s n) (times p n) := by
  induction n with
  | zero =>
    intro b l rest h
    cases h
    exact ⟨[], rfl⟩
  | succ n ih =>
    intro b l rest h
    obtain ⟨a, mid, as, ha, ht, rfl⟩ := times_succ_eq_ok.1 h
    obtain ⟨u, hu⟩ := hf ha
    obtain ⟨us, hus⟩ := ih ht
    exact ⟨u :: us, times_succ_eq_ok.2 ⟨u, mid, us, hu, hus, rfl⟩⟩

/-- A counted loop in step with two others. -/
theorem times_sync {q : Parser ε γ} {R : α → γ → Prop}
    (hstep : ∀ b a u mid mid', p b = .ok (a, mid) → s b = .ok (u, mid') →
      mid = mid' ∧ ∃ c, q b = .ok (c, mid) ∧ R a c)
    {l : List α} {us : List β} (h : times p n b = .ok (l, rest))
    (hs : times s n b = .ok (us, rest')) :
    ∃ l', times q n b = .ok (l', rest) ∧ List.Forall₂ R l l' := by
  induction n generalizing b l us with
  | zero =>
    cases h
    exact ⟨[], rfl, .nil⟩
  | succ n ih =>
    obtain ⟨a, mid, as, ha, ht, rfl⟩ := times_succ_eq_ok.1 h
    obtain ⟨u, mid', us', hu, hts, -⟩ := times_succ_eq_ok.1 hs
    obtain ⟨rfl, c, hc, hR⟩ := hstep b a u mid mid' ha hu
    obtain ⟨l', hl', hall⟩ := ih ht hts
    exact ⟨c :: l', times_succ_eq_ok.2 ⟨c, mid, l', hc, hl', rfl⟩, .cons hR hall⟩

/-- The pieces of a counted loop are read one by one. -/
theorem times_split_iff (hs : Takes m s) (hp : Takes k p) (hf : Follows s p) {l : List α} :
    times p n b = .ok (l, rest) ↔
      ∃ pieces, times (cut s) n b = .ok (pieces, rest) ∧ pieces.mapM (whole p) = some l := by
  induction n generalizing b l with
  | zero =>
    constructor
    · intro h
      cases h
      exact ⟨[], rfl, rfl⟩
    · rintro ⟨pieces, h, hl⟩
      cases h
      cases hl
      rfl
  | succ n ih =>
    constructor
    · intro h
      obtain ⟨a, mid, as, ha, ht, rfl⟩ := times_succ_eq_ok.1 h
      obtain ⟨pre, hpre, hwhole⟩ := (split_iff hs hp hf).1 ha
      obtain ⟨pieces, hpieces, hl⟩ := ih.1 ht
      refine ⟨pre :: pieces, times_succ_eq_ok.2 ⟨pre, mid, pieces, hpre, hpieces, rfl⟩, ?_⟩
      rw [mapM_cons, hwhole, hl]
      rfl
    · rintro ⟨l', h, hl⟩
      obtain ⟨pre, mid, pieces, hpre, hpieces, rfl⟩ := times_succ_eq_ok.1 h
      rw [mapM_cons] at hl
      obtain ⟨a, ha, hl⟩ := Option.bind_eq_some_iff.1 hl
      obtain ⟨as, has, hl⟩ := Option.bind_eq_some_iff.1 hl
      cases hl
      exact times_succ_eq_ok.2
        ⟨a, mid, as, (split_iff hs hp hf).2 ⟨pre, hpre, ha⟩, ih.2 ⟨pieces, hpieces, has⟩, rfl⟩

/-! ## The loop to a zero byte -/

/-- Rounds of `step`, each with the byte it starts at, up to a zero byte:
`ended` is for the end of the input and `spent` for the end of the fuel. -/
def untilZero (step : σ → UInt8 → Parser ε σ) (ended spent : ε) : ℕ → σ → Parser ε σ
  | 0, _, _ => .error spent
  | _ + 1, _, [] => .error ended
  | fuel + 1, s, h :: b =>
    if h = 0 then .ok (s, b)
    else do
      let (s, b) ← step s h b
      untilZero step ended spent fuel s b

section UntilZero

variable {step : σ → UInt8 → Parser ε σ} {ended spent : ε}

theorem untilZero_eq_ok {s s' : σ} :
    untilZero step ended spent fuel s b = .ok (s', rest) ↔ ∃ k h b', fuel = k + 1 ∧ b = h :: b' ∧
        ((h = 0 ∧ s' = s ∧ rest = b') ∨ (h ≠ 0 ∧ ∃ t mid, step s h b' = .ok (t, mid) ∧
          untilZero step ended spent k t mid = .ok (s', rest))) := by
  constructor
  · intro hrun
    rcases fuel with - | k
    · cases hrun
    rcases b with - | ⟨h, b'⟩
    · cases hrun
    refine ⟨k, h, b', rfl, rfl, ?_⟩
    rw [untilZero] at hrun
    by_cases hh : h = 0
    · rw [if_pos hh] at hrun
      cases hrun
      exact .inl ⟨hh, rfl, rfl⟩
    · rw [if_neg hh] at hrun
      obtain ⟨⟨t, mid⟩, hstep, hrun⟩ := bind_eq_ok.1 hrun
      exact .inr ⟨hh, t, mid, hstep, hrun⟩
  · rintro ⟨k, h, b', rfl, rfl, ⟨hh, rfl, rfl⟩ | ⟨hh, t, mid, hstep, hrun⟩⟩
    · rw [untilZero, if_pos hh]
    · rw [untilZero, if_neg hh, hstep]
      exact hrun

/-- The rounds take bytes, so as much fuel as there are bytes will do. -/
theorem untilZero_takes (hstep : ∀ s h, Takes 0 (step s h)) {s s' : σ}
    (hrun : untilZero step ended spent fuel s b = .ok (s', rest)) :
    ∃ pre, b = pre ++ rest ∧ 1 ≤ pre.length ∧ ∀ r fuel', pre.length ≤ fuel' →
      untilZero step ended spent fuel' s (pre ++ r) = .ok (s', r) := by
  induction fuel generalizing s b with
  | zero => cases hrun
  | succ fuel ih =>
    obtain ⟨k, h, b', hk, rfl, hcase⟩ := untilZero_eq_ok.1 hrun
    obtain rfl := succ.inj hk
    rcases hcase with ⟨hh, rfl, rfl⟩ | ⟨hh, t, mid, hs, hrest⟩
    · refine ⟨[h], rfl, le_refl 1, ?_⟩
      intro r fuel' hfuel
      obtain ⟨k', rfl⟩ := exists_eq_succ_of_ne_zero (ne_of_gt hfuel)
      exact untilZero_eq_ok.2 ⟨k', h, r, rfl, rfl, .inl ⟨hh, rfl, rfl⟩⟩
    obtain ⟨pre, rfl, -, hall⟩ := hstep s h hs
    obtain ⟨pre', rfl, -, hall'⟩ := ih hrest
    refine ⟨h :: (pre ++ pre'), by rw [cons_append, append_assoc], succ_le_succ (zero_le _), ?_⟩
    intro r fuel' hfuel
    rw [length_cons, length_append] at hfuel
    obtain ⟨k', rfl⟩ := exists_eq_succ_of_ne_zero (by omega : fuel' ≠ 0)
    refine untilZero_eq_ok.2
      ⟨k', h, pre ++ (pre' ++ r), rfl, ?_, .inr ⟨hh, t, pre' ++ r, hall _, ?_⟩⟩
    · rw [cons_append, append_assoc]
    · exact hall' r k' (by omega)

/-- The loop over an input, with the fuel it can need. -/
def loop (step : σ → UInt8 → Parser ε σ) (ended spent : ε) (s : σ) : Parser ε σ :=
  fun b => untilZero step ended spent (b.length + 1) s b

theorem takes_loop (hstep : ∀ s h, Takes 0 (step s h)) (s : σ) :
    Takes 1 (loop step ended spent s) := by
  intro b s' rest h
  obtain ⟨pre, hpre, hlen, hall⟩ := untilZero_takes hstep h
  refine ⟨pre, hpre, hlen, ?_⟩
  intro r
  refine hall r _ ?_
  rw [length_append]
  omega

/-- One round: the loop goes on behind it. -/
theorem loop_cons (hstep : ∀ s h, Takes 0 (step s h)) {s t s' : σ} {h : UInt8} (hh : h ≠ 0)
    {mid : Bytes} (hs : step s h b = .ok (t, mid))
    (hrun : loop step ended spent t mid = .ok (s', rest)) :
    loop step ended spent s (h :: b) = .ok (s', rest) := by
  obtain ⟨pre, rfl, -, hall⟩ := untilZero_takes hstep hrun
  have hlen := (hstep s h).length_le hs
  rw [length_append] at hlen
  refine untilZero_eq_ok.2 ⟨_, h, b, rfl, rfl, .inr ⟨hh, t, _, hs, hall _ _ ?_⟩⟩
  rw [length_cons]
  omega

theorem loop_zero (s : σ) (b : Bytes) : loop step ended spent s (0 :: b) = .ok (s, b) :=
  untilZero_eq_ok.2 ⟨_, 0, b, rfl, rfl, .inl ⟨rfl, rfl, rfl⟩⟩

/-- **Two loops that go round together**: what each round keeps between
their states is there at the end. -/
theorem loop_sim {step' : τ → UInt8 → Parser ε τ} {ended' spent' : ε} {R : σ → τ → Prop}
    (hstep : ∀ s t h b s' mid, R s t → step s h b = .ok (s', mid) →
      ∃ t', step' t h b = .ok (t', mid) ∧ R s' t')
    {s s' : σ} {t : τ} (hR : R s t) (h : loop step ended spent s b = .ok (s', rest)) :
    ∃ t', loop step' ended' spent' t b = .ok (t', rest) ∧ R s' t' := by
  rw [loop] at h
  rw [loop]
  generalize b.length + 1 = fuel at h
  induction fuel generalizing s t b with
  | zero => cases h
  | succ fuel ih =>
    obtain ⟨k, c, b', hk, rfl, hcase⟩ := untilZero_eq_ok.1 h
    obtain rfl := succ.inj hk
    rcases hcase with ⟨hc, rfl, rfl⟩ | ⟨hc, u, mid, hs, hrest⟩
    · exact ⟨t, untilZero_eq_ok.2 ⟨fuel, c, rest, rfl, rfl, .inl ⟨hc, rfl, rfl⟩⟩, hR⟩
    · obtain ⟨u', hs', hR'⟩ := hstep s t c b' u mid hR hs
      obtain ⟨t', hrest', hR''⟩ := ih hR' hrest
      exact ⟨t', untilZero_eq_ok.2 ⟨fuel, c, b', rfl, rfl, .inr ⟨hc, u', mid, hs', hrest'⟩⟩, hR''⟩

/-- A loop in step with two others: where both of them get through, so does
the third. -/
theorem loop_sync {ρ : Type} {step₁ : ρ → UInt8 → Parser ε ρ} {step' : τ → UInt8 → Parser ε τ}
    {ended₁ spent₁ ended' spent' : ε} {R : σ → τ → Prop}
    (hstep : ∀ s u t h b s' u' mid mid', R s t → step s h b = .ok (s', mid) →
      step₁ u h b = .ok (u', mid') → mid = mid' ∧ ∃ t', step' t h b = .ok (t', mid) ∧ R s' t')
    {s s' : σ} {u u' : ρ} {t : τ} (hR : R s t) (h : loop step ended spent s b = .ok (s', rest))
    (h₁ : loop step₁ ended₁ spent₁ u b = .ok (u', rest')) :
    ∃ t', loop step' ended' spent' t b = .ok (t', rest) ∧ R s' t' := by
  rw [loop] at h h₁ ⊢
  generalize b.length + 1 = fuel at h h₁ ⊢
  induction fuel generalizing s u t b with
  | zero => cases h
  | succ fuel ih =>
    obtain ⟨k, c, b', hk, rfl, hcase⟩ := untilZero_eq_ok.1 h
    obtain rfl := succ.inj hk
    obtain ⟨k₁, c₁, b₁, hk₁, hb₁, hcase₁⟩ := untilZero_eq_ok.1 h₁
    obtain rfl := succ.inj hk₁
    cases hb₁
    rcases hcase with ⟨hc, rfl, rfl⟩ | ⟨hc, s₁, mid, hs, hrest⟩
    · exact ⟨t, untilZero_eq_ok.2 ⟨fuel, c, rest, rfl, rfl, .inl ⟨hc, rfl, rfl⟩⟩, hR⟩
    rcases hcase₁ with ⟨hc₁, -⟩ | ⟨-, u₁, mid₁, hu, hrest₁⟩
    · exact absurd hc₁ hc
    · obtain ⟨rfl, t₁, ht, hR₁⟩ := hstep s u t c b' s₁ u₁ mid mid₁ hR hs hu
      obtain ⟨t', hrest', hR'⟩ := ih hR₁ hrest hrest₁
      exact ⟨t', untilZero_eq_ok.2 ⟨fuel, c, b', rfl, rfl, .inr ⟨hc, t₁, mid, ht, hrest'⟩⟩, hR'⟩

end UntilZero

/-! ## The loop to the end of the input -/

/-- Rounds of `step` until nothing is left: `spent` is for the end of the
fuel. -/
def untilEnd (step : σ → Parser ε σ) (spent : ε) : ℕ → σ → Bytes → Except ε σ
  | _, s, [] => .ok s
  | 0, _, _ :: _ => .error spent
  | fuel + 1, s, c :: b => do
      let (s, rest) ← step s (c :: b)
      untilEnd step spent fuel s rest

/-- The loop over an input, with the fuel it can need. -/
def toEnd (step : σ → Parser ε σ) (spent : ε) (s : σ) (b : Bytes) : Except ε σ :=
  untilEnd step spent b.length s b

/-- A parser that takes something. -/
def Shrinks (p : Parser ε α) : Prop := ∀ ⦃b a rest⦄, p b = .ok (a, rest) → rest.length < b.length

theorem Takes.shrinks {p : Parser ε α} (hp : Takes (m + 1) p) : Shrinks p := by
  intro b a rest h
  have hlen := hp.length_le h
  omega

section ToEnd

variable {step : σ → Parser ε σ} {spent : ε}

theorem untilEnd_of_le (hstep : ∀ s, Shrinks (step s)) {s : σ} (h : b.length ≤ fuel) :
    untilEnd step spent fuel s b = toEnd step spent s b := by
  rw [toEnd]
  generalize hk : b.length = k at h
  replace hk := le_of_eq hk
  induction k generalizing fuel s b with
  | zero =>
    obtain rfl := eq_nil_of_length_eq_zero (le_zero.1 hk)
    cases fuel <;> rfl
  | succ k ih =>
    obtain ⟨fuel, rfl⟩ := exists_eq_succ_of_ne_zero (ne_of_gt (lt_of_lt_of_le (succ_pos k) h))
    cases b with
    | nil => rfl
    | cons c b =>
      rw [untilEnd, untilEnd]
      cases hs : step s (c :: b) with
      | error e => rfl
      | ok x =>
        have hlt := hstep s hs
        exact ih (le_of_succ_le_succ h) (by omega)

/-- One round: the loop goes on behind it. -/
theorem toEnd_of_ne (hstep : ∀ s, Shrinks (step s)) (s : σ) (hb : b ≠ []) :
    toEnd step spent s b = step s b >>= fun x => toEnd step spent x.1 x.2 := by
  cases b with
  | nil => exact absurd rfl hb
  | cons c b =>
    rw [toEnd, length_cons, untilEnd]
    cases hs : step s (c :: b) with
    | error e => rfl
    | ok x =>
      have hlt := hstep s hs
      rw [length_cons] at hlt
      exact untilEnd_of_le hstep (by omega)

end ToEnd

/-- The input is read by `p`, again and again, to the end. -/
inductive Reads (p : Parser ε α) : Bytes → List α → Prop
  | nil : Reads p [] []
  | cons {b rest : Bytes} {a : α} {as : List α} (ha : p b = .ok (a, rest))
      (has : Reads p rest as) : Reads p b (a :: as)

section Reads

variable {p : Parser ε α}

theorem Takes.ne_nil (hp : Takes (m + 1) p) {a : α} (h : p b = .ok (a, rest)) : b ≠ [] := by
  rintro rfl
  have hlen := hp.length_le h
  rw [length_nil] at hlen
  omega

theorem Reads.exists_of_mem {as : List α} (h : Reads p b as) {a : α} (ha : a ∈ as) :
    ∃ b' rest, p b' = .ok (a, rest) := by
  induction h with
  | nil => cases ha
  | cons hx _ ih =>
    rcases mem_cons.1 ha with rfl | ha
    · exact ⟨_, _, hx⟩
    · exact ih ha

/-- **One input behind another** is read as both are. -/
theorem Reads.append_iff (hp : Takes 1 p) {a : Bytes} {as es : List α} (ha : Reads p a as) :
    Reads p (a ++ b) es ↔ ∃ bs, Reads p b bs ∧ es = as ++ bs := by
  induction ha generalizing es with
  | nil =>
    constructor
    · exact fun h => ⟨es, h, rfl⟩
    · rintro ⟨bs, h, rfl⟩
      exact h
  | @cons a rest x as hx _ ih =>
    obtain ⟨pre, rfl, -, hall⟩ := hp hx
    have hx' : p (pre ++ rest ++ b) = .ok (x, rest ++ b) := by rw [append_assoc]; exact hall _
    constructor
    · intro h
      generalize hin : pre ++ rest ++ b = input at h
      cases h with
      | nil => exact absurd hin (hp.ne_nil hx')
      | cons hy hrest =>
        rw [← hin, hx'] at hy
        cases hy
        obtain ⟨bs, hbs, rfl⟩ := ih.1 hrest
        exact ⟨bs, hbs, rfl⟩
    · rintro ⟨bs, hbs, rfl⟩
      exact .cons hx' (ih.2 ⟨bs, hbs, rfl⟩)

theorem Reads.unique (hp : Takes 1 p) {as bs : List α} (has : Reads p b as)
    (hbs : Reads p b bs) : bs = as := by
  rw [← append_nil b] at hbs
  obtain ⟨cs, hcs, rfl⟩ := (has.append_iff hp).1 hbs
  cases hcs with
  | nil => rw [append_nil]
  | cons hc _ => exact absurd rfl (hp.ne_nil hc)

/-- **A loop that reads and then acts**: its rounds are those of the reads,
each acted on in turn. -/
theorem toEnd_eq_ok {f : σ → α → Option σ} {step : σ → Parser ε σ} {spent : ε} (hp : Takes 1 p)
    (hstep : ∀ s b s' rest, step s b = .ok (s', rest) ↔
      ∃ a, p b = .ok (a, rest) ∧ f s a = some s') {s s' : σ} :
    toEnd step spent s b = .ok s' ↔ ∃ as, Reads p b as ∧ as.foldlM f s = some s' := by
  have hshrinks : ∀ s, Shrinks (step s) := by
    intro s b s' rest h
    obtain ⟨a, ha, -⟩ := (hstep s b s' rest).1 h
    exact hp.shrinks ha
  constructor
  · intro h
    generalize hk : b.length = k
    induction k using Nat.strongRecOn generalizing s b with
    | ind k ih =>
      by_cases hb : b = []
      · subst hb
        cases h
        exact ⟨[], .nil, rfl⟩
      rw [toEnd_of_ne hshrinks s hb] at h
      obtain ⟨⟨t, rest⟩, ht, h⟩ := bind_eq_ok.1 h
      obtain ⟨a, ha, hf⟩ := (hstep s b t rest).1 ht
      obtain ⟨as, has, hfold⟩ := ih rest.length (hk ▸ hp.shrinks ha) h rfl
      refine ⟨a :: as, .cons ha has, ?_⟩
      rw [foldlM_cons, hf]
      exact hfold
  · rintro ⟨as, has, hfold⟩
    induction has generalizing s with
    | nil =>
      cases hfold
      rfl
    | cons ha _ ih =>
      obtain ⟨t, ht, hfold⟩ := Option.bind_eq_some_iff.1 hfold
      rw [toEnd_of_ne hshrinks s (hp.ne_nil ha), (hstep _ _ _ _).2 ⟨_, ha, ht⟩]
      exact ih hfold

end Reads

end Parser

end Nanom
