import Nanom.Decode.Visit
import Nanom.Common.Run
/-!
# Buffer release is safe

The pins of a token bound from above the spans that carry it (`Accounted`), so a
token whose last pin goes has no span left. Within a call the pins change in
three places, each read off the tokens it drops: `unpinAll` takes away as many
pins as the token occurs, and frees it where that is all of them. A call's own
token has no pin when the call begins.
-/

namespace Nanom.Decode

open Wire Defrag ReassemblyTable List Option

variable {k n : ℕ} {evicted retired : List Token}

/-! ## Pins -/

/-- The pins on a token. -/
def pinned (pins : Assoc Token ℕ) (T : Token) : ℕ := (pins.find? T).getD 0

/-- Pins are on tracked tokens, and none is left at zero or near the width
of its counter. -/
def PinsOk (pins : Assoc Token ℕ) : Prop :=
  ∀ T n, pins.find? T = some n → T ≠ kNoToken ∧ 1 ≤ n ∧ n < 2 ^ 32

variable {pins : Assoc Token ℕ} {t T : Token}

theorem pinned_eq_zero_iff (h : PinsOk pins) : pinned pins T = 0 ↔ pins.find? T = none := by
  unfold pinned
  rcases hf : pins.find? T with - | n
  · simp
  · have := (h T n hf).2.1
    simp only [getD_some, reduceCtorEq, iff_false]
    omega

theorem pinned_kNoToken (h : PinsOk pins) : pinned pins kNoToken = 0 := by
  rw [pinned_eq_zero_iff h]
  rcases hf : pins.find? kNoToken with - | n
  · rfl
  · exact absurd rfl (h _ n hf).1

theorem unpin_of_none (h : pins.find? t = none) : unpin pins t = (pins, []) := by
  unfold unpin
  split
  · rfl
  · rw [h]

theorem unpin_of_some (hok : PinsOk pins) (h : pins.find? t = some n) :
    unpin pins t = if n = 1 then (pins.erase t, [t]) else (pins.modify t fun _ => n - 1, []) := by
  obtain ⟨ht, hpos, hlt⟩ := hok t n h
  have hleft : u32 (n + (2 ^ 32 - 1)) = n - 1 := by unfold u32; omega
  unfold unpin
  rw [if_neg ht, h]
  dsimp only
  rw [hleft]
  by_cases h1 : n = 1
  · rw [if_pos h1, if_pos (by omega)]
  · rw [if_neg h1, if_neg (by omega)]

/-- **One pin less**, on the token unpinned, freed where it was the
last. -/
theorem unpin_spec (hok : PinsOk pins) : PinsOk (unpin pins t).1 ∧
    (∀ T, pinned (unpin pins t).1 T = if T = t then pinned pins t - 1 else pinned pins T) ∧
    ∀ T, (unpin pins t).2.count T = if T = t ∧ pinned pins t = 1 then 1 else 0 := by
  rcases hf : pins.find? t with - | n
  · have h0 : pinned pins t = 0 := by rw [pinned, hf]; rfl
    rw [unpin_of_none hf, h0]
    refine ⟨hok, fun T => ?_, fun T => by simp⟩
    split
    · rename_i hT; rw [hT, h0]
    · rfl
  have hn : pinned pins t = n := by rw [pinned, hf]; rfl
  obtain ⟨ht, hpos, hlt⟩ := hok t n hf
  rw [unpin_of_some hok hf, hn]
  by_cases h1 : n = 1
  · rw [if_pos h1]
    refine ⟨fun T m hm => ?_, fun T => ?_, fun T => ?_⟩
    · rw [Assoc.find?_erase] at hm
      split at hm
      · cases hm
      · exact hok T m hm
    · rw [pinned, Assoc.find?_erase]
      split
      · rw [h1]; rfl
      · rfl
    · rw [count_singleton]
      by_cases hT : t = T
      · subst hT
        simp [h1]
      · rw [if_neg (by simpa using hT), if_neg fun h => hT h.1.symm]
  · rw [if_neg h1]
    refine ⟨fun T m hm => ?_, fun T => ?_, fun T => ?_⟩
    · rw [Assoc.find?_modify] at hm
      split at hm
      · rename_i hT
        rw [hf, map_some, some.injEq] at hm
        exact ⟨hT ▸ ht, by omega, by omega⟩
      · exact hok T m hm
    · rw [pinned, Assoc.find?_modify, hf]
      split <;> rfl
    · simp [h1]

/-- **As many pins less as the token occurs**; a token is freed, once,
where these are all its pins. -/
theorem unpinAll_spec (ts : List Token) (hok : PinsOk pins) : PinsOk (unpinAll pins ts).1 ∧
    (∀ T, pinned (unpinAll pins ts).1 T = pinned pins T - ts.count T) ∧
    ∀ T, (unpinAll pins ts).2.count T
      = if 1 ≤ pinned pins T ∧ pinned pins T ≤ ts.count T then 1 else 0 := by
  induction ts generalizing pins with
  | nil =>
    refine ⟨hok, fun T => rfl, fun T => ?_⟩
    rw [if_neg (by rw [count_nil]; omega)]
    rfl
  | cons t ts ih =>
    obtain ⟨hok', hpin, hfreed⟩ := unpin_spec hok
    obtain ⟨hok'', hpin', hfreed'⟩ := ih hok'
    refine ⟨hok'', fun T => ?_, fun T => ?_⟩
    · change pinned (unpinAll (unpin pins t).1 ts).1 T = _
      rw [hpin', hpin, count_cons]
      by_cases hT : t = T
      · subst hT
        simp only [if_true, beq_self_eq_true]
        omega
      · rw [if_neg (Ne.symm hT), if_neg (by simpa using hT), add_zero]
    · change ((unpin pins t).2 ++ (unpinAll (unpin pins t).1 ts).2).count T = _
      rw [count_append, hfreed, hfreed', hpin, count_cons]
      by_cases hT : t = T
      · subst hT
        simp only [if_true, beq_self_eq_true, true_and]
        split <;> split <;> split <;> omega
      · rw [if_neg (fun h => hT h.1.symm), if_neg (Ne.symm hT),
          if_neg (by simpa using hT : ¬ (t == T) = true), zero_add, add_zero]

theorem addPins_spec (hok : PinsOk pins) (ht : t ≠ kNoToken) (hn : 1 ≤ n)
    (hlt : pinned pins t + n < 2 ^ 32) : PinsOk (addPins pins t n) ∧
    ∀ T, pinned (addPins pins t n) T = if T = t then pinned pins t + n else pinned pins T := by
  have hfind : ∀ T, (addPins pins t n).find? T =
      if T = t then some (pinned pins t + n) else pins.find? T := by
    intro T
    rw [addPins, Assoc.find?_modify, Assoc.find?_emplace, Assoc.find?_emplace, if_pos rfl]
    split
    · exact congrArg some (u32_of_lt hlt)
    · rfl
  refine ⟨fun T m hm => ?_, fun T => ?_⟩
  · rw [hfind] at hm
    split at hm
    · rename_i hT
      cases hm
      exact ⟨hT ▸ ht, by omega, hlt⟩
    · exact hok T m hm
  · rw [pinned, hfind]
    split <;> rfl

theorem count_releaseOwnToken (released : List Token) (t T : Token) :
    (releaseOwnToken released t).count T =
      if t ≠ kNoToken ∧ T = t ∧ released.count T = 0 then 1 else released.count T := by
  unfold releaseOwnToken
  by_cases ht : t = kNoToken
  · rw [if_pos ht, if_neg fun h => h.1 ht]
  rw [if_neg ht]
  by_cases hmem : t ∈ released
  · rw [if_pos hmem, if_neg]
    rintro ⟨-, rfl, h0⟩
    exact absurd hmem (count_eq_zero.1 h0)
  rw [if_neg hmem, count_append, count_singleton]
  by_cases hT : T = t
  · subst hT
    have h0 := count_eq_zero.2 hmem
    simp [ht, h0]
  · rw [if_neg (by simpa using Ne.symm hT), if_neg fun h => hT h.2.1, add_zero]

/-! ## One call -/

/-- The token a call is made with. -/
def Call.token : Call → Token
  | .epb _ _ token _ _ => token
  | .shb _ => kNoToken
  | .idb _ _ _ => kNoToken

namespace Session

variable {σ : ComparisonSort} {opts : DecodeOptions} {s : Session} {token : Token}

/-- The pins of a session bound its spans. -/
structure Accounted (s : Session) : Prop where
  ok : PinsOk s.pins
  held_le : ∀ T, T ≠ kNoToken → held T s.defrag ≤ pinned s.pins T

theorem accounted_init (opts : DecodeOptions) : Accounted (init opts) :=
  ⟨fun T n h => by simp [init] at h, fun T _ => Nat.zero_le _⟩

/-- The pins a packet adds: its own, if it is tracked. -/
def ownPins (token : Token) (k : ℕ) (T : Token) : ℕ :=
  if token ≠ kNoToken ∧ token = T then k else 0

theorem ownPins_self (k : ℕ) (h : token ≠ kNoToken) : ownPins token k token = k := if_pos ⟨h, rfl⟩

theorem ownPins_other (k : ℕ) (h : ¬ (token ≠ kNoToken ∧ token = T)) : ownPins token k T = 0 :=
  if_neg h

/-- The packet's own pins, added where it stored a span under a tracked
token. -/
theorem addOwn_spec (hok : PinsOk pins) (hfresh : token ≠ kNoToken → pinned pins token = 0)
    (hk : k < 2 ^ 32) :
    PinsOk (if k ≠ 0 ∧ token ≠ kNoToken then addPins pins token k else pins) ∧
    ∀ T, pinned (if k ≠ 0 ∧ token ≠ kNoToken then addPins pins token k else pins) T
      = pinned pins T + ownPins token k T := by
  by_cases hadds : k ≠ 0 ∧ token ≠ kNoToken
  · rw [if_pos hadds]
    have hzero := hfresh hadds.2
    obtain ⟨hok', hpin⟩ := addPins_spec hok hadds.2 (Nat.one_le_iff_ne_zero.2 hadds.1) (by omega)
    refine ⟨hok', fun T => ?_⟩
    rw [hpin]
    by_cases hT : T = token
    · rw [if_pos hT, hT, ownPins_self k hadds.2]
    · rw [if_neg hT, ownPins_other k fun h => hT h.2.symm, add_zero]
  · rw [if_neg hadds]
    refine ⟨hok, fun T => ?_⟩
    have hown : ownPins token k T = 0 := by
      unfold ownPins
      split
      · rename_i hT
        by_contra hk0
        exact hadds ⟨hk0, hT.1⟩
      · rfl
    rw [hown, add_zero]

/-- **The pins after a packet.** A token other than the packet's loses the
pins of the spans evicted and retired; the packet's own, which had none,
has those of the spans the packet stored, less those retired. -/
theorem settle_spec (hok : PinsOk s.pins)
    (hfresh : token ≠ kNoToken → pinned s.pins token = 0) (hk : k < 2 ^ 32)
    (evicted retired : List Token) :
    PinsOk (s.settle token k evicted retired).1 ∧
    (∀ T, pinned (s.settle token k evicted retired).1 T
      = pinned s.pins T - evicted.count T + ownPins token k T - retired.count T) ∧
    ∀ T, (s.settle token k evicted retired).2.count T
      = (if 1 ≤ pinned s.pins T ∧ pinned s.pins T ≤ evicted.count T then 1 else 0) +
        if 1 ≤ pinned s.pins T - evicted.count T + ownPins token k T ∧
          pinned s.pins T - evicted.count T + ownPins token k T ≤ retired.count T
          then 1 else 0 := by
  obtain ⟨hok₁, hpin₁, hfreed₁⟩ := unpinAll_spec evicted hok
  have hfresh₁ : token ≠ kNoToken → pinned (unpinAll s.pins evicted).1 token = 0 :=
    fun ht => by rw [hpin₁, hfresh ht, Nat.zero_sub]
  obtain ⟨hok₂, hpin₂⟩ := addOwn_spec hok₁ hfresh₁ hk
  obtain ⟨hok₃, hpin₃, hfreed₃⟩ := unpinAll_spec retired hok₂
  refine ⟨hok₃, fun T => ?_, fun T => ?_⟩
  · rw [← hpin₁ T, ← hpin₂ T]
    exact hpin₃ T
  · change ((unpinAll s.pins evicted).2 ++ _).count T = _
    rw [count_append, hfreed₁, hfreed₃, hpin₂, hpin₁]

section

variable (h : Accounted s) (hfresh : token ≠ kNoToken → pinned s.pins token = 0) (hk : k < 2 ^ 32)
include h hfresh hk

/-- Settling keeps the pins above the spans: `held'` counts what is stored
once `evicted` and `retired` are dropped. -/
theorem Accounted.settle_held {held' : Token → ℕ}
    (hheld : ∀ T, T ≠ kNoToken → held' T + evicted.count T + retired.count T
      = held T s.defrag + if token = T then k else 0) (hT : T ≠ kNoToken) :
    held' T ≤ pinned (s.settle token k evicted retired).1 T := by
  have hle := h.held_le T hT
  have hh := hheld T hT
  rw [(settle_spec h.ok hfresh hk evicted retired).2.1 T]
  by_cases hown : token = T
  · subst hown
    rw [if_pos rfl] at hh
    rw [ownPins_self k hT]
    omega
  · rw [if_neg hown] at hh
    omega

/-- Settling frees a token exactly where it takes its last pin away, the
packet's own where it is left without one. -/
theorem Accounted.settle_released {isPinned : Bool} (hpin : isPinned = true ↔ token ≠ kNoToken ∧
      0 < pinned (s.settle token k evicted retired).1 token) (T : Token) :
    (if isPinned then (s.settle token k evicted retired).2
      else releaseOwnToken (s.settle token k evicted retired).2 token).count T
        + min (pinned (s.settle token k evicted retired).1 T) 1
      = min (pinned s.pins T) 1 + ownPins token 1 T := by
  obtain ⟨-, hleft, hfreed⟩ := settle_spec h.ok hfresh hk evicted retired
  have hl := hleft T
  have hf := hfreed T
  by_cases hown : token ≠ kNoToken ∧ token = T
  · -- the packet's own token: it had no pin, and has those of its spans not retired
    obtain ⟨hne, rfl⟩ := hown
    have hz := hfresh hne
    rw [ownPins_self _ hne] at hl hf ⊢
    rw [if_neg (by omega), hz, Nat.zero_sub, zero_add, zero_add] at hf
    cases isPinned with
    | true =>
      have := (hpin.1 rfl).2
      rw [if_pos rfl, hf]
      split <;> omega
    | false =>
      have hnot : ¬ 0 < pinned (s.settle token k evicted retired).1 token :=
        fun hpos => Bool.false_ne_true (hpin.2 ⟨hne, hpos⟩)
      rw [if_neg Bool.false_ne_true, count_releaseOwnToken, hf]
      by_cases hk0 : 1 ≤ k ∧ k ≤ retired.count token
      · rw [if_pos hk0, if_neg (by omega)]
        omega
      · rw [if_neg hk0, if_pos ⟨hne, rfl, rfl⟩]
        omega
  · -- any other: what is dropped of it was stored, and so pinned, before
    have hcount : (if isPinned then (s.settle token k evicted retired).2
        else releaseOwnToken (s.settle token k evicted retired).2 token).count T
          = (s.settle token k evicted retired).2.count T := by
      split
      · rfl
      · rw [count_releaseOwnToken, if_neg fun hn => hown ⟨hn.1, hn.2.1.symm⟩]
    rw [ownPins_other _ hown] at hl hf ⊢
    rw [hcount, hf]
    split <;> split <;> omega

end

theorem walked_accounts (opts : DecodeOptions) (b : Block) (token : Token) (e : EpbView) :
    (s.walked σ opts b token e).pinsAdded ≤ 64 ∧
    ∀ T, T ≠ kNoToken →
      held T (s.walked σ opts b token e).defrag + (s.walked σ opts b token e).retired.count T
        = held T s.defrag + if token = T then (s.walked σ opts b token e).pinsAdded else 0 := by
  unfold walked
  split
  · rename_i pkt _
    obtain ⟨k, hk, hpins, htok⟩ := Visitor.walk_accounts σ
      ⟨token, s.tracking || decide (token ≠ kNoToken), opts.decodeDefrag⟩ (s.visitor e pkt)
      (walkPacketExt (s.linkType e) pkt).1
    have h64 := countP_feeds_walk (s.linkType e) pkt
    have hcount : (s.walkPacket σ opts token e pkt).pinsAdded = k := by
      have h0 : (s.visitor e pkt).pinCount = 0 := rfl
      exact (hpins (by omega)).trans (by omega)
    rw [hcount]
    refine ⟨by omega, fun T hT => (htok T hT).trans ?_⟩
    change held T s.defrag + ([] : List Token).count T + _ = _
    rw [count_nil, add_zero]
  · exact ⟨Nat.zero_le _, fun T _ => by rw [ite_self]; rfl⟩

/-- The tokens of the spans aged out after a packet. -/
def evictedTokens (s : Session) (d : DefragState) : List Token :=
  ((d.ipv4.evictStale s.pid).2 ++ (d.ipv6.evictStale s.pid).2).flatMap ReassemblySummary.tokens

/-- **What feeding a packet block does to the buffers.** A malformed block
is released at once. Otherwise the packet stores `k` spans under its
token, `evicted` and `retired` are the tokens of the spans it drops, and
the pins follow. -/
theorem feedEpb_cases (opts : DecodeOptions) (b : Block) (little : Bool) (token : Token)
    (kind : Kind) (fileOffset : ℕ) : let out := s.feedEpb σ opts b little token kind fileOffset
    (out.1.pins = s.pins ∧ out.1.defrag = s.defrag ∧
      out.2.1 = { released := releaseOwnToken [] token }) ∨
    ∃ e, parseEpb b (u32 b.bytes.length) kind little = some e ∧
      ∃ k ≤ 64, ∃ evicted retired : List Token,
      evicted = s.evictedTokens (s.walked σ opts b token e).defrag ∧
      out.1.defrag = ⟨((s.walked σ opts b token e).defrag.ipv4.evictStale s.pid).1,
        ((s.walked σ opts b token e).defrag.ipv6.evictStale s.pid).1⟩ ∧
      out.1.pins = (s.settle token k evicted retired).1 ∧
      out.2.1.pinned = (decide (token ≠ kNoToken) && (out.1.pins.find? token).isSome) ∧
      out.2.1.released = (if out.2.1.pinned then (s.settle token k evicted retired).2
        else releaseOwnToken (s.settle token k evicted retired).2 token) ∧
      ∀ T, T ≠ kNoToken → held T out.1.defrag + evicted.count T + retired.count T
        = held T s.defrag + if token = T then k else 0 := by
  unfold feedEpb
  split
  · exact Or.inl ⟨rfl, rfl, rfl⟩
  rename_i e he
  obtain ⟨h64, htok⟩ := walked_accounts opts b token e
  refine Or.inr ⟨e, he, _, h64, _, _, rfl, rfl, rfl, rfl, rfl, fun T hT => ?_⟩
  have hw := htok T hT
  set w := s.walked σ opts b token e
  have h4 := tokenCount_evictStale (t := w.defrag.ipv4) s.pid hT
  have h6 := tokenCount_evictStale (t := w.defrag.ipv6) s.pid hT
  rw [evictedTokens, flatMap_append, count_append]
  unfold held at hw ⊢
  dsimp only
  omega

/-- **One packet block**, fed under a token that has no pin. -/
theorem Accounted.feedEpb (h : Accounted s) (opts : DecodeOptions) (b : Block) (little : Bool)
    (kind : Kind) (fileOffset : ℕ) (hfresh : token ≠ kNoToken → pinned s.pins token = 0) :
    let out := s.feedEpb σ opts b little token kind fileOffset
    Accounted out.1 ∧
    (out.2.1.pinned = true ↔ token ≠ kNoToken ∧ 0 < pinned out.1.pins token) ∧
    ∀ T, out.2.1.released.count T + min (pinned out.1.pins T) 1
      = min (pinned s.pins T) 1 + ownPins token 1 T := by
  dsimp only
  rcases feedEpb_cases (s := s) opts b little token kind fileOffset with
    ⟨hpins, hdefrag, hres⟩ | ⟨e, -, k, hk, evicted, retired, -, -, hpins, hpin, hrel, hheld⟩
  · refine ⟨⟨hpins ▸ h.ok, fun T hT => by rw [hdefrag, hpins]; exact h.held_le T hT⟩, ?_, ?_⟩
    · rw [hres, hpins]
      constructor
      · intro hp
        cases hp
      · rintro ⟨ht, hpos⟩
        rw [hfresh ht] at hpos
        cases hpos
    · intro T
      rw [hres, hpins, count_releaseOwnToken, count_nil, add_comm]
      by_cases hT : token ≠ kNoToken ∧ token = T
      · obtain ⟨hne, rfl⟩ := hT
        rw [ownPins_self 1 hne, if_pos ⟨hne, rfl, rfl⟩]
      · rw [ownPins_other 1 hT, if_neg fun hh => hT ⟨hh.1, hh.2.1.symm⟩]
  · have hk' : k < 2 ^ 32 := by omega
    have hok := (settle_spec h.ok hfresh hk' evicted retired).1
    have hiff : (s.feedEpb σ opts b little token kind fileOffset).2.1.pinned = true ↔
        token ≠ kNoToken ∧ 0 < pinned (s.settle token k evicted retired).1 token := by
      rw [hpin, hpins, Bool.and_eq_true, decide_eq_true_eq, Nat.pos_iff_ne_zero]
      refine and_congr_right fun _ => ?_
      rw [Ne, pinned_eq_zero_iff hok, isSome_iff_ne_none]
    rw [hrel, hpins]
    exact ⟨⟨hpins ▸ hok, fun T hT => hpins ▸ h.settle_held hfresh hk' hheld hT⟩, hiff,
      fun T => h.settle_released hfresh hk' hiff T⟩

/-! ## Runs -/

/-- The session after a run from the start. -/
abbrev after (σ : ComparisonSort) (opts : DecodeOptions) (calls : List Call) : Session :=
  Run.after (step σ opts) (init opts) calls

/-- Each tracked token is fed while it has no pin. -/
abbrev FreshTokens (σ : ComparisonSort) (opts : DecodeOptions) (calls : List Call) : Prop :=
  Run.Along (step σ opts) (fun s c => c.token ≠ kNoToken → s.pins.find? c.token = none)
    (init opts) calls

/-- The tokens a run releases, call by call. -/
def releasedBy (σ : ComparisonSort) (opts : DecodeOptions) (s : Session) : List Call → List Token
  | [] => []
  | c :: cs => (s.feed σ opts c).2.1.released ++ releasedBy σ opts (s.step σ opts c) cs

theorem feedIdb_pins (b : Block) (little : Bool) (declaredLength : ℕ) :
    (s.feedIdb b little declaredLength).pins = s.pins ∧
    (s.feedIdb b little declaredLength).defrag = s.defrag := by
  unfold feedIdb
  dsimp only
  split <;> exact ⟨rfl, rfl⟩

/-- **One call**, made with a token that has no pin. -/
theorem Accounted.feed (h : Accounted s) (opts : DecodeOptions) (c : Call)
    (hfresh : c.token ≠ kNoToken → s.pins.find? c.token = none) :
    Accounted (s.step σ opts c) ∧
    ∀ T, (s.feed σ opts c).2.1.released.count T + min (pinned (s.step σ opts c).pins T) 1
      = min (pinned s.pins T) 1 + ownPins c.token 1 T := by
  have hskip : ∀ s' : Session, s'.pins = s.pins → s'.defrag = s.defrag → Accounted s' ∧
      ∀ T, ([] : List Token).count T + min (pinned s'.pins T) 1
        = min (pinned s.pins T) 1 + ownPins kNoToken 1 T := by
    intro s' hp hd
    refine ⟨⟨hp ▸ h.ok, fun T hT => by rw [hd, hp]; exact h.held_le T hT⟩, fun T => ?_⟩
    rw [hp, count_nil, ownPins_other 1 fun hn => hn.1 rfl, zero_add, add_zero]
  cases c with
  | shb b => exact hskip _ rfl rfl
  | idb b little declaredLength =>
    obtain ⟨hp, hd⟩ := feedIdb_pins b little declaredLength
    exact hskip _ hp hd
  | epb b little token kind fileOffset =>
    obtain ⟨hacc, -, hcount⟩ := h.feedEpb opts b little kind fileOffset
      fun ht => (pinned_eq_zero_iff h.ok).2 (hfresh ht)
    exact ⟨hacc, hcount⟩

theorem accounted_after {calls : List Call} (hfresh : FreshTokens σ opts calls) :
    Accounted (after σ opts calls) :=
  Run.inv (fun _ c h hf => (h.feed opts c hf).1) (accounted_init opts) hfresh

/-- Over a run a tracked token is fed as often as it is released, and once
more while it is pinned. -/
theorem count_releasedBy (calls : List Call) (h : Accounted s) (hfresh : Run.Along (step σ opts)
      (fun s c => c.token ≠ kNoToken → s.pins.find? c.token = none) s calls) (T : Token) :
    (releasedBy σ opts s calls).count T + min (pinned (Run.after (step σ opts) s calls).pins T) 1
      = min (pinned s.pins T) 1 + (calls.map fun c => ownPins c.token 1 T).sum := by
  induction calls generalizing s with
  | nil => rw [releasedBy, count_nil, zero_add]; rfl
  | cons c cs ih =>
    obtain ⟨hacc, hcount⟩ := h.feed opts c hfresh.1
    have hrest := ih hacc hfresh.2
    have hc := hcount T
    rw [releasedBy, count_append, map_cons, sum_cons, Run.after_cons]
    omega

theorem sum_ownPins (calls : List Call) (hT : T ≠ kNoToken) :
    (calls.map fun c => ownPins c.token 1 T).sum = calls.countP fun c => c.token = T := by
  induction calls with
  | nil => rfl
  | cons c cs ih =>
    rw [map_cons, sum_cons, countP_cons, add_comm, ih]
    by_cases hc : c.token = T
    · rw [if_pos (decide_eq_true hc), hc, ownPins_self 1 hT]
    · rw [if_neg (by simpa using hc), ownPins_other 1 fun hn => hc hn.2]

theorem Accounted.no_span (h : Accounted s) (hT : T ≠ kNoToken) (h0 : pinned s.pins T = 0) :
    ∀ f ∈ s.defrag.ipv4.spans ++ s.defrag.ipv6.spans, f.token ≠ T := by
  have hheld := h.held_le T hT
  rw [held, ← tokenCount_append] at hheld
  have hzero : tokenCount T (s.defrag.ipv4.spans ++ s.defrag.ipv6.spans) = 0 := by omega
  intro f hf htok
  exact count_eq_zero.1 hzero (htok ▸ mem_map_of_mem hf)

theorem Accounted.pinned_or_released (h : Accounted s) (b : Block) (little : Bool) (kind : Kind)
    (fileOffset : ℕ) (h0 : pinned s.pins token = 0) (ht : token ≠ kNoToken) :
    (s.feedEpb σ opts b little token kind fileOffset).2.1.pinned = false ↔
      token ∈ (s.feedEpb σ opts b little token kind fileOffset).2.1.released := by
  obtain ⟨-, hpin, hcount⟩ := h.feedEpb opts b little kind fileOffset
    fun _ => h0
  have hown := hcount token
  rw [ownPins_self 1 ht] at hown
  rw [← Bool.not_eq_true, hpin, ← count_pos_iff]
  constructor
  · intro hnot
    have hzero := Nat.eq_zero_of_not_pos fun hp => hnot ⟨ht, hp⟩
    omega
  · omega

/-- **Buffer release is safe** where each tracked token is fed while it is not
pinned. A released token is tracked and on no stored span of either table; up to
any call a token has been released at most as often as fed; and a packet block's
own tracked token is pinned or released, never both. -/
theorem release_safe (σ : ComparisonSort) (opts : DecodeOptions) (calls : List Call)
    (hfresh : FreshTokens σ opts calls) (pre : List Call) (c : Call) (post : List Call)
    (hcalls : calls = pre ++ c :: post) : let out := (after σ opts pre).feed σ opts c
    (∀ T ∈ out.2.1.released, T ≠ kNoToken ∧
      ∀ f ∈ out.1.defrag.ipv4.spans ++ out.1.defrag.ipv6.spans, f.token ≠ T) ∧
    (∀ T, T ≠ kNoToken → (releasedBy σ opts (init opts) (pre ++ [c])).count T
      ≤ (pre ++ [c]).countP fun c => c.token = T) ∧
    ∀ b little token kind fileOffset, c = .epb b little token kind fileOffset →
      token ≠ kNoToken → (out.2.1.pinned = false ↔ token ∈ out.2.1.released) := by
  have happ : calls = (pre ++ [c]) ++ post := by rw [hcalls]; simp
  rw [happ, FreshTokens, Run.along_append, Run.along_append] at hfresh
  obtain ⟨⟨hpre, hc, -⟩, -⟩ := hfresh
  have hacc := accounted_after hpre
  obtain ⟨hacc', hcount⟩ := hacc.feed (σ := σ) opts c hc
  have hz : c.token ≠ kNoToken → pinned (after σ opts pre).pins c.token = 0 :=
    fun ht => (pinned_eq_zero_iff hacc.ok).2 (hc ht)
  refine ⟨fun T hT => ?_, fun T hT => ?_, ?_⟩
  · have hT' := hcount T
    have hpos := count_pos_iff.2 hT
    have hne : T ≠ kNoToken := by
      rintro rfl
      rw [pinned_kNoToken hacc.ok, ownPins_other 1 fun hn => hn.1 hn.2] at hT'
      omega
    refine ⟨hne, hacc'.no_span hne ?_⟩
    by_cases hown : c.token ≠ kNoToken ∧ c.token = T
    · obtain ⟨ht, rfl⟩ := hown
      rw [ownPins_self 1 ht, hz ht] at hT'
      omega
    · rw [ownPins_other 1 hown] at hT'
      omega
  · have hrun := count_releasedBy (pre ++ [c]) (accounted_init opts)
      (Run.along_append.2 ⟨hpre, hc, trivial⟩) T
    have hsum := sum_ownPins (pre ++ [c]) hT
    have h0 : pinned (init opts).pins T = 0 := rfl
    omega
  · rintro b little token kind fileOffset rfl ht
    exact hacc.pinned_or_released b little kind fileOffset (hz ht) ht

/-! ## A fragment and its buffer -/

/-- The interface of the packet below: Ethernet. -/
def ethernetIdb : Block where
  bytes := [1, 0, 0, 0, 20, 0, 0, 0, 1, 0, 0, 0, 0, 0, 4, 0, 20, 0, 0, 0]
  past := fun _ => 0

/-- A packet block with the first of a UDP datagram's fragments. -/
def fragmentEpb : Block where
  bytes := [6, 0, 0, 0, 76, 0, 0, 0, 0, 0, 0, 0, 0, 0, 0, 0, 0, 0, 0, 0, 42, 0, 0, 0, 42, 0, 0, 0,
    2, 0, 0, 0, 0, 1, 2, 0, 0, 0, 0, 2, 8, 0,
    0x45, 0, 0, 28, 0, 7, 0x20, 0, 64, 17, 0, 0, 10, 0, 0, 1, 10, 0, 0, 2,
    0, 53, 0, 53, 0, 16, 0, 0, 0, 0, 76, 0, 0, 0]
  past := fun _ => 0

/-- The fragment is fed, and then again from another buffer. -/
def fragmentTwice : List Call :=
  [.idb ethernetIdb true 0, .epb fragmentEpb true 1 .epb 0, .epb fragmentEpb true 2 .epb 76]

theorem release_safe_fragmentTwice :
    FreshTokens .insertion {} fragmentTwice ∧
    let out := (after .insertion {} (fragmentTwice.take 2)).feed .insertion {}
      (.epb fragmentEpb true 2 .epb 76)
    out.2.1.pinned = true ∧ (out.2.1.pinned = false ↔ 2 ∈ out.2.1.released) := by
  have hfresh : FreshTokens .insertion {} fragmentTwice :=
    ⟨by decide, by decide, by decide, trivial⟩
  exact ⟨hfresh, by decide, (release_safe .insertion {} fragmentTwice hfresh
    (fragmentTwice.take 2) (.epb fragmentEpb true 2 .epb 76) [] rfl).2.2
      fragmentEpb true 2 .epb 76 rfl (by decide)⟩

end Session

end Nanom.Decode
