import Nanom.Columnar.Delta.RoundTrip

/-!
# Columnar pages — byte arrays

DELTA_LENGTH_BYTE_ARRAY is the lengths of the values and then their bytes;
DELTA_BYTE_ARRAY is the length of what each value shares with the one before
it, and then the rest of each. A part is found by what the one before has used.

A view is the bytes it shows. Views into the arena that front-coded values are
rebuilt in are offsets and lengths until it is complete.
-/

namespace Nanom.Columnar

open BitVec (ofNat)

open Loop List

/-! ## Writing -/

/-- A value the format has no length for. -/
def tooLong (values : List Bytes) : Bool := values.any fun v => int32Max < v.length

/-- `delta_length_encode`: what it returns, and the output. -/
def deltaLengthEncode (values : List Bytes) (out : Bytes) : Except Fault (Bool × Bytes) :=
  if tooLong values then return (false, out)
  else do
    let out ← deltaBinaryPackedEncode (values.map fun v => BitVec.ofNat 32 v.length) out
    return (true, out ++ values.flatten)

/-- How many bytes two values start with in common. -/
def sharedPrefix : Bytes → Bytes → ℕ
  | a :: as, b :: bs => if a = b then sharedPrefix as bs + 1 else 0
  | _, _ => 0

/-- Each value as what it shares with the one before it and the rest. -/
def frontCode : Option Bytes → List Bytes → List (ℕ × Bytes)
  | _, [] => []
  | prev, v :: vs =>
    let p := match prev with
      | some u => sharedPrefix v u
      | none => 0
    (p, v.drop p) :: frontCode (some v) vs

/-- `delta_prefix_encode`: what it returns, and the output. -/
def deltaPrefixEncode (values : List Bytes) (out : Bytes) : Except Fault (Bool × Bytes) :=
  if tooLong values then return (false, out)
  else do
    let coded := frontCode none values
    let out ← deltaBinaryPackedEncode (coded.map fun c => BitVec.ofNat 32 c.1) out
    deltaLengthEncode (coded.map Prod.snd) out

/-! ## Reading -/

/-- `delta_binary_packed` where `nullopt` is a failure of the kernel. -/
def deltaOrFail (why : String) (input : Bytes) (n : ℕ) : Except KernelStop (List (BitVec 32) × ℕ) :=
  match deltaBinaryPacked 32 input n n with
  | .ok r => .ok r
  | .error .nullopt => kernelFail why
  | .error (.fault f) => .error (.fault f)

/-- The values of the given lengths, from `p` on. -/
def lengthViews (input : Bytes) : List (BitVec 32) → ℕ → Except KernelStop (List Bytes)
  | [], _ => return []
  | length :: lengths, p =>
    if length.toInt < 0 ∨ input.length - p < length.toNat then
      kernelFail "DELTA_LENGTH_BYTE_ARRAY data past the page"
    else do
      let views ← lengthViews input lengths (p + length.toNat)
      return subspan input p length.toNat :: views

/-- `delta_length_views`, into a span of `size` views. -/
def deltaLengthViews (input : Bytes) (nn size : ℕ) : Except KernelStop (List Bytes) :=
  if size < nn then kernelFail "output smaller than the value count"
  else do
    let (lengths, used) ← deltaOrFail "malformed DELTA_LENGTH_BYTE_ARRAY lengths" input nn
    lengthViews input lengths used

/-- Where sizing the arena is. -/
structure ArenaSize where
  total : ℕ
  prev : ℕ
  p : ℕ

/-- One value of the sizing loop, given as what it shares and how long the
rest is. -/
def sizeOne (rest : Bytes) (maxBytes : ℕ) (s : ArenaSize) (c : BitVec 32 × BitVec 32) :
    Except KernelStop ArenaSize :=
  if c.1.toInt < 0 ∨ c.2.toInt < 0 ∨ s.prev < c.1.toNat ∨ rest.length - s.p < c.2.toNat then
    kernelFail "DELTA_BYTE_ARRAY prefix/suffix out of range"
  else
    let prev := c.1.toNat + c.2.toNat
    if maxBytes < prev ∨ maxBytes - prev < s.total then
      kernelFail "DELTA_BYTE_ARRAY expands past the size limit"
    else return ⟨s.total + prev, prev, s.p + c.2.toNat⟩

/-- Where rebuilding the values is: the offsets of the next value and of
the one before it in the arena, the bytes read, and the views so far. -/
structure Rebuild (n : ℕ) where
  next : ℕ
  prevAt : ℕ
  p : ℕ
  views : List (ℕ × ℕ)
  arena : Buffer UInt8 n

/-- `memmove(arena + dst, arena + src, len)`, if it is to move anything. -/
def moveInArena {n : ℕ} (dst src len : ℕ) (arena : Buffer UInt8 n) : Option (Buffer UInt8 n) :=
  if len ≠ 0 then
    if src + len ≤ n then arena.store dst (subspan arena.elems src len) else none
  else some arena

/-- `memcpy(arena + dst, rest + src, len)`, if it is to copy anything. -/
def copyToArena {n : ℕ} (rest : Bytes) (dst src len : ℕ) (arena : Buffer UInt8 n) :
    Option (Buffer UInt8 n) :=
  if len ≠ 0 then arena.load rest dst src len else some arena

/-- One value of the rebuilding loop. -/
def rebuildOne {n : ℕ} (rest : Bytes) (s : Rebuild n) (c : BitVec 32 × BitVec 32) :
    Except KernelStop (Rebuild n) := do
  let pre := c.1.toNat
  let suf := c.2.toNat
  let arena ← unfailing (access (moveInArena s.next s.prevAt pre s.arena))
  let arena ← unfailing (access (copyToArena rest (s.next + pre) s.p suf arena))
  return ⟨s.next + pre + suf, s.next, s.p + suf, s.views ++ [(s.next, pre + suf)], arena⟩

/-- An arena of a size. -/
def Rebuild.fresh (p n : ℕ) : Rebuild n := ⟨0, 0, p, [], .zeros n⟩

/-- What the views show. -/
def Rebuild.values {n : ℕ} (s : Rebuild n) : List Bytes :=
  s.views.map fun v => subspan s.arena.elems v.1 v.2

/-- `delta_prefix_views`, into a span of `size` views. -/
def deltaPrefixViews (input : Bytes) (nn size maxBytes : ℕ) : Except KernelStop (List Bytes) :=
  if size < nn then kernelFail "output smaller than the value count"
  else do
    let (prefixes, used) ← deltaOrFail "malformed DELTA_BYTE_ARRAY prefix lengths" input nn
    let rest := input.drop used
    let (lengths, used) ← deltaOrFail "malformed DELTA_BYTE_ARRAY suffix lengths" rest nn
    let coded := prefixes.zip lengths
    let sized ← coded.foldlM (sizeOne rest maxBytes) ⟨0, 0, used⟩
    let rebuilt ← coded.foldlM (rebuildOne rest) (Rebuild.fresh used sized.total)
    return rebuilt.values

/-! ## Lengths -/

variable {values : List Bytes} {rest tail : Bytes} {n : ℕ}

theorem ofNat_length {k : ℕ} (hk : k ≤ int32Max) :
    (ofNat 32 k).toNat = k ∧ ¬ (ofNat 32 k).toInt < 0 := by
  have hmax : int32Max = 2147483647 := rfl
  have hnat : (ofNat 32 k).toNat = k := by rw [BitVec.toNat_ofNat]; omega
  rw [BitVec.toInt_eq_toNat_of_lt (by omega)]
  omega

theorem deltaOrFail_deltaBytes (why : String) (lengths : List (BitVec 32))
    (hlen : lengths.length < 2 ^ 64) (rest : Bytes) :
    deltaOrFail why (deltaBytes lengths ++ rest) lengths.length
      = .ok (lengths, (deltaBytes lengths).length) := by
  rw [deltaOrFail, deltaBinaryPacked_deltaBytes (by decide) hlen (le_refl _)]

section

variable (hlen : ∀ v ∈ values, v.length ≤ int32Max)
include hlen

theorem lengthViews_spec {p : ℕ} (hrest : rest.drop p = values.flatten ++ tail) :
    lengthViews rest (values.map fun v => ofNat 32 v.length) p = .ok values := by
  induction values generalizing p with
  | nil => rfl
  | cons v vs ih =>
    obtain ⟨hnat, hneg⟩ := ofNat_length (hlen v mem_cons_self)
    rw [flatten_cons, append_assoc] at hrest
    have hroom := congrArg length hrest
    rw [length_drop, length_append] at hroom
    have hnext : rest.drop (p + v.length) = vs.flatten ++ tail := by
      rw [← drop_drop, hrest, drop_left]
    rw [map_cons, lengthViews, hnat, if_neg (by omega),
      ih (forall_mem_cons.1 hlen).2 hnext, subspan, hrest, take_left]
    rfl

theorem tooLong_eq_false : tooLong values = false := by
  rw [tooLong, any_eq_false]
  intro v hv
  have hle := hlen v hv
  simp only [decide_eq_true_eq]
  omega

theorem deltaLengthEncode_eq (out : Bytes) :
    deltaLengthEncode values out = .ok (true,
      out ++ (deltaBytes (values.map fun v => ofNat 32 v.length) ++ values.flatten)) := by
  rw [deltaLengthEncode, tooLong_eq_false hlen, deltaBinaryPackedEncode_eq (by decide), ok_bind,
    append_assoc]
  rfl

end

/-! ## Front coding -/

theorem sharedPrefix_spec (v u : Bytes) :
    sharedPrefix v u ≤ u.length ∧ u.take (sharedPrefix v u) = v.take (sharedPrefix v u) := by
  induction v generalizing u with
  | nil => exact ⟨Nat.zero_le _, rfl⟩
  | cons a v ih =>
    cases u with
    | nil => exact ⟨Nat.zero_le _, rfl⟩
    | cons b u =>
      rw [sharedPrefix]
      split
      · rename_i hab
        obtain ⟨hle, htake⟩ := ih u
        refine ⟨Nat.succ_le_succ hle, ?_⟩
        rw [take_succ_cons, take_succ_cons, htake, hab]
      · exact ⟨Nat.zero_le _, rfl⟩

/-- What a value shares with the one before it, if there is one. -/
def shared (prev : Option Bytes) (v : Bytes) : ℕ :=
  match prev with
  | some u => sharedPrefix v u
  | none => 0

variable (done : List Bytes) (prev : Option Bytes)

theorem frontCode_cons (v : Bytes) (vs : List Bytes) :
    frontCode prev (v :: vs) = (shared prev v, v.drop (shared prev v)) :: frontCode (some v) vs :=
  rfl

/-- The value before the next one; none is as good as an empty one. -/
def before (prev : Option Bytes) : Bytes := prev.getD []

theorem shared_spec (v : Bytes) :
    shared prev v ≤ (before prev).length ∧ shared prev v ≤ v.length ∧
      (before prev).take (shared prev v) ++ v.drop (shared prev v) = v := by
  cases prev with
  | none => exact ⟨Nat.le_refl 0, Nat.zero_le _, rfl⟩
  | some u =>
    obtain ⟨hle, htake⟩ := sharedPrefix_spec v u
    have hlen := congrArg length htake
    rw [length_take, length_take] at hlen
    have hle' : sharedPrefix v u ≤ v.length := by omega
    refine ⟨hle, hle', ?_⟩
    show u.take (sharedPrefix v u) ++ v.drop (sharedPrefix v u) = v
    rw [htake, take_append_drop]

/-- The numbers the format has for a value. -/
def codeBits (c : ℕ × Bytes) : BitVec 32 × BitVec 32 :=
  (BitVec.ofNat 32 c.1, BitVec.ofNat 32 c.2.length)

theorem codeBits_spec {v : Bytes} (hlen : v.length ≤ int32Max) :
    let c := codeBits (shared prev v, v.drop (shared prev v))
    c.1.toNat = shared prev v ∧ ¬ c.1.toInt < 0 ∧ c.2.toNat = (v.drop (shared prev v)).length ∧
      ¬ c.2.toInt < 0 := by
  obtain ⟨-, hle, -⟩ := shared_spec prev v
  have hdrop : (v.drop (shared prev v)).length ≤ int32Max := by rw [length_drop]; omega
  obtain ⟨h₁, h₂⟩ := ofNat_length (le_trans hle hlen)
  obtain ⟨h₃, h₄⟩ := ofNat_length hdrop
  exact ⟨h₁, h₂, h₃, h₄⟩

/-- **Sizing the arena** comes to the size of the values. -/
theorem size_spec {maxBytes : ℕ} {s : ArenaSize}
    (hlen : ∀ v ∈ values, v.length ≤ int32Max) (hprev : s.prev = (before prev).length)
    (hrest : rest.drop s.p = ((frontCode prev values).map Prod.snd).flatten ++ tail)
    (hmax : s.total + values.flatten.length ≤ maxBytes) :
    ∃ s', ((frontCode prev values).map codeBits).foldlM (sizeOne rest maxBytes) s = .ok s' ∧
      s'.total = s.total + values.flatten.length := by
  induction values generalizing prev s with
  | nil => exact ⟨s, rfl, rfl⟩
  | cons v vs ih =>
    obtain ⟨hpre, hnn, hsuf, hnn'⟩ := codeBits_spec prev (hlen v mem_cons_self)
    obtain ⟨hle, hle', -⟩ := shared_spec prev v
    rw [frontCode_cons, map_cons, flatten_cons, append_assoc] at hrest
    dsimp only at hrest
    have hroom := congrArg length hrest
    rw [length_drop, length_append] at hroom
    rw [flatten_cons, length_append] at hmax
    have hwhole : shared prev v + (v.drop (shared prev v)).length = v.length := by
      rw [length_drop]
      omega
    have hnext : rest.drop (s.p + (v.drop (shared prev v)).length)
        = ((frontCode (some v) vs).map Prod.snd).flatten ++ tail := by
      rw [← drop_drop, hrest, drop_left]
    obtain ⟨s', hrun, htotal⟩ := ih (some v)
      (s := ⟨s.total + v.length, v.length, s.p + (v.drop (shared prev v)).length⟩)
      (forall_mem_cons.1 hlen).2 rfl hnext (by dsimp only; omega)
    refine ⟨s', ?_, ?_⟩
    · rw [frontCode_cons, map_cons, foldlM_cons, sizeOne, hpre, hsuf, if_neg (by omega)]
      rw [hwhole, if_neg (by omega)]
      exact hrun
    · rw [htotal, flatten_cons, length_append]
      dsimp only
      omega

/-! ## Rebuilding -/

theorem moveInArena_spec (arena : Buffer UInt8 n) {dst src len : ℕ} (hdst : dst + len ≤ n)
    (hsrc : src + len ≤ n) :
    ∃ arena', moveInArena dst src len arena = some arena' ∧
      arena'.elems.take (dst + len) = arena.elems.take dst ++ subspan arena.elems src len := by
  unfold moveInArena
  by_cases hlen : len ≠ 0
  · have hspan : (subspan arena.elems src len).length = len :=
      length_subspan (by rw [arena.length_elems]; exact hsrc)
    obtain ⟨arena', hstore, htake⟩ := Buffer.take_store (k := len)
      (l := subspan arena.elems src len) (show dst + _ ≤ n by omega) (by omega)
    rw [take_of_length_le (le_of_eq hspan)] at htake
    exact ⟨arena', by rw [if_pos hlen, if_pos hsrc, hstore], htake⟩
  · obtain rfl : len = 0 := not_not.1 hlen
    refine ⟨arena, if_neg hlen, ?_⟩
    rw [subspan, take_zero, append_nil]
    rfl

theorem copyToArena_spec (arena : Buffer UInt8 n) {dst src len : ℕ} (hdst : dst + len ≤ n)
    (hsrc : src + len ≤ rest.length) :
    ∃ arena', copyToArena rest dst src len arena = some arena' ∧
      arena'.elems.take (dst + len) = arena.elems.take dst ++ subspan rest src len := by
  unfold copyToArena
  by_cases hlen : len ≠ 0
  · have hspan : (subspan rest src len).length = len := length_subspan hsrc
    obtain ⟨arena', hstore, htake⟩ := Buffer.take_store (k := len)
      (l := subspan rest src len) (show dst + _ ≤ n by omega) (by omega)
    rw [take_of_length_le (le_of_eq hspan)] at htake
    exact ⟨arena', by rw [if_pos hlen, Buffer.load, if_pos ⟨hsrc, hdst⟩, hstore], htake⟩
  · obtain rfl : len = 0 := not_not.1 hlen
    refine ⟨arena, if_neg hlen, ?_⟩
    rw [subspan, take_zero, append_nil]
    rfl

/-- The views of values back to back, from an offset on. -/
def viewsFrom : ℕ → List Bytes → List (ℕ × ℕ)
  | _, [] => []
  | k, v :: vs => (k, v.length) :: viewsFrom (k + v.length) vs

theorem viewsFrom_append (k : ℕ) (vs : List Bytes) (v : Bytes) :
    viewsFrom k (vs ++ [v]) = viewsFrom k vs ++ [(k + vs.flatten.length, v.length)] := by
  induction vs generalizing k with
  | nil => rfl
  | cons u vs ih =>
    rw [cons_append, viewsFrom, ih, flatten_cons, length_append, add_assoc]
    rfl

theorem map_viewsFrom {k : ℕ} {l : Bytes} (h : l.drop k = values.flatten ++ tail) :
    (viewsFrom k values).map (fun v => subspan l v.1 v.2) = values := by
  induction values generalizing k with
  | nil => rfl
  | cons v vs ih =>
    rw [flatten_cons, append_assoc] at h
    have hnext : l.drop (k + v.length) = vs.flatten ++ tail := by rw [← drop_drop, h, drop_left]
    rw [viewsFrom, map_cons, ih hnext, subspan, h, take_left]

/-- What rebuilding keeps: the arena starts with the values so far, and
the last of them is where it is said to be. -/
structure Rebuild.Holds (done : List Bytes) (prev : Option Bytes) (s : Rebuild n) : Prop where
  next : s.next = done.flatten.length
  arena : s.arena.elems.take s.next = done.flatten
  views : s.views = viewsFrom 0 done
  prevAt : s.prevAt + (before prev).length = s.next
  last : subspan s.arena.elems s.prevAt (before prev).length = before prev

/-- **A value more.** -/
theorem Rebuild.Holds.rebuildOne {done : List Bytes} {prev : Option Bytes} {s : Rebuild n}
    {v : Bytes} (h : s.Holds done prev) (hlen : v.length ≤ int32Max)
    (hroom : s.next + v.length ≤ n) (hp : s.p ≤ rest.length)
    (hrest : rest.drop s.p = v.drop (shared prev v) ++ tail) :
    ∃ s', rebuildOne rest s (codeBits (shared prev v, v.drop (shared prev v))) = .ok s' ∧
      s'.Holds (done ++ [v]) (some v) ∧ s'.p = s.p + (v.drop (shared prev v)).length := by
  obtain ⟨hpre, -, hsuf, -⟩ := codeBits_spec prev hlen
  obtain ⟨hle, hle', hwhole⟩ := shared_spec prev v
  have hprev := h.prevAt
  have hread := congrArg length hrest
  rw [length_drop, length_append] at hread
  have hsum : shared prev v + (v.drop (shared prev v)).length = v.length := by
    rw [length_drop]
    omega
  -- what is moved is the start of the last value
  have hmoved : subspan s.arena.elems s.prevAt (shared prev v)
      = (before prev).take (shared prev v) := by
    rw [← h.last, subspan, subspan, take_take, min_eq_left hle]
  have hcopied : subspan rest s.p (v.drop (shared prev v)).length = v.drop (shared prev v) := by
    rw [subspan, hrest, take_left]
  obtain ⟨a₁, hmove, htake₁⟩ := moveInArena_spec s.arena
    (show s.next + shared prev v ≤ n by omega) (show s.prevAt + shared prev v ≤ n by omega)
  obtain ⟨a₂, hcopy, htake₂⟩ := copyToArena_spec a₁
    (show s.next + shared prev v + (v.drop (shared prev v)).length ≤ n by omega)
    (show s.p + (v.drop (shared prev v)).length ≤ rest.length by omega)
  rw [htake₁, hmoved, hcopied, append_assoc, hwhole, h.arena, add_assoc, hsum] at htake₂
  have hflat : (done ++ [v]).flatten = done.flatten ++ v := by
    rw [flatten_append, flatten_singleton]
  refine ⟨⟨s.next + shared prev v + (v.drop (shared prev v)).length, s.next,
    s.p + (v.drop (shared prev v)).length,
    s.views ++ [(s.next, shared prev v + (v.drop (shared prev v)).length)], a₂⟩, ?_, ?_, rfl⟩
  · unfold Columnar.rebuildOne
    dsimp only
    rw [hpre, hsuf, hmove]
    show (unfailing (access (copyToArena rest _ s.p _ a₁)) >>= _) = _
    rw [hcopy]
    rfl
  · rw [add_assoc, hsum]
    refine ⟨?_, ?_, ?_, rfl, ?_⟩
    · show s.next + v.length = _
      rw [hflat, length_append, h.next]
    · rw [hflat]
      exact htake₂
    · show s.views ++ [(s.next, v.length)] = _
      rw [viewsFrom_append, h.views, h.next, zero_add]
    · show subspan a₂.elems s.next v.length = v
      have hlenDone : done.flatten.length = s.next := h.next.symm
      rw [subspan, take_drop, htake₂, drop_left' hlenDone]

/-- **Rebuilding** gives the values. -/
theorem rebuild_spec {s : Rebuild n}
    (h : s.Holds done prev) (hlen : ∀ v ∈ values, v.length ≤ int32Max)
    (hroom : s.next + values.flatten.length ≤ n) (hp : s.p ≤ rest.length)
    (hrest : rest.drop s.p = ((frontCode prev values).map Prod.snd).flatten ++ tail) :
    ∃ s', ((frontCode prev values).map codeBits).foldlM (rebuildOne rest) s = .ok s' ∧
      s'.values = done ++ values := by
  induction values generalizing done prev s with
  | nil =>
    refine ⟨s, rfl, ?_⟩
    have hall : s.arena.elems.drop 0 = done.flatten ++ s.arena.elems.drop s.next := by
      rw [← h.arena, take_append_drop, drop_zero]
    rw [Rebuild.values, h.views, map_viewsFrom hall, append_nil]
  | cons v vs ih =>
    rw [frontCode_cons, map_cons, flatten_cons, append_assoc] at hrest
    dsimp only at hrest
    rw [flatten_cons, length_append] at hroom
    have hread := congrArg length hrest
    rw [length_drop, length_append] at hread
    obtain ⟨s₁, hstep, hs₁, hp₁⟩ := h.rebuildOne (hlen v mem_cons_self)
      (show s.next + v.length ≤ n by omega) hp hrest
    have hnext₁ : s₁.next = s.next + v.length := by
      rw [hs₁.next, h.next, flatten_append, flatten_singleton, length_append]
    have hrest₁ : rest.drop s₁.p = ((frontCode (some v) vs).map Prod.snd).flatten ++ tail := by
      rw [hp₁, ← drop_drop, hrest, drop_left]
    obtain ⟨s', hrun, hvalues⟩ := ih _ _ hs₁ (forall_mem_cons.1 hlen).2
      (by omega) (by omega) hrest₁
    refine ⟨s', ?_, by rw [hvalues, append_assoc]; rfl⟩
    rw [frontCode_cons, map_cons, foldlM_cons, hstep]
    exact hrun

/-! ## The round trips -/

theorem frontCode_spec (hlen : ∀ v ∈ values, v.length ≤ int32Max) :
    (frontCode prev values).length = values.length ∧
      ∀ c ∈ frontCode prev values, c.2.length ≤ int32Max := by
  induction values generalizing prev with
  | nil => exact ⟨rfl, fun c hc => absurd hc not_mem_nil⟩
  | cons v vs ih =>
    obtain ⟨hcount, hall⟩ := ih (some v) (forall_mem_cons.1 hlen).2
    have hv := hlen v mem_cons_self
    rw [frontCode_cons]
    refine ⟨by rw [length_cons, length_cons, hcount], fun c hc => ?_⟩
    rcases mem_cons.1 hc with rfl | hc
    · rw [length_drop]
      omega
    · exact hall c hc

section

variable (hlen : ∀ v ∈ values, v.length ≤ int32Max) (hcount : values.length < 2 ^ 64) (out : Bytes)
include hlen hcount

theorem deltaLengthViews_deltaLengthEncode :
    ∃ bytes, deltaLengthEncode values out = .ok (true, out ++ bytes) ∧
      ∀ size, values.length ≤ size → deltaLengthViews bytes values.length size = .ok values := by
  refine ⟨_, deltaLengthEncode_eq hlen out, fun size hsize => ?_⟩
  have hlengths := deltaOrFail_deltaBytes "malformed DELTA_LENGTH_BYTE_ARRAY lengths"
    (values.map fun v => ofNat 32 v.length) (by rw [length_map]; exact hcount)
  rw [length_map] at hlengths
  have hdrop : (deltaBytes (values.map fun v => ofNat 32 v.length) ++ values.flatten).drop
      (deltaBytes (values.map fun v => ofNat 32 v.length)).length
      = values.flatten ++ [] := by
    rw [drop_left, append_nil]
  rw [deltaLengthViews, if_neg (by omega), hlengths]
  exact lengthViews_spec hlen hdrop

theorem deltaPrefixViews_deltaPrefixEncode :
    ∃ bytes, deltaPrefixEncode values out = .ok (true, out ++ bytes) ∧
      ∀ size maxBytes, values.length ≤ size → values.flatten.length ≤ maxBytes →
        deltaPrefixViews bytes values.length size maxBytes = .ok values := by
  obtain ⟨hcoded, hsuffix⟩ := frontCode_spec none hlen
  set coded := frontCode none values with hcodedEq
  set prefixes := coded.map fun c => ofNat 32 c.1 with hprefixes
  set lengths := (coded.map Prod.snd).map fun v => ofNat 32 v.length with hlengths
  set rest := deltaBytes lengths ++ (coded.map Prod.snd).flatten with hrest
  refine ⟨deltaBytes prefixes ++ rest, ?_, fun size maxBytes hsize hmax => ?_⟩
  · have hsuffixes : ∀ v ∈ coded.map Prod.snd, v.length ≤ int32Max := by
      intro v hv
      obtain ⟨c, hc, rfl⟩ := mem_map.1 hv
      exact hsuffix c hc
    rw [deltaPrefixEncode, tooLong_eq_false hlen, if_neg Bool.false_ne_true]
    dsimp only
    rw [deltaBinaryPackedEncode_eq (by decide), ok_bind, deltaLengthEncode_eq hsuffixes,
      append_assoc]
  · have hn₁ : prefixes.length = values.length := by rw [length_map, hcoded]
    have hn₂ : lengths.length = values.length := by rw [length_map, length_map, hcoded]
    have h₁ := deltaOrFail_deltaBytes "malformed DELTA_BYTE_ARRAY prefix lengths"
      prefixes (by omega) rest
    have h₂ := deltaOrFail_deltaBytes "malformed DELTA_BYTE_ARRAY suffix lengths"
      lengths (by omega) (coded.map Prod.snd).flatten
    rw [hn₁] at h₁
    rw [hn₂] at h₂
    have hzip : prefixes.zip lengths = coded.map codeBits := by
      rw [hlengths, map_map, zip_map']
      rfl
    have hdrop : rest.drop (deltaBytes lengths).length = (coded.map Prod.snd).flatten ++ [] := by
      rw [hrest, drop_left, append_nil]
    obtain ⟨sized, hsized, htotal⟩ := size_spec none
      (s := ⟨0, 0, (deltaBytes lengths).length⟩) hlen rfl hdrop
      (show 0 + values.flatten.length ≤ maxBytes by omega)
    obtain ⟨rebuilt, hrebuilt, hvalues⟩ := rebuild_spec [] none
      (s := Rebuild.fresh (deltaBytes lengths).length sized.total)
      ⟨rfl, rfl, rfl, rfl, rfl⟩ hlen (by rw [htotal]; exact le_refl _)
      (by rw [hrest, length_append]; exact Nat.le_add_right _ _) hdrop
    rw [deltaPrefixViews, if_neg (by omega), h₁, ok_bind]
    dsimp only
    rw [drop_left, h₂, ok_bind]
    rw [hzip, hsized, ok_bind, hrebuilt, ok_bind, hvalues]
    rfl

end

/-- **Byte arrays are read back** from both encodings, into any span with
room for the views; front-coded ones also within any limit that has room
for their bytes. -/
theorem byteArrays_round_trip (values : List Bytes) (hlen : ∀ v ∈ values, v.length ≤ int32Max)
    (hcount : values.length < 2 ^ 64) (out : Bytes) :
    (∃ bytes, deltaLengthEncode values out = .ok (true, out ++ bytes) ∧
      ∀ size, values.length ≤ size → deltaLengthViews bytes values.length size = .ok values) ∧
    ∃ bytes, deltaPrefixEncode values out = .ok (true, out ++ bytes) ∧
      ∀ size maxBytes, values.length ≤ size → values.flatten.length ≤ maxBytes →
        deltaPrefixViews bytes values.length size maxBytes = .ok values :=
  ⟨deltaLengthViews_deltaLengthEncode hlen hcount out,
    deltaPrefixViews_deltaPrefixEncode hlen hcount out⟩

/-- Two values with a common start, an empty one and a repeated one. -/
theorem byteArrays_round_trip_four :
    (∃ bytes, deltaLengthEncode [[1, 2], [1, 2, 3], [], []] [] = .ok (true, [] ++ bytes) ∧
      ∀ size, 4 ≤ size → deltaLengthViews bytes 4 size = .ok [[1, 2], [1, 2, 3], [], []]) ∧
    ∃ bytes, deltaPrefixEncode [[1, 2], [1, 2, 3], [], []] [] = .ok (true, [] ++ bytes) ∧
      ∀ size maxBytes, 4 ≤ size → 5 ≤ maxBytes →
        deltaPrefixViews bytes 4 size maxBytes = .ok [[1, 2], [1, 2, 3], [], []] :=
  byteArrays_round_trip [[1, 2], [1, 2, 3], [], []] (by decide) (by decide) []

end Nanom.Columnar
